import Mathlib.Data.List.AList
import Mathlib.Tactic

/-!
# A map with an index by owner

A map of entries that have owners, and beside it the keys of every owner.
-/

structure MirrorMap (κ α ε : Type*) where
  entries : AList fun _ : κ => ε
  index : AList fun _ : α => List κ

namespace MirrorMap

variable {κ α ε : Type*} [DecidableEq κ] [DecidableEq α]

def empty : MirrorMap κ α ε := ⟨∅, ∅⟩

/-- The keys of an owner. -/
def keysOf (m : MirrorMap κ α ε) (a : α) : List κ := (m.index.lookup a).getD []

/-- The owner loses a key. -/
def withdraw (m : MirrorMap κ α ε) (a : α) (k : κ) : MirrorMap κ α ε :=
  match m.index.lookup a with
  | none => m
  | some keys =>
    if keys.erase k = [] then { m with index := m.index.erase a }
    else { m with index := m.index.insert a (keys.erase k) }

/-- The owner gets a key. -/
def file (m : MirrorMap κ α ε) (a : α) (k : κ) : MirrorMap κ α ε :=
  { m with index := m.index.insert a ((m.keysOf a).insert k) }

section

variable (owner : ε → α)

/-- The key leaves the owner of the entry that is replaced. -/
def replace (m : MirrorMap κ α ε) (k : κ) (e : ε) : Option ε → MirrorMap κ α ε
  | none => m
  | some previous => if owner previous = owner e then m else m.withdraw (owner previous) k

def put (m : MirrorMap κ α ε) (k : κ) (e : ε) : MirrorMap κ α ε :=
  ({ m with entries := m.entries.insert k e }.replace owner k e (m.entries.lookup k)).file
    (owner e) k

def remove (m : MirrorMap κ α ε) (k : κ) : MirrorMap κ α ε :=
  match m.entries.lookup k with
  | none => m
  | some e => { m with entries := m.entries.erase k }.withdraw (owner e) k

/-- The index lists sets, and no empty ones. -/
structure Tidy (m : MirrorMap κ α ε) : Prop where
  nodup : ∀ a, (m.keysOf a).Nodup
  ne_nil : ∀ a, m.index.lookup a ≠ some []

/-- The index lists the keys of the entries by their owners. -/
structure Coherent (m : MirrorMap κ α ε) : Prop extends Tidy m where
  mem_keysOf : ∀ a k, k ∈ m.keysOf a ↔ ∃ e, m.entries.lookup k = some e ∧ owner e = a

end

variable {owner : ε → α} {m : MirrorMap κ α ε}

/-! ## Entries -/

@[simp] theorem entries_withdraw (m : MirrorMap κ α ε) (a : α) (k : κ) :
    (m.withdraw a k).entries = m.entries := by
  unfold withdraw
  split
  · rfl
  · split_ifs <;> rfl

@[simp] theorem entries_replace (m : MirrorMap κ α ε) (k : κ) (e : ε) (previous : Option ε) :
    (m.replace owner k e previous).entries = m.entries := by
  unfold replace
  split
  · rfl
  · split_ifs
    · rfl
    · exact entries_withdraw m _ k

theorem lookup_put (m : MirrorMap κ α ε) (k : κ) (e : ε) (k' : κ) :
    (m.put owner k e).entries.lookup k' = if k' = k then some e else m.entries.lookup k' := by
  rw [put, file, entries_replace]
  split_ifs with hk
  · rw [hk]
    exact AList.lookup_insert _
  · exact AList.lookup_insert_ne hk

theorem lookup_remove (m : MirrorMap κ α ε) (k k' : κ) :
    (m.remove owner k).entries.lookup k' = if k' = k then none else m.entries.lookup k' := by
  unfold remove
  split
  · rename_i hnone
    split_ifs with hk
    · rw [hk, hnone]
    · rfl
  · rw [entries_withdraw]
    split_ifs with hk
    · rw [hk]
      exact AList.lookup_erase _ _
    · exact AList.lookup_erase_ne hk

/-! ## Keys -/

theorem keysOf_withdraw (m : MirrorMap κ α ε) (a a' : α) (k : κ) :
    (m.withdraw a k).keysOf a' = if a' = a then (m.keysOf a).erase k else m.keysOf a' := by
  unfold withdraw
  cases hlookup : m.index.lookup a with
  | none =>
    split_ifs with ha
    · rw [ha, keysOf, hlookup]
      rfl
    · rfl
  | some keys =>
    have hkeys : m.keysOf a = keys := by rw [keysOf, hlookup, Option.getD_some]
    rw [hkeys]
    dsimp only
    by_cases ha : a' = a
    · rw [if_pos ha, ha]
      split_ifs with hempty
      · rw [keysOf, AList.lookup_erase, hempty, Option.getD_none]
      · rw [keysOf, AList.lookup_insert, Option.getD_some]
    · rw [if_neg ha]
      split_ifs
      · rw [keysOf, AList.lookup_erase_ne ha, ← keysOf]
      · rw [keysOf, AList.lookup_insert_ne ha, ← keysOf]

theorem keysOf_file (m : MirrorMap κ α ε) (a a' : α) (k : κ) :
    (m.file a k).keysOf a' = if a' = a then (m.keysOf a).insert k else m.keysOf a' := by
  rw [keysOf, file]
  split_ifs with ha
  · rw [ha, AList.lookup_insert, Option.getD_some]
  · rw [AList.lookup_insert_ne ha, keysOf]

theorem Tidy.withdraw (h : m.Tidy) (a : α) (k : κ) : (m.withdraw a k).Tidy := by
  refine ⟨fun a' => ?_, fun a' => ?_⟩
  · rw [keysOf_withdraw]
    split_ifs
    · exact (h.nodup a).erase k
    · exact h.nodup a'
  · unfold MirrorMap.withdraw
    cases m.index.lookup a with
    | none => exact h.ne_nil a'
    | some keys =>
      dsimp only
      by_cases ha : a' = a
      · rw [ha]
        split_ifs with hempty
        · rw [AList.lookup_erase]
          exact nofun
        · rw [AList.lookup_insert]
          exact fun heq => hempty (Option.some.inj heq)
      · split_ifs
        · rw [AList.lookup_erase_ne ha]
          exact h.ne_nil a'
        · rw [AList.lookup_insert_ne ha]
          exact h.ne_nil a'

theorem Tidy.replace (h : m.Tidy) (k : κ) (e : ε) (previous : Option ε) :
    (m.replace owner k e previous).Tidy := by
  unfold MirrorMap.replace
  split
  · exact h
  · split_ifs
    · exact h
    · exact h.withdraw _ k

theorem Tidy.file (h : m.Tidy) (a : α) (k : κ) : (m.file a k).Tidy := by
  refine ⟨fun a' => ?_, fun a' => ?_⟩
  · rw [keysOf_file]
    split_ifs
    · exact (h.nodup a).insert
    · exact h.nodup a'
  · rw [MirrorMap.file]
    by_cases ha : a' = a
    · rw [ha, AList.lookup_insert]
      exact fun heq => List.ne_nil_of_mem List.mem_insert_self (Option.some.inj heq)
    · rw [AList.lookup_insert_ne ha]
      exact h.ne_nil a'

/-! ## Coherence -/

theorem coherent_empty : (empty : MirrorMap κ α ε).Coherent owner :=
  ⟨⟨fun _ => List.nodup_nil, fun _ => nofun⟩,
    fun _ _ => ⟨fun h => absurd h List.not_mem_nil, fun ⟨_, h, _⟩ => nomatch h⟩⟩

theorem Coherent.remove (h : m.Coherent owner) (k : κ) : (m.remove owner k).Coherent owner := by
  unfold MirrorMap.remove
  cases hlookup : m.entries.lookup k with
  | none => exact h
  | some removed =>
    have htidy : Tidy { m with entries := m.entries.erase k } := ⟨h.nodup, h.ne_nil⟩
    refine ⟨htidy.withdraw _ _, fun a k' => ?_⟩
    dsimp only
    rw [keysOf_withdraw, entries_withdraw]
    change (k' ∈ if a = owner removed then (m.keysOf (owner removed)).erase k else m.keysOf a) ↔ _
    by_cases hk : k' = k
    · subst hk
      rw [AList.lookup_erase]
      refine iff_of_false (fun hmem => ?_) fun ⟨_, hnone, _⟩ => nomatch hnone
      split_ifs at hmem with ha
      · exact (h.nodup _).not_mem_erase hmem
      · obtain ⟨e, he, rfl⟩ := (h.mem_keysOf a k').mp hmem
        exact ha (congrArg owner (Option.some.inj (he.symm.trans hlookup)))
    · rw [AList.lookup_erase_ne hk, ← h.mem_keysOf]
      split_ifs with ha
      · rw [List.mem_erase_of_ne hk, ha]
      · exact Iff.rfl

theorem Coherent.mem_replace (h : m.Coherent owner) (k : κ) (e : ε) (a : α) (k' : κ) :
    k' ∈ (replace owner { m with entries := m.entries.insert k e } k e
        (m.entries.lookup k)).keysOf a ↔
      k' ∈ m.keysOf a ∧ (k' = k → a = owner e) := by
  have hfiled : k ∈ m.keysOf a ↔ ∃ previous, m.entries.lookup k = some previous ∧
      owner previous = a := h.mem_keysOf a k
  cases hlookup : m.entries.lookup k with
  | none =>
    rw [hlookup] at hfiled
    refine (and_iff_left_of_imp fun hmem heq => ?_).symm
    obtain ⟨_, hnone, _⟩ := hfiled.mp (heq ▸ hmem)
    cases hnone
  | some previous =>
    have hiff : k ∈ m.keysOf a ↔ owner previous = a := by
      rw [hfiled, hlookup]
      simp
    unfold MirrorMap.replace
    dsimp only
    split_ifs with hsame
    · refine (and_iff_left_of_imp fun hmem heq => ?_).symm
      rw [← hsame, hiff.mp (heq ▸ hmem)]
    · rw [keysOf_withdraw]
      change (k' ∈ if a = owner previous then (m.keysOf (owner previous)).erase k
        else m.keysOf a) ↔ _
      split_ifs with ha
      · subst ha
        rw [(h.nodup _).mem_erase_iff, and_comm, and_congr_right_iff]
        exact fun _ => ⟨fun hne heq => absurd heq hne, fun himp heq => hsame (himp heq)⟩
      · refine (and_iff_left_of_imp fun hmem heq => ?_).symm
        exact absurd (hiff.mp (heq ▸ hmem)).symm ha

theorem Coherent.put (h : m.Coherent owner) (k : κ) (e : ε) : (m.put owner k e).Coherent owner := by
  have htidy : Tidy { m with entries := m.entries.insert k e } := ⟨h.nodup, h.ne_nil⟩
  refine ⟨(htidy.replace k e _).file _ _, fun a k' => ?_⟩
  have hmem := h.mem_replace k e a k'
  rw [lookup_put, MirrorMap.put, keysOf_file]
  by_cases hk : k' = k
  · rw [if_pos hk]
    split_ifs with ha
    · simp [hk, ha]
    · rw [hmem]
      simp [hk, ha, Ne.symm ha]
  · rw [if_neg hk, ← h.mem_keysOf]
    split_ifs with ha
    · rw [List.mem_insert_iff, ← ha, hmem]
      simp [hk]
    · rw [hmem]
      simp [hk]

/-! ## Several owners -/

section

variable (owners : ε → List α)

/-- An entry under a new key. -/
def putAll (m : MirrorMap κ α ε) (k : κ) (e : ε) : MirrorMap κ α ε :=
  (owners e).foldl (fun m a => m.file a k) { m with entries := m.entries.insert k e }

def removeAll (m : MirrorMap κ α ε) (k : κ) : MirrorMap κ α ε :=
  match m.entries.lookup k with
  | none => m
  | some e =>
    let m' := (owners e).foldl (fun m a => m.withdraw a k) m
    { m' with entries := m'.entries.erase k }

/-- The index lists the keys of the entries under every owner. -/
structure Indexed (m : MirrorMap κ α ε) : Prop extends Tidy m where
  mem_keysOf : ∀ a k, k ∈ m.keysOf a ↔ ∃ e, m.entries.lookup k = some e ∧ a ∈ owners e

end

variable {owners : ε → List α}

theorem foldl_file (h : m.Tidy) (l : List α) (k : κ) :
    let m' := l.foldl (fun m a => m.file a k) m
    m'.Tidy ∧ m'.entries = m.entries ∧
      ∀ a k', k' ∈ m'.keysOf a ↔ k' ∈ m.keysOf a ∨ k' = k ∧ a ∈ l := by
  induction l generalizing m with
  | nil => exact ⟨h, rfl, by simp⟩
  | cons b l ih =>
    obtain ⟨htidy, hentries, hmem⟩ := ih (h.file b k)
    refine ⟨htidy, hentries, fun a k' => ?_⟩
    rw [List.foldl_cons, hmem, keysOf_file]
    split_ifs with hab
    · simp [hab, List.mem_insert_iff]
      tauto
    · simp [hab]

theorem foldl_withdraw (h : m.Tidy) (l : List α) (k : κ) :
    let m' := l.foldl (fun m a => m.withdraw a k) m
    m'.Tidy ∧ m'.entries = m.entries ∧
      ∀ a k', k' ∈ m'.keysOf a ↔ k' ∈ m.keysOf a ∧ ¬(k' = k ∧ a ∈ l) := by
  induction l generalizing m with
  | nil => exact ⟨h, rfl, by simp⟩
  | cons b l ih =>
    obtain ⟨htidy, hentries, hmem⟩ := ih (h.withdraw b k)
    refine ⟨htidy, hentries.trans (entries_withdraw m b k), fun a k' => ?_⟩
    rw [List.foldl_cons, hmem, keysOf_withdraw]
    split_ifs with hab
    · rw [(h.nodup _).mem_erase_iff, hab]
      simp
      tauto
    · simp [hab]

theorem Indexed.putAll (h : m.Indexed owners) {k : κ} (hk : m.entries.lookup k = none) (e : ε) :
    (m.putAll owners k e).Indexed owners ∧
      (m.putAll owners k e).entries = m.entries.insert k e := by
  have htidy : Tidy { m with entries := m.entries.insert k e } := ⟨h.nodup, h.ne_nil⟩
  obtain ⟨htidy, hentries, hmem⟩ := foldl_file htidy (owners e) k
  refine ⟨⟨htidy, fun a k' => ?_⟩, hentries⟩
  rw [MirrorMap.putAll, hmem, hentries]
  have hold : k' ∈ m.keysOf a ↔ _ := h.mem_keysOf a k'
  obtain rfl | hne := eq_or_ne k' k
  · rw [hk] at hold
    simpa [AList.lookup_insert] using fun hmem => (by simpa using hold.mp hmem)
  · rw [AList.lookup_insert_ne hne, ← hold]
    simp [hne, keysOf]

theorem Indexed.removeAll (h : m.Indexed owners) (k : κ) :
    (m.removeAll owners k).Indexed owners ∧
      (m.removeAll owners k).entries = m.entries.erase k := by
  unfold MirrorMap.removeAll
  cases hlookup : m.entries.lookup k with
  | none =>
    refine ⟨h, AList.ext (List.kerase_of_notMem_keys ?_).symm⟩
    exact AList.lookup_eq_none.mp hlookup
  | some e =>
    obtain ⟨htidy, hentries, hmem⟩ := foldl_withdraw h.toTidy (owners e) k
    refine ⟨⟨⟨htidy.nodup, htidy.ne_nil⟩, fun a k' => ?_⟩, congrArg (AList.erase k) hentries⟩
    have hkeys := hmem a k'
    rw [h.mem_keysOf] at hkeys
    refine hkeys.trans ?_
    dsimp only
    rw [hentries]
    obtain rfl | hne := eq_or_ne k' k
    · simp [AList.lookup_erase, hlookup]
    · simp [AList.lookup_erase_ne hne, hne]

end MirrorMap
