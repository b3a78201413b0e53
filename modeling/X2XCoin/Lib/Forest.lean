import X2XCoin.Lib.ParentMap

/-!
# Forests with heights

A forest is given by a function to the parent, with heights that start with 0 at a root and grow by
one from a parent to its child.
-/

namespace Forest

variable {α : Type*}

section

variable (parent : α → Option α)

/-- So many times the parent. -/
def up : ℕ → α → Option α
  | 0, a => some a
  | n + 1, a => (parent a).bind (up n)

/-- The first element itself or an ancestor of it. -/
def Above (a b : α) : Prop := ∃ n, up parent n a = some b

/-- Walks up to the first element at which to stop. -/
def climb (stop : α → Bool) : ℕ → Option α → Option α
  | fuel + 1, some a => if stop a then some a else climb stop fuel (parent a)
  | _, _ => none

/-- Walks up from two elements in step until they are the same. -/
def meet [DecidableEq α] : ℕ → Option α → Option α → Option α × Option α
  | fuel + 1, some a, some b =>
    if a = b then (some a, some b) else meet fuel (parent a) (parent b)
  | _, x, y => (x, y)

variable (height : α → ℕ)

/-- The ancestor at a height, if there is one. -/
def ancestor (a : α) (n : ℤ) : Option α :=
  if n > height a ∨ n < 0 then none else up parent (height a - n.toNat) a

structure Graded : Prop where
  root : ∀ a, parent a = none → height a = 0
  child : ∀ a b, parent a = some b → height a = height b + 1

/-- An element with the property and the greatest height, if there is one. -/
def Highest (P : α → Prop) : Option α → Prop
  | none => ∀ a, ¬ P a
  | some a => P a ∧ ∀ b, P b → height b ≤ height a

end

variable {parent : α → Option α} {height : α → ℕ}

theorem up_add (m n : ℕ) (a : α) : up parent (m + n) a = (up parent m a).bind (up parent n) := by
  induction m generalizing a with
  | zero => rw [Nat.zero_add, up, Option.bind_some]
  | succ m ih =>
    rw [Nat.succ_add, up, up, Option.bind_assoc]
    exact Option.bind_congr fun b _ => ih b

theorem Above.refl (a : α) : Above parent a a := ⟨0, rfl⟩

theorem Above.trans {a b c : α} (hb : Above parent a b) (hc : Above parent b c) :
    Above parent a c := by
  obtain ⟨m, hm⟩ := hb
  obtain ⟨n, hn⟩ := hc
  exact ⟨m + n, by rw [up_add, hm, Option.bind_some, hn]⟩

theorem up_mono {parent' : α → Option α} (h : ∀ a b, parent a = some b → parent' a = some b)
    {n : ℕ} {a b : α} (hup : up parent n a = some b) : up parent' n a = some b := by
  induction n generalizing a with
  | zero => exact hup
  | succ n ih =>
    obtain ⟨c, hc, hn⟩ := Option.bind_eq_some_iff.mp hup
    rw [up, h a c hc, Option.bind_some, ih hn]

theorem Above.of_parent {a b c : α} (hp : parent a = some b) (h : Above parent b c) :
    Above parent a c := by
  obtain ⟨n, hn⟩ := h
  exact ⟨n + 1, by rw [up, hp, Option.bind_some, hn]⟩

theorem Above.cases {a c : α} (h : Above parent a c) :
    c = a ∨ ∃ b, parent a = some b ∧ Above parent b c := by
  obtain ⟨n, hn⟩ := h
  cases n with
  | zero => exact .inl (Option.some.inj hn).symm
  | succ n =>
    obtain ⟨b, hb, hn⟩ := Option.bind_eq_some_iff.mp hn
    exact .inr ⟨b, hb, n, hn⟩

theorem Highest.congr {P Q : α → Prop} (h : ∀ a, P a ↔ Q a) {r : Option α}
    (hr : Highest height P r) : Highest height Q r := by
  cases r with
  | none => exact fun a ha => hr a ((h a).mpr ha)
  | some a => exact ⟨(h a).mp hr.1, fun b hb => hr.2 b ((h b).mpr hb)⟩

namespace Graded

variable (hg : Graded parent height)

include hg

variable {n : ℕ} {a b : α}

theorem height_up (h : up parent n a = some b) : height a = height b + n := by
  induction n generalizing a with
  | zero => rw [Option.some.inj h, Nat.add_zero]
  | succ n ih =>
    obtain ⟨c, hc, hn⟩ := Option.bind_eq_some_iff.mp h
    rw [hg.child a c hc, ih hn, Nat.add_assoc]

theorem exists_up {a : α} (h : n ≤ height a) : ∃ b, up parent n a = some b := by
  induction n generalizing a with
  | zero => exact ⟨a, rfl⟩
  | succ n ih =>
    cases hp : parent a with
    | none =>
      have := hg.root a hp
      omega
    | some c =>
      have hheight := hg.child a c hp
      obtain ⟨b, hb⟩ := ih (a := c) (by omega)
      exact ⟨b, by rw [up, hp, Option.bind_some, hb]⟩

theorem height_le (h : Above parent a b) : height b ≤ height a := by
  obtain ⟨n, hn⟩ := h
  have := hg.height_up hn
  omega

/-- Of two ancestors of one element the lower is the other one's ancestor. -/
theorem above_of_height_le {a b c : α} (hb : Above parent a b) (hc : Above parent a c)
    (hle : height c ≤ height b) : Above parent b c := by
  obtain ⟨m, hm⟩ := hb
  obtain ⟨n, hn⟩ := hc
  have hb := hg.height_up hm
  have hc := hg.height_up hn
  obtain ⟨k, rfl⟩ := Nat.exists_eq_add_of_le (show m ≤ n by omega)
  rw [up_add, hm, Option.bind_some] at hn
  exact ⟨k, hn⟩

theorem eq_of_height_eq {a b c : α} (hb : Above parent a b) (hc : Above parent a c)
    (heq : height b = height c) : b = c := by
  obtain ⟨n, hn⟩ := hg.above_of_height_le hb hc heq.ge
  have := hg.height_up hn
  obtain rfl : n = 0 := by omega
  exact Option.some.inj hn

theorem ancestor_eq_some :
    ancestor parent height a n = some b ↔ Above parent a b ∧ height b = n := by
  rw [ancestor]
  constructor
  · intro h
    split_ifs at h with hn
    have := hg.height_up h
    exact ⟨⟨_, h⟩, by omega⟩
  · rintro ⟨⟨m, hm⟩, rfl⟩
    have := hg.height_up hm
    rw [if_neg (by omega), show height a - (height b : ℤ).toNat = m by omega, hm]

theorem exists_ancestor {a : α} (h : n ≤ height a) : ∃ b, ancestor parent height a n = some b := by
  rw [ancestor, if_neg (by omega)]
  exact hg.exists_up (Nat.sub_le _ _)

/-- With enough fuel walking up finds the highest ancestor at which to stop. -/
theorem climb_highest (stop : α → Bool) {fuel : ℕ} {a : α} (hfuel : height a < fuel) :
    Highest height (fun b => Above parent a b ∧ stop b) (climb parent stop fuel (some a)) := by
  induction fuel generalizing a with
  | zero => omega
  | succ fuel ih =>
    rw [climb]
    split_ifs with hstop
    · exact ⟨⟨Above.refl a, hstop⟩, fun b hb => hg.height_le hb.1⟩
    · cases hp : parent a with
      | none =>
        have hnone : climb parent stop fuel none = none := by cases fuel <;> rfl
        rw [hnone]
        rintro b ⟨hb, hstopb⟩
        obtain rfl | ⟨c, hc, -⟩ := hb.cases
        · exact hstop hstopb
        · rw [hp] at hc
          cases hc
      | some c =>
        have hheight := hg.child a c hp
        refine (ih (by omega)).congr fun b => and_congr_left fun hstopb => ?_
        refine ⟨Above.of_parent hp, fun hb => ?_⟩
        obtain rfl | ⟨d, hd, hb⟩ := hb.cases
        · exact absurd hstopb hstop
        · rw [hp] at hd
          exact Option.some.inj hd ▸ hb

variable [DecidableEq α]

/-- With enough fuel walking up in step ends at the highest common ancestor, or on both sides above
the roots. -/
theorem meet_highest {fuel : ℕ} (hheight : height a = height b) (hfuel : height a < fuel) :
    ∃ r, meet parent fuel (some a) (some b) = (r, r) ∧
      Highest height (fun c => Above parent a c ∧ Above parent b c) r := by
  induction fuel generalizing a b with
  | zero => omega
  | succ fuel ih =>
    rw [meet]
    split_ifs with heq
    · subst heq
      exact ⟨some a, rfl, ⟨Above.refl a, Above.refl a⟩, fun c hc => hg.height_le hc.1⟩
    · have hdistinct : ∀ c, Above parent a c ∧ Above parent b c → c ≠ a ∧ c ≠ b := by
        rintro c ⟨ha, hb⟩
        refine ⟨?_, ?_⟩
        · rintro rfl
          exact heq (hg.eq_of_height_eq hb (Above.refl b) hheight)
        · rintro rfl
          exact heq (hg.eq_of_height_eq (Above.refl a) ha hheight)
      cases hpa : parent a with
      | none =>
        have hroot := hg.root a hpa
        cases hpb : parent b with
        | none =>
          refine ⟨none, by cases fuel <;> rfl, fun c hc => ?_⟩
          obtain hself | ⟨d, hd, -⟩ := hc.1.cases
          · exact (hdistinct c hc).1 hself
          · rw [hpa] at hd
            cases hd
        | some b' =>
          have := hg.child b b' hpb
          omega
      | some a' =>
        have ha := hg.child a a' hpa
        cases hpb : parent b with
        | none =>
          have := hg.root b hpb
          omega
        | some b' =>
          have hb := hg.child b b' hpb
          obtain ⟨r, hr, hhighest⟩ := ih (a := a') (b := b') (by omega) (by omega)
          refine ⟨r, hr, hhighest.congr fun c => ⟨?_, fun hc => ?_⟩⟩
          · exact fun hc => ⟨hc.1.of_parent hpa, hc.2.of_parent hpb⟩
          · obtain ⟨hnea, hneb⟩ := hdistinct c hc
            obtain ⟨d, hd, hda⟩ := hc.1.cases.resolve_left hnea
            obtain ⟨e, he, heb⟩ := hc.2.cases.resolve_left hneb
            rw [hpa] at hd
            rw [hpb] at he
            exact ⟨Option.some.inj hd ▸ hda, Option.some.inj he ▸ heb⟩

end Graded

end Forest

/-! ## Maps of parents -/

namespace ParentMap

open Forest

variable {κ ν : Type*} {get : κ → Option ν} {parent : ν → Option κ} {height : ν → ℕ}

theorem WellFormed.graded (hm : WellFormed get parent height) :
    Graded (fun k => (get k).bind parent) fun k => (get k).elim 0 height := by
  constructor
  · intro k hp
    cases h : get k with
    | none => rfl
    | some v => exact hm.parent_none h (by rwa [h, Option.bind_some] at hp)
  · intro k k' hp
    obtain ⟨v, h, hp⟩ := Option.bind_eq_some_iff.mp hp
    obtain ⟨v', h', hheight⟩ := hm.parent_some h hp
    simp only [h, h', Option.elim_some, hheight]

/-- The value of a given height on the path is that of the ancestor of this height. -/
theorem WellFormed.find?_path (hm : WellFormed get parent height) (n : ℕ) {k : κ} {v : ν}
    (h : get k = some v) :
    (path get parent height k).find? (fun w => height w = n) =
      if n ≤ height v then (up (fun k => (get k).bind parent) (height v - n) k).bind get
      else none := by
  refine hm.induction (P := fun k v => (path get parent height k).find? (fun w => height w = n) =
    if n ≤ height v then (up (fun k => (get k).bind parent) (height v - n) k).bind get else none)
    ?_ ?_ h
  · intro k v h hp
    rw [hm.path_root h hp, hm.parent_none h hp]
    cases n with
    | zero => simp [hm.parent_none h hp, up, h]
    | succ n => simp [hm.parent_none h hp]
  · intro k v k' v' h hp h' ih
    obtain ⟨w, hw, hheight⟩ := hm.parent_some h hp
    obtain rfl : w = v' := Option.some.inj (hw.symm.trans h')
    rw [hm.path_child h hp]
    by_cases hn : height v = n
    · rw [List.find?_cons_of_pos (by simpa using hn), if_pos hn.ge, hn, Nat.sub_self, up,
        Option.bind_some, h]
    · rw [List.find?_cons_of_neg (by simpa using hn), ih]
      by_cases hle : n ≤ height w
      · have hsub : height v - n = height w - n + 1 := by omega
        rw [if_pos hle, if_pos (by omega), hsub, up, h, Option.bind_some, hp, Option.bind_some]
      · rw [if_neg hle, if_neg (by omega)]

end ParentMap
