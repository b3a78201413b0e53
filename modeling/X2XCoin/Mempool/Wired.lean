import X2XCoin.Mempool.Pool

/-!
# A pool with its maps in step

`mapNextTx` names for every outpoint the transaction of the pool that spends it, and the links are a
relation between entries and entries that spend them.  In a pool at rest that relation holds of all
such pairs; while a block is disconnected some pairs are missing.
-/

namespace X2XCoin

namespace CTxMemPool

/-- The entry `c` spends an output of the transaction `p`, which need not be in the pool. -/
def Edge (pool : CTxMemPool) (p c : Uint256) : Prop :=
  ∃ e, pool.mapTx.lookup c = some e ∧ ∃ txin ∈ e.tx.vin, txin.prevout.hash = p

/-- A transaction and the entries that depend on it. -/
abbrev Reaches (pool : CTxMemPool) : Uint256 → Uint256 → Prop := Relation.ReflTransGen pool.Edge

/-- Ids, `mapNextTx` and links fit the entries; the links are the pairs in `E`. -/
structure Wired (crypto : Crypto) (pool : CTxMemPool) (E : Uint256 → Uint256 → Prop) : Prop where
  ids : ∀ id e, pool.mapTx.lookup id = some e → e.tx.getHash crypto = id
  next : ∀ o id, pool.mapNextTx.lookup o = some id ↔
    ∃ e, pool.mapTx.lookup id = some e ∧ ∃ txin ∈ e.tx.vin, txin.prevout = o
  links : pool.Linked E E
  edge : ∀ p c, E p c → p ∈ pool.mapTx ∧ pool.Edge p c

variable {crypto : Crypto} {pool : CTxMemPool} {E : Uint256 → Uint256 → Prop}

theorem Edge.mem {p c : Uint256} (h : pool.Edge p c) : c ∈ pool.mapTx := by
  obtain ⟨e, he, -⟩ := h
  exact AList.lookup_isSome.mp (by rw [he]; rfl)

theorem mem_of_lookup {id : Uint256} {e : CTxMemPoolEntry} (h : pool.mapTx.lookup id = some e) :
    id ∈ pool.mapTx :=
  AList.lookup_isSome.mp (by rw [h]; rfl)

theorem exists_lookup_of_mem {id : Uint256} (h : id ∈ pool.mapTx) :
    ∃ e, pool.mapTx.lookup id = some e :=
  Option.isSome_iff_exists.mp (AList.lookup_isSome.mpr h)

theorem Wired.congr {E' : Uint256 → Uint256 → Prop} (h : Wired crypto pool E)
    (hE : ∀ p c, E p c ↔ E' p c) : Wired crypto pool E' :=
  (funext₂ fun p c => propext (hE p c) : E = E') ▸ h

/-- The entries of `pool'` are those of `pool` with a property. -/
def Keeps (pool pool' : CTxMemPool) (Q : Uint256 → Prop) : Prop :=
  ∀ x e, pool'.mapTx.lookup x = some e ↔ pool.mapTx.lookup x = some e ∧ Q x

section

variable {pool' : CTxMemPool} {Q : Uint256 → Prop}

theorem Keeps.mem (h : Keeps pool pool' Q) {x : Uint256} :
    x ∈ pool'.mapTx ↔ x ∈ pool.mapTx ∧ Q x := by
  simp only [← AList.lookup_isSome, Option.isSome_iff_exists, h x, exists_and_right]

theorem Keeps.edge (h : Keeps pool pool' Q) {p c : Uint256} :
    pool'.Edge p c ↔ pool.Edge p c ∧ Q c := by
  simp only [Edge, h c, and_right_comm (b := Q c), exists_and_right]

end

/-! ## Removing entries -/

variable {C P : Uint256 → Uint256 → Prop} {tx : CTransaction}

theorem Linked.severFromParents (h : pool.Linked C P) (stage : List Uint256) :
    (stage.foldl CTxMemPool.severFromParents pool).Linked
      (fun p c => C p c ∧ ¬ (c ∈ stage ∧ P p c)) P := by
  induction stage generalizing pool C with
  | nil => exact h.congr (fun p c => by simp) fun _ _ => Iff.rfl
  | cons it stage ih =>
    have hstep := h.foldl_updateChild it false (pool.getMemPoolParents it)
    refine (ih hstep).congr (fun p c => ?_) fun _ _ => Iff.rfl
    by_cases hc : c = it
    · subst hc
      have hmem := h.parents p c
      by_cases hp : P p c
      · simp [hmem.mpr hp, hp]
      · simp [mt hmem.mp hp, hp]
    · simp [hc]

theorem Linked.updateChildrenForRemoval (h : pool.Linked C P) (stage : List Uint256) :
    (stage.foldl CTxMemPool.updateChildrenForRemoval pool).Linked C
      (fun p c => P p c ∧ ¬ (p ∈ stage ∧ C p c)) := by
  induction stage generalizing pool P with
  | nil => exact h.congr (fun _ _ => Iff.rfl) fun p c => by simp
  | cons it stage ih =>
    have hstep := h.foldl_updateParent it false (pool.getMemPoolChildren it)
    refine (ih hstep).congr (fun _ _ => Iff.rfl) fun p c => ?_
    by_cases hp : p = it
    · subst hp
      have hmem := h.children p c
      by_cases hc : C p c
      · simp [hmem.mpr hc, hc]
      · simp [mt hmem.mp hc, hc]
    · simp [hp]

theorem lookup_foldl_erase {m : AList fun _ : COutPoint => Uint256} (vin : List CTxIn) (o : COutPoint) :
    (vin.foldl (fun m txin => m.erase txin.prevout) m).lookup o =
      if ∃ txin ∈ vin, txin.prevout = o then none else m.lookup o := by
  induction vin generalizing m with
  | nil => simp
  | cons txin vin ih =>
    rw [List.foldl_cons, ih]
    by_cases ho : txin.prevout = o
    · subst ho
      simp [AList.lookup_erase]
    · rw [AList.lookup_erase_ne (Ne.symm ho)]
      simp [ho]

theorem keeps_removeUnchecked (it : Uint256) : Keeps pool (pool.removeUnchecked it) (· ≠ it) := by
  intro x e
  unfold removeUnchecked
  split
  · next hnone =>
    refine (and_iff_left_of_imp ?_).symm
    rintro he rfl
    cases hnone.symm.trans he
  · by_cases hx : x = it
    · subst hx
      simp [AList.lookup_erase]
    · simp [hx, AList.lookup_erase_ne hx]

/-- `mapNextTx` names for every outpoint the entry that spends it. -/
def NextOk (pool : CTxMemPool) : Prop :=
  ∀ o id, pool.mapNextTx.lookup o = some id ↔
    ∃ e, pool.mapTx.lookup id = some e ∧ ∃ txin ∈ e.tx.vin, txin.prevout = o

theorem NextOk.removeUnchecked (h : pool.NextOk) (it : Uint256) : (pool.removeUnchecked it).NextOk := by
  cases hit : pool.mapTx.lookup it with
  | none =>
    have hsame : pool.removeUnchecked it = pool := by simp [CTxMemPool.removeUnchecked, hit]
    rw [hsame]
    exact h
  | some entry =>
    intro o id
    have hnext : (pool.removeUnchecked it).mapNextTx =
        entry.tx.vin.foldl (fun m txin => m.erase txin.prevout) pool.mapNextTx := by
      simp [CTxMemPool.removeUnchecked, hit]
    rw [hnext, lookup_foldl_erase]
    simp only [keeps_removeUnchecked it id]
    split_ifs with hspent
    · -- Only one entry spends the outpoint.
      refine iff_of_false (by simp) ?_
      rintro ⟨e, ⟨he, hid⟩, hin⟩
      exact hid (Option.some.inj (((h o id).mpr ⟨e, he, hin⟩).symm.trans
        ((h o it).mpr ⟨entry, hit, hspent⟩)))
    · rw [h o id]
      refine exists_congr fun e => ⟨fun ⟨he, hin⟩ => ⟨⟨he, ?_⟩, hin⟩, fun ⟨he, hin⟩ => ⟨he.1, hin⟩⟩
      rintro rfl
      exact hspent (Option.some.inj (hit.symm.trans he) ▸ hin)

theorem Linked.removeUnchecked (h : pool.Linked C P) {it : Uint256} (hit : it ∈ pool.mapTx) :
    (pool.removeUnchecked it).Linked (fun p c => p ≠ it ∧ C p c) fun p c => c ≠ it ∧ P p c := by
  obtain ⟨entry, he⟩ := exists_lookup_of_mem hit
  have hlinks : ∀ x, (pool.removeUnchecked it).links x = if x = it then {} else pool.links x := by
    intro x
    simp only [CTxMemPool.removeUnchecked, he, CTxMemPool.links]
    split_ifs with hx
    · rw [hx, AList.lookup_erase, Option.getD_none]
    · rw [AList.lookup_erase_ne hx]
  constructor
  · intro p c
    rw [getMemPoolChildren, hlinks]
    split_ifs with hp
    · simp [hp]
    · rw [← getMemPoolChildren, h.children]
      exact (and_iff_right hp).symm
  · intro p c
    rw [getMemPoolParents, hlinks]
    split_ifs with hc
    · simp [hc]
    · rw [← getMemPoolParents, h.parents]
      exact (and_iff_right hc).symm

theorem foldl_removeUnchecked {stage : List Uint256} (hlinks : pool.Linked C P)
    (hnodup : stage.Nodup) (hmem : ∀ x ∈ stage, x ∈ pool.mapTx) (hnext : pool.NextOk) :
    Keeps pool (stage.foldl CTxMemPool.removeUnchecked pool) (· ∉ stage) ∧
    (stage.foldl CTxMemPool.removeUnchecked pool).Linked (fun p c => p ∉ stage ∧ C p c)
      (fun p c => c ∉ stage ∧ P p c) ∧
    (stage.foldl CTxMemPool.removeUnchecked pool).NextOk := by
  induction stage generalizing pool C P with
  | nil => exact ⟨fun x e => by simp, hlinks.congr (by simp) (by simp), hnext⟩
  | cons it stage ih =>
    rw [List.forall_mem_cons] at hmem
    obtain ⟨hit, hnodup⟩ := List.nodup_cons.mp hnodup
    obtain ⟨hkeeps, hlinked, hnext'⟩ := ih (hlinks.removeUnchecked hmem.1) hnodup
      (fun x hx => (keeps_removeUnchecked it).mem.mpr ⟨hmem.2 x hx, fun h => hit (h ▸ hx)⟩)
      (hnext.removeUnchecked it)
    refine ⟨fun x e => ?_, hlinked.congr (fun p c => ?_) (fun p c => ?_), hnext'⟩
    · rw [List.foldl_cons, hkeeps, keeps_removeUnchecked it]
      simp only [List.mem_cons]
      tauto
    · rw [List.mem_cons]
      tauto
    · rw [List.mem_cons]
      tauto

/-- Removing entries, in whatever order, leaves the others with their links. -/
theorem Wired.removeStaged (h : Wired crypto pool E) {stage : List Uint256} (hnodup : stage.Nodup)
    (hmem : ∀ x ∈ stage, x ∈ pool.mapTx) :
    Keeps pool (pool.removeStaged stage) (· ∉ stage) ∧
    Wired crypto (pool.removeStaged stage) fun p c => E p c ∧ p ∉ stage ∧ c ∉ stage := by
  have hlinks := (h.links.severFromParents stage).updateChildrenForRemoval stage
  have htxs := (txs_foldl _ txs_updateChildrenForRemoval (stage.foldl severFromParents pool) stage).trans
    (txs_foldl _ txs_severFromParents pool stage)
  obtain ⟨htx, hnext⟩ := Prod.mk.inj htxs
  have hnext₀ := h.next
  rw [← htx, ← hnext] at hnext₀
  rw [← htx] at hmem
  obtain ⟨hkeeps, hlinked, hnext'⟩ := foldl_removeUnchecked hlinks hnodup hmem hnext₀
  rw [Keeps, htx] at hkeeps
  refine ⟨hkeeps, fun id e he => h.ids id e ((hkeeps id e).mp he).1, hnext',
    hlinked.congr (fun p c => ?_) (fun p c => ?_), fun p c ⟨hE, hp, hc⟩ => ?_⟩
  · tauto
  · tauto
  · obtain ⟨hpool, hedge⟩ := h.edge p c hE
    exact ⟨Keeps.mem hkeeps |>.mpr ⟨hpool, hp⟩, Keeps.edge hkeeps |>.mpr ⟨hedge, hc⟩⟩

/-! ## Removing an entry with its descendants -/

theorem Wired.mem_calculateDescendants (h : Wired crypto pool E) {roots : List Uint256}
    (hroots : ∀ a ∈ roots, a ∈ pool.mapTx) :
    (pool.calculateDescendants roots).Nodup ∧
      (∀ x ∈ pool.calculateDescendants roots, x ∈ pool.mapTx) ∧
      ∀ x, x ∈ pool.calculateDescendants roots ↔ ∃ a ∈ roots, Relation.ReflTransGen E a x := by
  have hkeys : ∀ x, x ∈ pool.mapTx.keys.toFinset ↔ x ∈ pool.mapTx := fun x => by
    rw [List.mem_toFinset, AList.mem_keys]
  have hcard : pool.mapTx.keys.toFinset.card = pool.mapTx.entries.length := by
    rw [List.toFinset_card_of_nodup pool.mapTx.keys_nodup, AList.keys, List.keys, List.length_map]
  have hrel : (fun a b => b ∈ pool.getMemPoolChildren a) = E :=
    funext₂ fun a b => propext (h.links.children a b)
  obtain ⟨hclosed, hiff⟩ := Worklist.mem_searchAll
    (fun a _ b hb => (hkeys b).mpr (h.edge a b ((h.links.children a b).mp hb)).2.mem)
    (fun a ha => (hkeys a).mpr (hroots a ha)) hcard.le
    (Worklist.closed_nil pool.getMemPoolChildren pool.mapTx.keys.toFinset)
  refine ⟨hclosed.seen_nodup, fun x hx => (hkeys x).mp (hclosed.seen_mem x hx), fun x => ?_⟩
  rw [calculateDescendants, hiff, Worklist.Reaches, hrel]
  simp

theorem Reaches.mem {a x : Uint256} (h : pool.Reaches a x) : x = a ∨ x ∈ pool.mapTx := by
  rcases h.cases_tail with rfl | ⟨b, -, hedge⟩
  · exact .inl rfl
  · exact .inr hedge.mem

theorem Wired.mem_txToRemove (h : Wired crypto pool E) {a : Uint256}
    (ha : a ∈ pool.txToRemove crypto tx) : a ∈ pool.mapTx ∧ pool.Reaches (tx.getHash crypto) a := by
  simp only [txToRemove] at ha
  split_ifs at ha with hmem
  · obtain rfl := List.mem_singleton.mp ha
    exact ⟨hmem, .refl⟩
  · obtain ⟨i, -, hi⟩ := List.mem_filterMap.mp ha
    obtain ⟨e, he, txin, hin, hprev⟩ := (h.next _ a).mp hi
    exact ⟨mem_of_lookup he, .single ⟨e, he, txin, hin, by rw [hprev]⟩⟩

/-- An entry that spends an output the transaction has is found through `mapNextTx`. -/
theorem Wired.mem_txToRemove_of_edge (h : Wired crypto pool E) {c : Uint256}
    (hmem : tx.getHash crypto ∉ pool.mapTx)
    (hrange : ∀ e, pool.mapTx.lookup c = some e → ∀ txin ∈ e.tx.vin,
      txin.prevout.hash = tx.getHash crypto → txin.prevout.n.toNat < tx.vout.length)
    (hc : pool.Edge (tx.getHash crypto) c) : c ∈ pool.txToRemove crypto tx := by
  obtain ⟨e, he, txin, hin, hprev⟩ := hc
  rw [txToRemove, if_neg hmem, List.mem_filterMap]
  refine ⟨txin.prevout.n.toNat, List.mem_range.mpr (hrange e he txin hin hprev), ?_⟩
  rw [h.next]
  refine ⟨e, he, txin, hin, ?_⟩
  rw [UInt32.ofNat_toNat, ← hprev]

/-- A transaction removed with everything that depends on it.  It is enough that the links are
complete on what depends on it. -/
theorem Wired.removeRecursive (h : Wired crypto pool E)
    (hlinks : ∀ p c, p ∈ pool.mapTx → pool.Reaches (tx.getHash crypto) p → pool.Edge p c → E p c)
    (hrange : tx.getHash crypto ∉ pool.mapTx → ∀ c e, pool.mapTx.lookup c = some e →
      ∀ txin ∈ e.tx.vin, txin.prevout.hash = tx.getHash crypto →
        txin.prevout.n.toNat < tx.vout.length) :
    Keeps pool (pool.removeRecursive crypto tx) (¬ pool.Reaches (tx.getHash crypto) ·) ∧
    Wired crypto (pool.removeRecursive crypto tx) fun p c => E p c ∧
      p ∈ (pool.removeRecursive crypto tx).mapTx ∧ c ∈ (pool.removeRecursive crypto tx).mapTx := by
  obtain ⟨hnodup, hmem, hdesc⟩ := h.mem_calculateDescendants fun a ha => (h.mem_txToRemove ha).1
  -- The first step away from the transaction starts the search, the others follow links.
  have hchild : ∀ c, pool.Edge (tx.getHash crypto) c →
      ∃ a ∈ pool.txToRemove crypto tx, Relation.ReflTransGen E a c := by
    intro c hc
    by_cases hpool : tx.getHash crypto ∈ pool.mapTx
    · refine ⟨_, ?_, .single (hlinks _ c hpool .refl hc)⟩
      rw [txToRemove, if_pos hpool]
      exact List.mem_singleton_self _
    · exact ⟨c, h.mem_txToRemove_of_edge hpool (hrange hpool c) hc, .refl⟩
  have hreach : ∀ x, pool.Reaches (tx.getHash crypto) x → x = tx.getHash crypto ∨
      ∃ a ∈ pool.txToRemove crypto tx, Relation.ReflTransGen E a x := by
    intro x hx
    induction hx with
    | refl => exact .inl rfl
    | tail hb hc ih =>
      rcases ih with rfl | ⟨a, ha, hab⟩
      · exact .inr (hchild _ hc)
      · have hbmem : _ ∈ pool.mapTx := hmem _ ((hdesc _).mpr ⟨a, ha, hab⟩)
        exact .inr ⟨a, ha, hab.tail (hlinks _ _ hbmem hb hc)⟩
  have hiff : ∀ x ∈ pool.mapTx, x ∈ pool.calculateDescendants (pool.txToRemove crypto tx) ↔
      pool.Reaches (tx.getHash crypto) x := by
    intro x hx
    rw [hdesc]
    constructor
    · rintro ⟨a, ha, hax⟩
      exact (h.mem_txToRemove ha).2.trans
        (Relation.ReflTransGen.mono (fun p c hpc => (h.edge p c hpc).2) _ _ hax)
    · intro hreach'
      rcases hreach x hreach' with rfl | hex
      · refine ⟨tx.getHash crypto, ?_, .refl⟩
        rw [txToRemove, if_pos hx]
        exact List.mem_singleton_self _
      · exact hex
  obtain ⟨hkeeps, hwired⟩ := h.removeStaged hnodup hmem
  refine ⟨fun x e => (hkeeps x e).trans (and_congr_right fun he => not_congr (hiff x (mem_of_lookup he))),
    hwired.congr fun p c => and_congr_right fun hE => ?_⟩
  obtain ⟨hp, hc⟩ := h.edge p c hE
  rw [CTxMemPool.removeRecursive, hkeeps.mem, hkeeps.mem, and_iff_right hp, and_iff_right hc.mem]

/-! ## Adding an entry -/

theorem lookup_insertNew {κ ν : Type} [DecidableEq κ] (m : AList fun _ : κ => ν) (k x : κ) (v : ν) :
    (insertNew m k v).lookup x = if x = k ∧ k ∉ m then some v else m.lookup x := by
  unfold insertNew
  by_cases hk : k ∈ m
  · simp [hk]
  · by_cases hx : x = k
    · subst hx
      simp [hk]
    · simp [hk, hx, AList.lookup_insert_ne hx]

theorem lookup_foldl_insertNew {m : AList fun _ : COutPoint => Uint256} {hash : Uint256}
    {vin : List CTxIn} (hfree : ∀ txin ∈ vin, txin.prevout ∉ m) (o : COutPoint) :
    (vin.foldl (fun m txin => insertNew m txin.prevout hash) m).lookup o =
      if ∃ txin ∈ vin, txin.prevout = o then some hash else m.lookup o := by
  have hgen : ∀ (vin : List CTxIn) (m : AList fun _ : COutPoint => Uint256),
      (vin.foldl (fun m txin => insertNew m txin.prevout hash) m).lookup o =
        if o ∉ m ∧ ∃ txin ∈ vin, txin.prevout = o then some hash else m.lookup o := by
    intro vin
    induction vin with
    | nil => simp
    | cons txin vin ih =>
      intro m
      have hmem : o ∈ insertNew m txin.prevout hash ↔ o = txin.prevout ∨ o ∈ m := by
        rw [← AList.lookup_isSome, lookup_insertNew]
        by_cases ho : o = txin.prevout
        · subst ho
          by_cases hm : txin.prevout ∈ m <;> simp [hm, AList.lookup_isSome]
        · simp [ho, AList.lookup_isSome]
      rw [List.foldl_cons, ih, lookup_insertNew]
      by_cases ho : o = txin.prevout
      · subst ho
        by_cases hm : txin.prevout ∈ m <;> simp [hmem, hm]
      · have ho' : ¬ txin.prevout = o := Ne.symm ho
        simp [hmem, ho, ho']
  rw [hgen]
  by_cases hin : ∃ txin ∈ vin, txin.prevout = o
  · obtain ⟨txin, htxin, rfl⟩ := hin
    rw [if_pos ⟨hfree txin htxin, txin, htxin, rfl⟩, if_pos ⟨txin, htxin, rfl⟩]
  · rw [if_neg fun h => hin h.2, if_neg hin]

/-- Parents added to an entry, as far as they are in the pool. -/
theorem Linked.addParents (h : pool.Linked C P) (hash : Uint256) (hashes : List Uint256) :
    (hashes.foldl (fun pool phash =>
        if phash ∈ pool.mapTx then pool.updateParent hash phash true else pool) pool).Linked C
      (fun p c => P p c ∨ (c = hash ∧ p ∈ hashes ∧ p ∈ pool.mapTx)) ∧
    (hashes.foldl (fun pool phash =>
        if phash ∈ pool.mapTx then pool.updateParent hash phash true else pool) pool).txs = pool.txs := by
  induction hashes generalizing pool P with
  | nil => exact ⟨h.congr (fun _ _ => Iff.rfl) fun p c => by simp, rfl⟩
  | cons phash hashes ih =>
    rw [List.foldl_cons]
    by_cases hmem : phash ∈ pool.mapTx
    · rw [if_pos hmem]
      obtain ⟨hlinked, htxs⟩ := ih (h.updateParent hash phash true)
      refine ⟨hlinked.congr (fun _ _ => Iff.rfl) fun p c => ?_, htxs⟩
      have hpool : p ∈ (pool.updateParent hash phash true).mapTx ↔ p ∈ pool.mapTx := Iff.rfl
      by_cases hp : p = phash
      · subst hp
        by_cases hc : c = hash <;> simp [hc, hmem]
      · simp [hp, hpool]
    · rw [if_neg hmem]
      obtain ⟨hlinked, htxs⟩ := ih h
      refine ⟨hlinked.congr (fun _ _ => Iff.rfl) fun p c => ?_, htxs⟩
      by_cases hp : p = phash
      · subst hp
        simp [hmem]
      · simp [hp]

/-- The entries of `pool'` are those of `pool` and a new one. -/
def Adds (pool pool' : CTxMemPool) (hash : Uint256) (entry : CTxMemPoolEntry) : Prop :=
  ∀ x, pool'.mapTx.lookup x = if x = hash then some entry else pool.mapTx.lookup x

section

variable {pool' : CTxMemPool} {hash c : Uint256} {entry e : CTxMemPoolEntry}
  (h : Adds pool pool' hash entry)

include h

theorem Adds.mem : c ∈ pool'.mapTx ↔ c = hash ∨ c ∈ pool.mapTx := by
  rw [← AList.lookup_isSome, h]
  by_cases hc : c = hash <;> simp [hc, AList.lookup_isSome]

theorem Adds.lookup_self : pool'.mapTx.lookup hash = some entry := by rw [h, if_pos rfl]

theorem Adds.lookup_old (hnew : hash ∉ pool.mapTx) (he : pool.mapTx.lookup c = some e) :
    pool'.mapTx.lookup c = some e := by
  rw [h, if_neg fun heq : c = hash => hnew (heq ▸ mem_of_lookup he), he]

theorem Adds.cases (he : pool'.mapTx.lookup c = some e) :
    (c = hash ∧ e = entry) ∨ (c ≠ hash ∧ pool.mapTx.lookup c = some e) := by
  rw [h] at he
  split_ifs at he with hc
  · exact .inl ⟨hc, (Option.some.inj he).symm⟩
  · exact .inr ⟨hc, he⟩

end

/-- A new entry that nothing in the pool conflicts with is linked to its parents; entries that spend
it are not linked to it. -/
theorem Wired.addUnchecked (h : Wired crypto pool E) (entry : CTxMemPoolEntry) {hash : Uint256}
    (hid : entry.tx.getHash crypto = hash) (hnew : hash ∉ pool.mapTx)
    (hfree : ∀ txin ∈ entry.tx.vin, txin.prevout ∉ pool.mapNextTx)
    (hself : ∀ txin ∈ entry.tx.vin, txin.prevout.hash ≠ hash) :
    Adds pool (pool.addUnchecked hash entry) hash entry ∧
    Wired crypto (pool.addUnchecked hash entry) fun p c => E p c ∨
      (c = hash ∧ p ∈ pool.mapTx ∧ ∃ txin ∈ entry.tx.vin, txin.prevout.hash = p) := by
  set pool₁ : CTxMemPool :=
    { mapTx := insertNew pool.mapTx hash entry
      mapNextTx := entry.tx.vin.foldl (fun m txin => insertNew m txin.prevout hash) pool.mapNextTx
      mapLinks := insertNew pool.mapLinks hash {} } with hpool₁
  set hashes := entry.tx.vin.map fun txin => txin.prevout.hash with hhashes
  have hadds₁ : Adds pool pool₁ hash entry := fun x => by simp [hpool₁, lookup_insertNew, hnew]
  have hlinks : ∀ x, pool₁.links x = pool.links x := by
    intro x
    rw [hpool₁, CTxMemPool.links, lookup_insertNew]
    split_ifs with hx
    · rw [CTxMemPool.links, hx.1, AList.lookup_eq_none.mpr hx.2]
      rfl
    · rfl
  have hlinks₁ : pool₁.Linked E E := by
    refine ⟨fun p c => ?_, fun p c => ?_⟩
    · rw [getMemPoolChildren, hlinks]
      exact h.links.children p c
    · rw [getMemPoolParents, hlinks]
      exact h.links.parents p c
  obtain ⟨hlinks₂, htxs₂⟩ := hlinks₁.addParents hash hashes
  set pool₂ := hashes.foldl (fun pool phash =>
    if phash ∈ pool.mapTx then pool.updateParent hash phash true else pool) pool₁
  have hlinks₃ := hlinks₂.foldl_updateChild hash true (pool₂.getMemPoolParents hash)
  have htxs₃ : (pool.addUnchecked hash entry).txs = pool₁.txs :=
    (txs_foldl (fun pool piter => pool.updateChild piter hash true) (fun _ _ => rfl) _ _).trans htxs₂
  obtain ⟨htx, hnext⟩ := Prod.mk.inj htxs₃
  have hadds : Adds pool (pool.addUnchecked hash entry) hash entry := by rwa [Adds, htx]
  have hparent : ∀ p, p ∈ hashes ∧ p ∈ pool₁.mapTx ↔
      p ∈ pool.mapTx ∧ ∃ txin ∈ entry.tx.vin, txin.prevout.hash = p := by
    intro p
    rw [hhashes, List.mem_map, and_comm, hadds₁.mem]
    refine and_congr_left fun hin => or_iff_right ?_
    obtain ⟨txin, htxin, hp⟩ := hin
    exact fun heq => hself txin htxin (hp.trans heq)
  refine ⟨hadds, fun id e he => ?_, fun o id => ?_, hlinks₃.congr (fun p c => ?_) (fun p c => ?_),
    fun p c hE => ?_⟩
  · rcases hadds.cases he with ⟨rfl, rfl⟩ | ⟨-, he⟩
    · exact hid
    · exact h.ids id e he
  · rw [hnext, hpool₁, lookup_foldl_insertNew hfree]
    split_ifs with hspent
    · constructor
      · rintro ⟨⟩
        exact ⟨entry, hadds.lookup_self, hspent⟩
      · rintro ⟨e, he, hin⟩
        rcases hadds.cases he with ⟨rfl, -⟩ | ⟨-, he⟩
        · rfl
        · obtain ⟨txin, htxin, rfl⟩ := hspent
          have hsome := (h.next _ id).mpr ⟨e, he, hin⟩
          exact absurd (AList.lookup_isSome.mp (by rw [hsome]; rfl)) (hfree txin htxin)
    · rw [h.next]
      refine exists_congr fun e => and_congr_left fun hin => ⟨hadds.lookup_old hnew, fun he => ?_⟩
      rcases hadds.cases he with ⟨-, rfl⟩ | ⟨-, he⟩
      · exact absurd hin hspent
      · exact he
  · by_cases hc : c = hash
    · subst hc
      have hnoparent : ¬ E p c := fun hE => hnew (h.edge p c hE).2.mem
      have hmem := (hlinks₂.parents p c).trans (or_iff_right hnoparent)
      simp only [true_and] at hmem
      rw [hparent] at hmem
      by_cases hp : p ∈ pool₂.getMemPoolParents c
      · simp [hp, hmem.mp hp]
      · simp [hp, hnoparent, mt hmem.mpr hp]
    · simp [hc]
  · rw [hparent]
  · rcases hE with hE | ⟨rfl, hp, hin⟩
    · obtain ⟨hp, e, he, hin⟩ := h.edge p c hE
      exact ⟨hadds.mem.mpr (.inr hp), e, hadds.lookup_old hnew he, hin⟩
    · exact ⟨hadds.mem.mpr (.inr hp), entry, hadds.lookup_self, hin⟩

/-! ## Links after a block -/

theorem Wired.mem_spenders (h : Wired crypto pool E) {p c : Uint256} :
    c ∈ pool.spenders p ↔ pool.Edge p c := by
  simp only [spenders, List.mem_map, List.mem_filter, decide_eq_true_eq]
  constructor
  · rintro ⟨⟨o, id⟩, ⟨hmem, rfl⟩, rfl⟩
    obtain ⟨e, he, txin, hin, rfl⟩ := (h.next o id).mp (AList.mem_lookup_iff.mpr hmem)
    exact ⟨e, he, txin, hin, rfl⟩
  · rintro ⟨e, he, txin, hin, rfl⟩
    have hsome := (h.next txin.prevout c).mpr ⟨e, he, txin, hin, rfl⟩
    exact ⟨⟨txin.prevout, c⟩, ⟨AList.mem_lookup_iff.mp hsome, rfl⟩, rfl⟩

theorem Linked.foldl_adopt (h : pool.Linked C P) (hash : Uint256) (block children : List Uint256) :
    (children.foldl (fun pool childHash =>
        if childHash ∈ block then pool
        else (pool.updateChild hash childHash true).updateParent childHash hash true) pool).Linked
      (fun p c => C p c ∨ (p = hash ∧ c ∈ children ∧ c ∉ block))
      fun p c => P p c ∨ (p = hash ∧ c ∈ children ∧ c ∉ block) := by
  induction children generalizing pool C P with
  | nil => exact h.congr (fun p c => by simp) fun p c => by simp
  | cons child children ih =>
    rw [List.foldl_cons]
    by_cases hblock : child ∈ block
    · rw [if_pos hblock]
      refine (ih h).congr (fun p c => ?_) fun p c => ?_ <;>
      · by_cases hc : c = child
        · subst hc
          simp [hblock]
        · simp [hc]
    · rw [if_neg hblock]
      refine (ih ((h.updateChild hash child true).updateParent child hash true)).congr
        (fun p c => ?_) fun p c => ?_ <;>
      · by_cases hc : c = child
        · subst hc
          by_cases hp : p = hash <;> simp [hp, hblock]
        · simp [hc]

theorem txs_adopt (pool : CTxMemPool) (block : List Uint256) (hash : Uint256) :
    (adopt block hash pool).txs = pool.txs := by
  unfold adopt
  split_ifs
  · refine txs_foldl _ (fun pool c => ?_) _ _
    split_ifs <;> rfl
  · rfl

theorem txs_updateTransactionsFromBlock (pool : CTxMemPool) (block hashes : List Uint256) :
    (hashes.foldr (adopt block) pool).txs = pool.txs := by
  induction hashes with
  | nil => rfl
  | cons hash hashes ih => rw [List.foldr_cons, txs_adopt, ih]

theorem Wired.foldr_adopt (h : Wired crypto pool E) (block hashes : List Uint256) :
    (hashes.foldr (adopt block) pool).Linked
      (fun p c => E p c ∨ (p ∈ hashes ∧ p ∈ pool.mapTx ∧ c ∉ block ∧ pool.Edge p c))
      fun p c => E p c ∨ (p ∈ hashes ∧ p ∈ pool.mapTx ∧ c ∉ block ∧ pool.Edge p c) := by
  induction hashes with
  | nil => exact h.links.congr (by simp) (by simp)
  | cons hash hashes ih =>
    obtain ⟨htx, hnext⟩ := Prod.mk.inj (txs_updateTransactionsFromBlock pool block hashes)
    have hspenders : ∀ c, c ∈ (hashes.foldr (adopt block) pool).spenders hash ↔ pool.Edge hash c := by
      intro c
      rw [← h.mem_spenders, spenders, hnext, spenders]
    rw [List.foldr_cons, adopt]
    by_cases hmem : hash ∈ pool.mapTx
    · rw [if_pos (htx ▸ hmem)]
      refine (ih.foldl_adopt hash block _).congr (fun p c => ?_) fun p c => ?_ <;>
      · by_cases hp : p = hash
        · subst hp
          simp only [hspenders, List.mem_cons]
          tauto
        · simp [hp]
    · rw [if_neg (htx ▸ hmem)]
      refine ih.congr (fun p c => ?_) fun p c => ?_ <;>
      · by_cases hp : p = hash
        · subst hp
          simp [hmem]
        · simp [hp]

/-- `UpdateTransactionsFromBlock` links the entries that came back to entries that spend them. -/
theorem Wired.updateTransactionsFromBlock (h : Wired crypto pool E) (block : List Uint256) :
    (pool.updateTransactionsFromBlock block).mapTx = pool.mapTx ∧
    Wired crypto (pool.updateTransactionsFromBlock block) fun p c => E p c ∨
      (p ∈ block ∧ p ∈ pool.mapTx ∧ c ∉ block ∧ pool.Edge p c) := by
  obtain ⟨htx, hnext⟩ := Prod.mk.inj (txs_updateTransactionsFromBlock pool block block)
  have htx' : (pool.updateTransactionsFromBlock block).mapTx = pool.mapTx := htx
  have hnext' : (pool.updateTransactionsFromBlock block).mapNextTx = pool.mapNextTx := hnext
  refine ⟨htx, fun id e he => h.ids id e (htx' ▸ he), fun o id => ?_, h.foldr_adopt block block,
    fun p c hE => ?_⟩
  · rw [htx', hnext']
    exact h.next o id
  · rw [Edge, htx', ← Edge]
    rcases hE with hE | ⟨-, hp, -, hE⟩
    · exact h.edge p c hE
    · exact ⟨hp, hE⟩

end CTxMemPool

end X2XCoin
