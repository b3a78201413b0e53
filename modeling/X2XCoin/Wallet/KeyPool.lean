import X2XCoin.Lib.Run

/-!
# The key pool

`TopUpKeyPool`, `ReserveKeyFromKeyPool`, `KeepKey`, `ReturnKey` and `GetKeyFromPool` of the wallet.
The set of indices is kept in memory, the records in the database.  A new index is the largest one
of
the set plus one, so an index that is reserved can be given again.
-/

namespace X2XCoin

namespace KeyPool

variable {K : Type} [DecidableEq K]

/-! ## The functions of the wallet -/

/-- The argument of the node and the generator of keys. -/
structure Config (K : Type) where
  /-- The option keypool, not below zero. -/
  keypool : ℕ
  generateNewKey : Finset K → K
  generateNewKey_notMem : ∀ keys, generateNewKey keys ∉ keys

/-- What the key pool consists of. -/
structure Pool (K : Type) where
  setKeyPool : Finset ℕ
  /-- The pool records of the database. -/
  records : ℕ → Option K
  /-- The keys of the key store. -/
  keys : Finset K
  locked : Bool

inductive Failure where
  | readFailed
  | unknownKey
  deriving DecidableEq

variable (config : Config K)

/-- The next index. -/
def nEnd (setKeyPool : Finset ℕ) : ℕ :=
  if h : setKeyPool.Nonempty then setKeyPool.max' h + 1 else 1

/-- One turn of the loop of `TopUpKeyPool`. -/
def addKey (pool : Pool K) : Pool K :=
  let key := config.generateNewKey pool.keys
  { pool with
    setKeyPool := insert (nEnd pool.setKeyPool) pool.setKeyPool
    records := Function.update pool.records (nEnd pool.setKeyPool) (some key)
    keys := insert key pool.keys }

/-- The loop of `TopUpKeyPool`, with a bound on its turns. -/
def topUpLoop (size : ℕ) : ℕ → Pool K → Pool K
  | 0, pool => pool
  | turns + 1, pool =>
    if pool.setKeyPool.card < size then topUpLoop size turns (addKey config pool) else pool

/-- The size up to which the pool is filled; the sum is one of 32 bits. -/
def topUpSize (kpSize : UInt32) : ℕ :=
  ((if 0 < kpSize then kpSize else UInt32.ofNat config.keypool) + 1).toNat

/-- `TopUpKeyPool`; a turn adds an index, so the size bounds the turns. -/
def topUpKeyPool (pool : Pool K) (kpSize : UInt32) : Pool K :=
  if pool.locked then pool else topUpLoop config (topUpSize config kpSize) (topUpSize config kpSize) pool

/-- `ReserveKeyFromKeyPool`; an exception leaves the index out of the set. -/
def reserveKeyFromKeyPool (pool : Pool K) : Pool K × Except Failure (Option (ℕ × K)) :=
  let pool := topUpKeyPool config pool 0
  if h : pool.setKeyPool.Nonempty then
    let nIndex := pool.setKeyPool.min' h
    let pool := { pool with setKeyPool := pool.setKeyPool.erase nIndex }
    match pool.records nIndex with
    | none => (pool, .error .readFailed)
    | some key => (pool, if key ∈ pool.keys then .ok (some (nIndex, key)) else .error .unknownKey)
  else (pool, .ok none)

def keepKey (pool : Pool K) (nIndex : ℕ) : Pool K :=
  { pool with records := Function.update pool.records nIndex none }

def returnKey (pool : Pool K) (nIndex : ℕ) : Pool K :=
  { pool with setKeyPool := insert nIndex pool.setKeyPool }

/-! ## Reservations -/

/-- The pool and what has become of its reservations. -/
structure Session (K : Type) where
  pool : Pool K
  /-- The reservations that are neither kept nor returned. -/
  outstanding : List (ℕ × K) := []
  /-- The public keys of kept reservations. -/
  kept : List K := []
  failures : List Failure := []

inductive Op where
  | topUpKeyPool (kpSize : UInt32)
  | reserveKeyFromKeyPool
  /-- Keep the outstanding reservation at the position. -/
  | keepKey (n : ℕ)
  /-- Return the outstanding reservation at the position. -/
  | returnKey (n : ℕ)
  | getKeyFromPool
  | lock
  | unlock
  deriving DecidableEq

/-- Carry out one call; a reservation that is none any more is neither kept nor returned. -/
def step (s : Session K) : Op → Session K
  | .topUpKeyPool kpSize => { s with pool := topUpKeyPool config s.pool kpSize }
  | .reserveKeyFromKeyPool =>
    match reserveKeyFromKeyPool config s.pool with
    | (pool, .ok none) => { s with pool }
    | (pool, .ok (some r)) => { s with pool, outstanding := r :: s.outstanding }
    | (pool, .error e) => { s with pool, failures := e :: s.failures }
  | .keepKey n =>
    match s.outstanding[n]? with
    | none => s
    | some (nIndex, key) =>
      { s with
        pool := keepKey s.pool nIndex
        outstanding := s.outstanding.eraseIdx n
        kept := key :: s.kept }
  | .returnKey n =>
    match s.outstanding[n]? with
    | none => s
    | some (nIndex, _) =>
      { s with pool := returnKey s.pool nIndex, outstanding := s.outstanding.eraseIdx n }
  | .getKeyFromPool =>
    match reserveKeyFromKeyPool config s.pool with
    -- Without an index a new key is generated, unless the wallet is locked.
    | (pool, .ok none) =>
      if pool.locked then { s with pool }
      else { s with pool := { pool with keys := insert (config.generateNewKey pool.keys) pool.keys } }
    | (pool, .ok (some (nIndex, key))) =>
      { s with pool := keepKey pool nIndex, kept := key :: s.kept }
    | (pool, .error e) => { s with pool, failures := e :: s.failures }
  | .lock => { s with pool := { s.pool with locked := true } }
  | .unlock => { s with pool := { s.pool with locked := false } }

/-! ## What the functions do -/

theorem lt_nEnd {setKeyPool : Finset ℕ} {i : ℕ} (hi : i ∈ setKeyPool) : i < nEnd setKeyPool := by
  rw [nEnd, dif_pos ⟨i, hi⟩]
  exact Nat.lt_succ_of_le (Finset.le_max' _ i hi)

theorem subset_topUpLoop (size turns : ℕ) (pool : Pool K) :
    pool.setKeyPool ⊆ (topUpLoop config size turns pool).setKeyPool := by
  induction turns generalizing pool with
  | zero => exact Finset.Subset.refl _
  | succ turns ih =>
    rw [topUpLoop]
    split_ifs
    · exact Finset.Subset.trans (Finset.subset_insert _ _) (ih (addKey config pool))
    · exact Finset.Subset.refl _

/-- A reservation takes an index out of the filled pool, and its record and key must be there. -/
theorem reserveKeyFromKeyPool_cases (pool : Pool K) :
    let filled := topUpKeyPool config pool 0
    (filled.setKeyPool = ∅ ∧ reserveKeyFromKeyPool config pool = (filled, .ok none)) ∨
    ∃ h : filled.setKeyPool.Nonempty,
      let rest := { filled with setKeyPool := filled.setKeyPool.erase (filled.setKeyPool.min' h) }
      (∃ key ∈ filled.keys, filled.records (filled.setKeyPool.min' h) = some key ∧
        reserveKeyFromKeyPool config pool =
          (rest, .ok (some (filled.setKeyPool.min' h, key)))) ∨
      (∀ key ∈ filled.keys, filled.records (filled.setKeyPool.min' h) ≠ some key) ∧
        ∃ e, reserveKeyFromKeyPool config pool = (rest, .error e) := by
  intro filled
  by_cases h : filled.setKeyPool.Nonempty
  · refine .inr ⟨h, ?_⟩
    intro rest
    rw [reserveKeyFromKeyPool, dif_pos h]
    cases hrecord : filled.records (filled.setKeyPool.min' h) with
    | none =>
      refine .inr ⟨fun key _ => (Option.some_ne_none key).symm, .readFailed, ?_⟩
      simp only [filled] at hrecord
      simp only [hrecord]
      rfl
    | some key =>
      simp only [filled] at hrecord
      simp only [hrecord]
      by_cases hkey : key ∈ filled.keys
      · exact .inl ⟨key, hkey, rfl, by rw [if_pos hkey]⟩
      · refine .inr ⟨?_, .unknownKey, by rw [if_neg hkey]⟩
        rintro key' hkey' heq
        exact hkey (Option.some.inj heq ▸ hkey')
  · refine .inl ⟨Finset.not_nonempty_iff_eq_empty.mp h, ?_⟩
    rw [reserveKeyFromKeyPool, dif_neg h]

/-! ## Exclusive reservations -/

/-- The index belongs to the set or to a reservation. -/
def Live (s : Session K) (i : ℕ) : Prop :=
  i ∈ s.pool.setKeyPool ∨ i ∈ s.outstanding.map Prod.fst

/-- Reservations have their own indices and records, and no key is in two places. -/
structure Exclusive (s : Session K) : Prop where
  nodup : (s.outstanding.map Prod.fst).Nodup
  notMem : ∀ r ∈ s.outstanding, r.1 ∉ s.pool.setKeyPool
  recorded : ∀ r ∈ s.outstanding, s.pool.records r.1 = some r.2
  backed : ∀ i, Live s i → ∃ key ∈ s.pool.keys, s.pool.records i = some key
  inj : ∀ i j, Live s i → Live s j → s.pool.records i = s.pool.records j → i = j
  kept_nodup : s.kept.Nodup
  kept_keys : ∀ key ∈ s.kept, key ∈ s.pool.keys ∧ ∀ i, Live s i → s.pool.records i ≠ some key
  failures : s.failures = []

/-- Every index has a record, nothing was thrown and no key was handed out twice. -/
structure Sound (s : Session K) : Prop where
  backed : ∀ i ∈ s.pool.setKeyPool, s.pool.records i ≠ none
  kept_nodup : s.kept.Nodup
  failures : s.failures = []

variable {s : Session K}

omit [DecidableEq K] in
theorem Exclusive.sound (h : Exclusive s) : Sound s where
  backed i hi := by
    obtain ⟨key, -, hkey⟩ := h.backed i (.inl hi)
    rw [hkey]
    exact Option.some_ne_none key
  kept_nodup := h.kept_nodup
  failures := h.failures

namespace Exclusive

variable {config} {s : Session K}

omit [DecidableEq K] in
/-- Indices may change hands between the set and the reservations. -/
theorem of_live {s' : Session K} (h : Exclusive s) (hlive : ∀ i, Live s' i ↔ Live s i)
    (hrecords : s'.pool.records = s.pool.records) (hkeys : s'.pool.keys = s.pool.keys)
    (hkept : s'.kept = s.kept) (hfailures : s'.failures = s.failures)
    (hnodup : (s'.outstanding.map Prod.fst).Nodup)
    (hout : ∀ r ∈ s'.outstanding, r.1 ∉ s'.pool.setKeyPool ∧ s.pool.records r.1 = some r.2) :
    Exclusive s' where
  nodup := hnodup
  notMem r hr := (hout r hr).1
  recorded r hr := by rw [hrecords]; exact (hout r hr).2
  backed i hi := by rw [hkeys, hrecords]; exact h.backed i ((hlive i).mp hi)
  inj i j hi hj := by rw [hrecords]; exact h.inj i j ((hlive i).mp hi) ((hlive j).mp hj)
  kept_nodup := by rw [hkept]; exact h.kept_nodup
  kept_keys key hkey := by
    rw [hkept] at hkey
    rw [hkeys, hrecords]
    exact ⟨(h.kept_keys key hkey).1, fun i hi => (h.kept_keys key hkey).2 i ((hlive i).mp hi)⟩
  failures := hfailures.trans h.failures

theorem addKey (h : Exclusive s) (hfresh : ∀ r ∈ s.outstanding, r.1 ≠ nEnd s.pool.setKeyPool) :
    Exclusive { s with pool := KeyPool.addKey config s.pool } := by
  set s' : Session K := { s with pool := KeyPool.addKey config s.pool } with hs'
  have hnew := config.generateNewKey_notMem s.pool.keys
  have hlive : ∀ i, Live s' i → i = nEnd s.pool.setKeyPool ∨ i ≠ nEnd s.pool.setKeyPool ∧ Live s i := by
    rintro i (hi | hi)
    · rcases Finset.mem_insert.mp hi with rfl | hi
      · exact .inl rfl
      · exact .inr ⟨(lt_nEnd hi).ne, .inl hi⟩
    · obtain ⟨r, hr, rfl⟩ := List.mem_map.mp hi
      exact .inr ⟨hfresh r hr, .inr hi⟩
  have hold : ∀ {i}, i ≠ nEnd s.pool.setKeyPool → s'.pool.records i = s.pool.records i :=
    fun hi => Function.update_of_ne hi _ _
  have hend : s'.pool.records (nEnd s.pool.setKeyPool) = some (config.generateNewKey s.pool.keys) :=
    Function.update_self _ _ _
  have hne : ∀ {i}, Live s i → s.pool.records i ≠ some (config.generateNewKey s.pool.keys) := by
    intro i hi heq
    obtain ⟨key, hkey, hrecord⟩ := h.backed i hi
    exact hnew (Option.some.inj (hrecord.symm.trans heq) ▸ hkey)
  refine ⟨h.nodup, ?_, ?_, ?_, ?_, h.kept_nodup, ?_, h.failures⟩
  · intro r hr hmem
    rcases Finset.mem_insert.mp hmem with heq | hmem
    · exact hfresh r hr heq
    · exact h.notMem r hr hmem
  · intro r hr
    rw [hold (hfresh r hr)]
    exact h.recorded r hr
  · intro i hi
    rcases hlive i hi with rfl | ⟨hi, hlive⟩
    · exact ⟨_, Finset.mem_insert_self _ _, hend⟩
    · obtain ⟨key, hkey, hrecord⟩ := h.backed i hlive
      exact ⟨key, Finset.mem_insert_of_mem hkey, (hold hi).trans hrecord⟩
  · intro i j hi hj heq
    rcases hlive i hi with rfl | ⟨hi, hlivei⟩ <;> rcases hlive j hj with rfl | ⟨hj, hlivej⟩
    · rfl
    · rw [hend, hold hj] at heq
      exact absurd heq.symm (hne hlivej)
    · rw [hend, hold hi] at heq
      exact absurd heq (hne hlivei)
    · rw [hold hi, hold hj] at heq
      exact h.inj i j hlivei hlivej heq
  · intro key hkey
    obtain ⟨hmem, hnot⟩ := h.kept_keys key hkey
    refine ⟨Finset.mem_insert_of_mem hmem, fun i hi => ?_⟩
    rcases hlive i hi with rfl | ⟨hi, hlive⟩
    · rw [hend]
      exact fun heq => hnew (Option.some.inj heq ▸ hmem)
    · rw [hold hi]
      exact hnot i hlive

theorem insert_key (h : Exclusive s) (key : K) :
    Exclusive { s with pool := { s.pool with keys := insert key s.pool.keys } } where
  nodup := h.nodup
  notMem := h.notMem
  recorded := h.recorded
  backed i hi := by
    obtain ⟨key, hkey, hrecord⟩ := h.backed i hi
    exact ⟨key, Finset.mem_insert_of_mem hkey, hrecord⟩
  inj := h.inj
  kept_nodup := h.kept_nodup
  kept_keys key hkey :=
    ⟨Finset.mem_insert_of_mem (h.kept_keys key hkey).1, (h.kept_keys key hkey).2⟩
  failures := h.failures

theorem topUpLoop {size turns : ℕ} (h : Exclusive s)
    (hfresh : ∀ r ∈ s.outstanding, r.1 ∉ (KeyPool.topUpLoop config size turns s.pool).setKeyPool) :
    Exclusive { s with pool := KeyPool.topUpLoop config size turns s.pool } := by
  induction turns generalizing s with
  | zero => exact h
  | succ turns ih =>
    rw [KeyPool.topUpLoop] at hfresh ⊢
    split_ifs at hfresh ⊢ with hsize
    · refine ih (s := { s with pool := KeyPool.addKey config s.pool }) (h.addKey fun r hr heq => ?_) hfresh
      exact hfresh r hr (subset_topUpLoop config size turns _ (heq ▸ Finset.mem_insert_self _ _))
    · exact h

theorem topUpKeyPool {kpSize : UInt32} (h : Exclusive s)
    (hfresh : ∀ r ∈ s.outstanding, r.1 ∉ (KeyPool.topUpKeyPool config s.pool kpSize).setKeyPool) :
    Exclusive { s with pool := KeyPool.topUpKeyPool config s.pool kpSize } := by
  rw [KeyPool.topUpKeyPool] at hfresh ⊢
  split_ifs at hfresh ⊢
  · exact h
  · exact h.topUpLoop hfresh

omit [DecidableEq K] in
theorem reserve (h : Exclusive s) {i : ℕ} {key : K} (hi : i ∈ s.pool.setKeyPool)
    (hrecord : s.pool.records i = some key) :
    Exclusive { s with
      pool := { s.pool with setKeyPool := s.pool.setKeyPool.erase i }
      outstanding := (i, key) :: s.outstanding } := by
  have hnot : i ∉ s.outstanding.map Prod.fst := by
    intro hmem
    obtain ⟨r, hr, rfl⟩ := List.mem_map.mp hmem
    exact h.notMem r hr hi
  refine h.of_live (fun j => ?_) rfl rfl rfl rfl (List.nodup_cons.mpr ⟨hnot, h.nodup⟩) ?_
  · simp only [Live, List.map_cons, List.mem_cons, Finset.mem_erase]
    constructor
    · rintro (⟨-, hj⟩ | rfl | hj)
      · exact .inl hj
      · exact .inl hi
      · exact .inr hj
    · rintro (hj | hj)
      · by_cases heq : j = i
        · exact .inr (.inl heq)
        · exact .inl ⟨heq, hj⟩
      · exact .inr (.inr hj)
  · rintro r hr
    rcases List.mem_cons.mp hr with rfl | hr
    · exact ⟨Finset.notMem_erase _ _, hrecord⟩
    · exact ⟨fun hmem => h.notMem r hr (Finset.mem_of_mem_erase hmem), h.recorded r hr⟩

variable {r : ℕ × K}

omit [DecidableEq K] in
theorem eraseIdx_spec (h : Exclusive s) {n : ℕ} (hr : s.outstanding[n]? = some r) :
    r ∈ s.outstanding ∧ ((s.outstanding.eraseIdx n).map Prod.fst).Nodup ∧
    (∀ j, j ∈ s.outstanding.map Prod.fst ↔ j = r.1 ∨ j ∈ (s.outstanding.eraseIdx n).map Prod.fst) ∧
    ∀ r' ∈ s.outstanding.eraseIdx n, r' ∈ s.outstanding ∧ r'.1 ≠ r.1 := by
  obtain ⟨hn, rfl⟩ := List.getElem?_eq_some_iff.mp hr
  have hperm := (List.getElem_cons_eraseIdx_perm hn).map Prod.fst
  have hnodup := hperm.nodup_iff.mpr h.nodup
  rw [List.map_cons, List.nodup_cons] at hnodup
  refine ⟨List.getElem_mem hn, hnodup.2, fun j => ?_, fun r' hr' => ?_⟩
  · rw [← hperm.mem_iff, List.map_cons, List.mem_cons]
  · exact ⟨List.mem_of_mem_eraseIdx hr',
      fun heq => hnodup.1 (heq ▸ List.mem_map_of_mem hr')⟩

omit [DecidableEq K] in
theorem returnKey (h : Exclusive s) {n : ℕ} (hr : s.outstanding[n]? = some r) :
    Exclusive { s with
      pool := KeyPool.returnKey s.pool r.1
      outstanding := s.outstanding.eraseIdx n } := by
  obtain ⟨-, hnodup, hmem, hrest⟩ := h.eraseIdx_spec hr
  refine h.of_live (fun j => ?_) rfl rfl rfl rfl hnodup ?_
  · simp only [Live, KeyPool.returnKey, Finset.mem_insert, hmem]
    tauto
  · intro r' hr'
    obtain ⟨hr', hne⟩ := hrest r' hr'
    refine ⟨fun hin => ?_, h.recorded r' hr'⟩
    rcases Finset.mem_insert.mp hin with heq | hin
    · exact hne heq
    · exact h.notMem r' hr' hin

omit [DecidableEq K] in
theorem keepKey (h : Exclusive s) {n : ℕ} (hr : s.outstanding[n]? = some r) :
    Exclusive { s with
      pool := KeyPool.keepKey s.pool r.1
      outstanding := s.outstanding.eraseIdx n
      kept := r.2 :: s.kept } := by
  obtain ⟨hin, hnodup, hmem, hrest⟩ := h.eraseIdx_spec hr
  set s' : Session K := { s with
    pool := KeyPool.keepKey s.pool r.1
    outstanding := s.outstanding.eraseIdx n
    kept := r.2 :: s.kept } with hs'
  have hr' : Live s r.1 := .inr (List.mem_map_of_mem hin)
  have hlive : ∀ i, Live s' i → i ≠ r.1 ∧ Live s i := by
    rintro i (hi | hi)
    · exact ⟨fun heq => h.notMem r hin (heq ▸ hi), .inl hi⟩
    · refine ⟨?_, .inr ((hmem i).mpr (.inr hi))⟩
      obtain ⟨r', hr', rfl⟩ := List.mem_map.mp hi
      exact (hrest r' hr').2
  have hold : ∀ {i}, i ≠ r.1 → s'.pool.records i = s.pool.records i :=
    fun hi => Function.update_of_ne hi _ _
  refine ⟨hnodup, fun r' hr' => h.notMem r' (hrest r' hr').1, ?_, ?_, ?_, ?_, ?_, h.failures⟩
  · intro r' hr'
    rw [hold (hrest r' hr').2]
    exact h.recorded r' (hrest r' hr').1
  · intro i hi
    rw [hold (hlive i hi).1]
    exact h.backed i (hlive i hi).2
  · intro i j hi hj
    rw [hold (hlive i hi).1, hold (hlive j hj).1]
    exact h.inj i j (hlive i hi).2 (hlive j hj).2
  · exact List.nodup_cons.mpr ⟨fun hkey => (h.kept_keys _ hkey).2 _ hr' (h.recorded r hin), h.kept_nodup⟩
  · intro key hkey
    rcases List.mem_cons.mp hkey with rfl | hkey
    · obtain ⟨key, hkey, hrecord⟩ := h.backed r.1 hr'
      have heq := Option.some.inj (hrecord.symm.trans (h.recorded r hin))
      refine ⟨heq ▸ hkey, fun i hi hri => (hlive i hi).1 ?_⟩
      rw [hold (hlive i hi).1] at hri
      exact h.inj i r.1 (hlive i hi).2 hr' (hri.trans (h.recorded r hin).symm)
    · refine ⟨(h.kept_keys key hkey).1, fun i hi => ?_⟩
      rw [hold (hlive i hi).1]
      exact (h.kept_keys key hkey).2 i (hlive i hi).2

end Exclusive

/-! ## Runs -/

/-- The indices that a call adds to the pool. -/
def newIndices (pool : Pool K) : Op → Finset ℕ
  | .topUpKeyPool kpSize => (topUpKeyPool config pool kpSize).setKeyPool \ pool.setKeyPool
  | .reserveKeyFromKeyPool => (topUpKeyPool config pool 0).setKeyPool \ pool.setKeyPool
  | .getKeyFromPool => (topUpKeyPool config pool 0).setKeyPool \ pool.setKeyPool
  | _ => ∅

/-- The call gives no index that is reserved. -/
def GivesFresh (s : Session K) (op : Op) : Prop :=
  ∀ r ∈ s.outstanding, r.1 ∉ newIndices config s.pool op

/-- The call settles a reservation. -/
def Op.Settles : Op → Prop
  | .keepKey _ => True
  | .returnKey _ => True
  | _ => False

variable {config}

theorem notMem_topUpKeyPool (h : Exclusive s) {kpSize : UInt32}
    (hfresh : ∀ r ∈ s.outstanding,
      r.1 ∉ (topUpKeyPool config s.pool kpSize).setKeyPool \ s.pool.setKeyPool) :
    ∀ r ∈ s.outstanding, r.1 ∉ (topUpKeyPool config s.pool kpSize).setKeyPool :=
  fun r hr hmem => hfresh r hr (Finset.mem_sdiff.mpr ⟨hmem, h.notMem r hr⟩)

/-- A call that gives no reserved index keeps the reservations exclusive. -/
theorem Exclusive.step {s : Session K} (h : Exclusive s) {op : Op} (hfresh : GivesFresh config s op) :
    Exclusive (step config s op) := by
  cases op with
  | topUpKeyPool kpSize => exact h.topUpKeyPool (notMem_topUpKeyPool h hfresh)
  | reserveKeyFromKeyPool =>
    have hfilled := h.topUpKeyPool (notMem_topUpKeyPool h hfresh)
    rcases reserveKeyFromKeyPool_cases config s.pool with
      ⟨-, heq⟩ | ⟨hne, ⟨key, -, hrecord, heq⟩ | ⟨hnone, e, -⟩⟩
    · simp only [KeyPool.step, heq]
      exact hfilled
    · simp only [KeyPool.step, heq]
      exact hfilled.reserve (Finset.min'_mem _ hne) hrecord
    · obtain ⟨key, hkey, hrecord⟩ := hfilled.backed _ (.inl (Finset.min'_mem _ hne))
      exact absurd hrecord (hnone key hkey)
  | keepKey n =>
    simp only [KeyPool.step]
    cases hr : s.outstanding[n]? with
    | none => exact h
    | some r => exact h.keepKey hr
  | returnKey n =>
    simp only [KeyPool.step]
    cases hr : s.outstanding[n]? with
    | none => exact h
    | some r => exact h.returnKey hr
  | getKeyFromPool =>
    have hfilled := h.topUpKeyPool (notMem_topUpKeyPool h hfresh)
    rcases reserveKeyFromKeyPool_cases config s.pool with
      ⟨-, heq⟩ | ⟨hne, ⟨key, -, hrecord, heq⟩ | ⟨hnone, e, -⟩⟩
    · simp only [KeyPool.step, heq]
      split_ifs
      · exact hfilled
      · exact hfilled.insert_key _
    · -- The reservation is the first one and is kept at once.
      simp only [KeyPool.step, heq]
      exact (hfilled.reserve (Finset.min'_mem _ hne) hrecord).keepKey (n := 0) rfl
    · obtain ⟨key, hkey, hrecord⟩ := hfilled.backed _ (.inl (Finset.min'_mem _ hne))
      exact absurd hrecord (hnone key hkey)
  | lock =>
    exact h.of_live (fun _ => Iff.rfl) rfl rfl rfl rfl h.nodup
      fun r hr => ⟨h.notMem r hr, h.recorded r hr⟩
  | unlock =>
    exact h.of_live (fun _ => Iff.rfl) rfl rfl rfl rfl h.nodup
      fun r hr => ⟨h.notMem r hr, h.recorded r hr⟩

theorem Exclusive.settle (h : Exclusive s) {ops : List Op} (hops : ∀ op ∈ ops, op.Settles) :
    Exclusive (ops.foldl (KeyPool.step config) s) := by
  induction ops generalizing s with
  | nil => exact h
  | cons op ops ih =>
    rw [List.forall_mem_cons] at hops
    refine ih (h.step ?_) hops.2
    cases op with
    | keepKey n => exact fun r _ => Finset.notMem_empty _
    | returnKey n => exact fun r _ => Finset.notMem_empty _
    | _ => exact hops.1.elim

/-- Every way to settle the reservations leaves the pool sound. -/
def SettlesSoundly (config : Config K) (s : Session K) : Prop :=
  ∀ ops : List Op, (∀ op ∈ ops, op.Settles) → Sound (ops.foldl (step config) s)

theorem SettlesSoundly.notMem (h : SettlesSoundly config s) {n : ℕ} {r : ℕ × K}
    (hr : s.outstanding[n]? = some r) : r.1 ∉ s.pool.setKeyPool := by
  intro hmem
  have hsound := h [.keepKey n] (List.forall_mem_singleton.mpr trivial)
  simp only [List.foldl_cons, List.foldl_nil, KeyPool.step, hr] at hsound
  exact hsound.backed r.1 hmem (Function.update_self _ _ _)

theorem SettlesSoundly.records_ne_none (h : SettlesSoundly config s) {n : ℕ} {r : ℕ × K}
    (hr : s.outstanding[n]? = some r) : s.pool.records r.1 ≠ none := by
  have hsound := h [.returnKey n] (List.forall_mem_singleton.mpr trivial)
  simp only [List.foldl_cons, List.foldl_nil, KeyPool.step, hr] at hsound
  exact hsound.backed r.1 (Finset.mem_insert_self _ _)

theorem SettlesSoundly.settle (h : SettlesSoundly config s) {op : Op} (hop : op.Settles) :
    SettlesSoundly config (step config s op) :=
  fun ops hops => h (op :: ops) (List.forall_mem_cons.mpr ⟨hop, hops⟩)

/-- A call that gives a reserved index can be found by settling the reservations. -/
theorem SettlesSoundly.givesFresh {op : Op} (h : SettlesSoundly config (step config s op)) :
    GivesFresh config s op := by
  intro r hr hmem
  obtain ⟨n, hn⟩ := List.mem_iff_getElem?.mp hr
  cases op with
  | topUpKeyPool kpSize => exact h.notMem hn (Finset.mem_sdiff.mp hmem).1
  | reserveKeyFromKeyPool =>
    have hin := (Finset.mem_sdiff.mp hmem).1
    rcases reserveKeyFromKeyPool_cases config s.pool with
      ⟨hempty, -⟩ | ⟨hne, ⟨key, -, hrecord, heq⟩ | ⟨-, e, heq⟩⟩
    · exact absurd (hempty ▸ hin) (Finset.notMem_empty _)
    · simp only [KeyPool.step, heq] at h
      by_cases hmin : r.1 = (topUpKeyPool config s.pool 0).setKeyPool.min' hne
      · -- Two reservations share the index: one is kept, the other one returned.
        have hkeep := SettlesSoundly.settle h (show Op.Settles (.keepKey (n + 1)) from trivial)
        simp only [KeyPool.step, List.getElem?_cons_succ, hn] at hkeep
        exact hkeep.records_ne_none (n := 0) rfl (hmin ▸ Function.update_self _ _ _)
      · exact h.notMem (n := n + 1) hn (Finset.mem_erase.mpr ⟨hmin, hin⟩)
    · simp only [KeyPool.step, heq] at h
      exact absurd (h [] (List.forall_mem_nil _)).failures (List.cons_ne_nil _ _)
  | getKeyFromPool =>
    have hin := (Finset.mem_sdiff.mp hmem).1
    rcases reserveKeyFromKeyPool_cases config s.pool with
      ⟨hempty, -⟩ | ⟨hne, ⟨key, -, hrecord, heq⟩ | ⟨-, e, heq⟩⟩
    · exact absurd (hempty ▸ hin) (Finset.notMem_empty _)
    · simp only [KeyPool.step, heq] at h
      by_cases hmin : r.1 = (topUpKeyPool config s.pool 0).setKeyPool.min' hne
      · exact h.records_ne_none hn (hmin ▸ Function.update_self _ _ _)
      · exact h.notMem hn (Finset.mem_erase.mpr ⟨hmin, hin⟩)
    · simp only [KeyPool.step, heq] at h
      exact absurd (h [] (List.forall_mem_nil _)).failures (List.cons_ne_nil _ _)
  | _ => exact absurd hmem (Finset.notMem_empty _)

/-- A pool as it is loaded: each index has a record of its own, with a key of the key store. -/
structure Loaded (pool : Pool K) : Prop where
  backed : ∀ i ∈ pool.setKeyPool, ∃ key ∈ pool.keys, pool.records i = some key
  inj : Set.InjOn pool.records pool.setKeyPool

omit [DecidableEq K] in
theorem Loaded.exclusive {pool : Pool K} (h : Loaded pool) : Exclusive { pool } := by
  have hlive : ∀ i, Live { pool } i → i ∈ pool.setKeyPool :=
    fun i hi => hi.resolve_right List.not_mem_nil
  exact
    { nodup := List.nodup_nil
      notMem := fun r hr => absurd hr List.not_mem_nil
      recorded := fun r hr => absurd hr List.not_mem_nil
      backed := fun i hi => h.backed i (hlive i hi)
      inj := fun i j hi hj heq => h.inj (hlive i hi) (hlive j hj) heq
      kept_nodup := List.nodup_nil
      kept_keys := fun key hkey => absurd hkey List.not_mem_nil
      failures := rfl }

end KeyPool

open KeyPool

namespace KeyPool

/-- Keys are numbers, and a new one is larger than those there are. -/
def numbered (keypool : ℕ) : Config ℕ where
  keypool := keypool
  generateNewKey keys := keys.sup id + 1
  generateNewKey_notMem _ h := absurd (Finset.le_sup (f := id) h) (Nat.not_succ_le_self _)

/-- A wallet without keys. -/
def emptyPool : Pool ℕ where
  setKeyPool := ∅
  records _ := none
  keys := ∅
  locked := false

theorem emptyPool_loaded : Loaded emptyPool where
  backed i hi := absurd hi (Finset.notMem_empty i)
  inj i hi := absurd hi (Finset.notMem_empty i)

/-- Both keys of the pool are reserved while the wallet is locked, then it is filled again. -/
def drained : List Op :=
  [.topUpKeyPool 0, .lock, .reserveKeyFromKeyPool, .reserveKeyFromKeyPool, .unlock, .topUpKeyPool 0]

end KeyPool

end X2XCoin
