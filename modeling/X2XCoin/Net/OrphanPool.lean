import X2XCoin.Lib.MirrorMap
import X2XCoin.Lib.Run
import X2XCoin.Mempool.Policy

/-!
# Orphan transactions

The pool of transactions with missing inputs of `main.cpp`.  An iterator of the map is the hash it
stands at.  The loops that erase entries go over those that the map has before them.
-/

namespace X2XCoin

structure COrphanTx where
  tx : CTransaction
  fromPeer : ℕ
  nTimeExpire : ℤ

def ORPHAN_TX_EXPIRE_TIME : ℤ := 20 * 60

def ORPHAN_TX_EXPIRE_INTERVAL : ℤ := 5 * 60

/-- The outputs that an orphan spends. -/
def COrphanTx.prevouts (orphan : COrphanTx) : List COutPoint := orphan.tx.vin.map CTxIn.prevout

/-- `mapOrphanTransactions` with the index `mapOrphanTransactionsByPrev`, and the static variable of
`LimitOrphanTxSize`. -/
structure OrphanPool extends MirrorMap Uint256 COutPoint COrphanTx where
  nNextSweep : ℤ

namespace OrphanPool

variable (crypto : Crypto)

def empty : OrphanPool := ⟨MirrorMap.empty, 0⟩

/-- `AddOrphanTx`, where the size is stored in 32 bits. -/
def addOrphanTx (p : OrphanPool) (tx : CTransaction) (peer : ℕ) (now : ℤ) : Bool × OrphanPool :=
  let hash := tx.getHash crypto
  if (p.entries.lookup hash).isSome then (false, p)
  else if tx.serialize.length % 2 ^ 32 ≥ MAX_STANDARD_TX_SIZE then (false, p)
  else (true, { p with
    toMirrorMap :=
      p.putAll COrphanTx.prevouts hash ⟨tx, peer, now + ORPHAN_TX_EXPIRE_TIME⟩ })

def eraseOrphanTx (p : OrphanPool) (hash : Uint256) : ℕ × OrphanPool :=
  ((p.entries.lookup hash).isSome.toNat,
    { p with toMirrorMap := p.removeAll COrphanTx.prevouts hash })

/-- The loops that erase the entries with a property. -/
def eraseEach (p : OrphanPool) (which : COrphanTx → Bool) : OrphanPool :=
  (p.entries.entries.filter fun e => which e.2).foldl
    (fun p e => (p.eraseOrphanTx (e.2.tx.getHash crypto)).2) p

def eraseOrphansFor (p : OrphanPool) (peer : ℕ) : OrphanPool :=
  p.eraseEach crypto fun orphan => orphan.fromPeer = peer

/-- The sweep of `LimitOrphanTxSize`. -/
def sweep (p : OrphanPool) (nNow : ℤ) : OrphanPool :=
  let kept := p.entries.entries.filter fun e => ¬e.2.nTimeExpire ≤ nNow
  let nMinExpTime := kept.foldl (fun nMinExpTime e => min e.2.nTimeExpire nMinExpTime)
    (nNow + ORPHAN_TX_EXPIRE_TIME - ORPHAN_TX_EXPIRE_INTERVAL)
  { p.eraseEach crypto fun orphan => orphan.nTimeExpire ≤ nNow with
    nNextSweep := nMinExpTime + ORPHAN_TX_EXPIRE_INTERVAL }

/-- The entry at `lower_bound` or at the begin of the map. -/
def victim (p : OrphanPool) (randomhash : Uint256) : Option Uint256 :=
  let keys := p.entries.keys.insertionSort fun a b => Uint256.compareKey a ≤ Uint256.compareKey b
  (keys.find? fun k => Uint256.compareKey randomhash ≤ Uint256.compareKey k).or keys.head?

/-- The loop that evicts random orphans; `turns` bounds the number of turns. -/
def evict (nMaxOrphans : ℕ) (getRandHash : ℕ → Uint256) :
    (turns nEvicted : ℕ) → OrphanPool → ℕ × OrphanPool
  | 0, nEvicted, p => (nEvicted, p)
  | turns + 1, nEvicted, p =>
    if p.entries.keys.length > nMaxOrphans then
      match p.victim (getRandHash nEvicted) with
      | none => (nEvicted, p)
      | some hash => evict nMaxOrphans getRandHash turns (nEvicted + 1) (p.eraseOrphanTx hash).2
    else (nEvicted, p)

def limitOrphanTxSize (p : OrphanPool) (nMaxOrphans : ℕ) (nNow : ℤ)
    (getRandHash : ℕ → Uint256) : ℕ × OrphanPool :=
  let p := if p.nNextSweep ≤ nNow then p.sweep crypto nNow else p
  evict nMaxOrphans getRandHash p.entries.keys.length 0 p

inductive Call
  | addOrphanTx (tx : CTransaction) (peer : ℕ) (now : ℤ)
  | eraseOrphanTx (hash : Uint256)
  | eraseOrphansFor (peer : ℕ)
  | limitOrphanTxSize (nMaxOrphans : ℕ) (nNow : ℤ) (getRandHash : ℕ → Uint256)

def step (p : OrphanPool) : Call → OrphanPool
  | .addOrphanTx tx peer now => (p.addOrphanTx crypto tx peer now).2
  | .eraseOrphanTx hash => (p.eraseOrphanTx hash).2
  | .eraseOrphansFor peer => p.eraseOrphansFor crypto peer
  | .limitOrphanTxSize nMaxOrphans nNow getRandHash =>
    (p.limitOrphanTxSize crypto nMaxOrphans nNow getRandHash).2

/-! ## Exactness -/

/-- The index lists the orphans by the outputs that they spend, without empty sets; the orphans are
stored under their hashes and are not too large. -/
structure Exact (p : OrphanPool) : Prop where
  indexed : p.Indexed COrphanTx.prevouts
  hash : ∀ hash orphan, p.entries.lookup hash = some orphan → orphan.tx.getHash crypto = hash
  size : ∀ hash orphan, p.entries.lookup hash = some orphan →
    orphan.tx.serialize.length % 2 ^ 32 < MAX_STANDARD_TX_SIZE

variable {crypto} {p : OrphanPool}

theorem Exact.addOrphanTx (h : p.Exact crypto) (tx : CTransaction) (peer : ℕ) (now : ℤ) :
    (p.addOrphanTx crypto tx peer now).2.Exact crypto := by
  rw [OrphanPool.addOrphanTx]
  dsimp only
  split_ifs with hknown hlarge
  · exact h
  · exact h
  · have hnew : p.entries.lookup (tx.getHash crypto) = none := by simpa using hknown
    obtain ⟨hindexed, hentries⟩ :=
      h.indexed.putAll hnew ⟨tx, peer, now + ORPHAN_TX_EXPIRE_TIME⟩
    have hcases : ∀ hash orphan, (p.putAll COrphanTx.prevouts (tx.getHash crypto)
        ⟨tx, peer, now + ORPHAN_TX_EXPIRE_TIME⟩).entries.lookup hash = some orphan →
        orphan.tx = tx ∧ hash = tx.getHash crypto ∨ p.entries.lookup hash = some orphan := by
      intro hash orphan horphan
      rw [hentries] at horphan
      obtain rfl | hne := eq_or_ne hash (tx.getHash crypto)
      · rw [AList.lookup_insert] at horphan
        exact .inl ⟨(Option.some.inj horphan) ▸ rfl, rfl⟩
      · exact .inr (by rwa [AList.lookup_insert_ne hne] at horphan)
    refine ⟨hindexed, fun hash orphan horphan => ?_, fun hash orphan horphan => ?_⟩
    · obtain ⟨rfl, rfl⟩ | hold := hcases hash orphan horphan
      · rfl
      · exact h.hash hash orphan hold
    · obtain ⟨rfl, rfl⟩ | hold := hcases hash orphan horphan
      · exact not_le.mp hlarge
      · exact h.size hash orphan hold

theorem lookup_of_lookup_erase {hash hash' : Uint256} {orphan : COrphanTx}
    (h : (p.entries.erase hash).lookup hash' = some orphan) :
    hash' ≠ hash ∧ p.entries.lookup hash' = some orphan := by
  obtain rfl | hne := eq_or_ne hash' hash
  · simp at h
  · exact ⟨hne, by rwa [AList.lookup_erase_ne hne] at h⟩

theorem Exact.eraseOrphanTx (h : p.Exact crypto) (hash : Uint256) :
    (p.eraseOrphanTx hash).2.Exact crypto ∧
      (p.eraseOrphanTx hash).2.entries = p.entries.erase hash := by
  obtain ⟨hindexed, hentries⟩ := h.indexed.removeAll hash
  refine ⟨⟨hindexed, fun hash' orphan ho => ?_, fun hash' orphan ho => ?_⟩, hentries⟩
  · exact h.hash hash' orphan (lookup_of_lookup_erase (hentries ▸ ho)).2
  · exact h.size hash' orphan (lookup_of_lookup_erase (hentries ▸ ho)).2

/-- The loop leaves the orphans that do not have the property. -/
theorem Exact.eraseEach (h : p.Exact crypto) (which : COrphanTx → Bool) :
    (p.eraseEach crypto which).Exact crypto ∧ ∀ hash orphan,
      (p.eraseEach crypto which).entries.lookup hash = some orphan → which orphan = false := by
  have hloop : ∀ (l : List (Σ _ : Uint256, COrphanTx)) (q : OrphanPool), q.Exact crypto →
      let q' := l.foldl (fun q e => (q.eraseOrphanTx (e.2.tx.getHash crypto)).2) q
      q'.Exact crypto ∧ ∀ hash orphan, q'.entries.lookup hash = some orphan →
        q.entries.lookup hash = some orphan ∧ ∀ e ∈ l, e.2.tx.getHash crypto ≠ hash := by
    intro l
    induction l with
    | nil => exact fun q hq => ⟨hq, fun hash orphan ho => ⟨ho, by simp⟩⟩
    | cons e l ih =>
      intro q hq
      obtain ⟨hq', hentries⟩ := hq.eraseOrphanTx (e.2.tx.getHash crypto)
      refine ⟨(ih _ hq').1, fun hash orphan ho => ?_⟩
      obtain ⟨hold, hrest⟩ := (ih _ hq').2 hash orphan ho
      obtain ⟨hne, hold⟩ := lookup_of_lookup_erase (hentries ▸ hold)
      exact ⟨hold, List.forall_mem_cons.mpr ⟨hne.symm, hrest⟩⟩
  obtain ⟨hexact, hleft⟩ := hloop (p.entries.entries.filter fun e => which e.2) p h
  refine ⟨hexact, fun hash orphan ho => Bool.eq_false_iff.mpr fun hwhich => ?_⟩
  obtain ⟨hold, hne⟩ := hleft hash orphan ho
  refine hne ⟨hash, orphan⟩ (List.mem_filter.mpr ⟨?_, hwhich⟩) (h.hash hash orphan hold)
  exact AList.mem_lookup_iff.mp hold

theorem Exact.sweep (h : p.Exact crypto) (nNow : ℤ) :
    (p.sweep crypto nNow).Exact crypto ∧ ∀ hash orphan,
      (p.sweep crypto nNow).entries.lookup hash = some orphan → nNow < orphan.nTimeExpire := by
  obtain ⟨hexact, hleft⟩ := h.eraseEach fun orphan => orphan.nTimeExpire ≤ nNow
  refine ⟨⟨hexact.indexed, hexact.hash, hexact.size⟩, fun hash orphan ho => ?_⟩
  simpa using hleft hash orphan ho

/-! ## The bound -/

theorem victim_mem {randomhash hash : Uint256} (h : p.victim randomhash = some hash) :
    hash ∈ p.entries.keys := by
  rw [victim, Option.or_eq_some_iff] at h
  obtain h | ⟨-, h⟩ := h
  · exact (List.mem_insertionSort _).mp (List.mem_of_find?_eq_some h)
  · exact (List.mem_insertionSort _).mp (List.mem_of_mem_head? h)

theorem exists_victim (h : p.entries.keys ≠ []) (randomhash : Uint256) :
    ∃ hash, p.victim randomhash = some hash := by
  rw [← Option.isSome_iff_exists, victim, Option.isSome_or, Bool.or_eq_true]
  refine .inr ?_
  rw [List.isSome_head?]
  simpa [← List.length_pos_iff] using h

/-- Every turn evicts one orphan, so the loop ends with at most `nMaxOrphans` of those before it. -/
theorem Exact.evict (h : p.Exact crypto) (nMaxOrphans : ℕ) {turns : ℕ} (getRandHash : ℕ → Uint256)
    (nEvicted : ℕ) (hturns : p.entries.keys.length ≤ turns) :
    let q := (evict nMaxOrphans getRandHash turns nEvicted p).2
    q.Exact crypto ∧ q.entries.keys.length ≤ nMaxOrphans ∧ ∀ hash orphan,
      q.entries.lookup hash = some orphan → p.entries.lookup hash = some orphan := by
  induction turns generalizing p nEvicted with
  | zero => exact ⟨h, hturns.trans (Nat.zero_le _), fun _ _ ho => ho⟩
  | succ turns ih =>
    rw [OrphanPool.evict]
    split_ifs with hmore
    · have hne : p.entries.keys ≠ [] := List.length_pos_iff.mp (by omega)
      obtain ⟨hash, hvictim⟩ := exists_victim hne (getRandHash nEvicted)
      obtain ⟨h', hentries⟩ := h.eraseOrphanTx hash
      have hlength := List.length_erase_of_mem (victim_mem hvictim)
      rw [← AList.keys_erase, ← hentries] at hlength
      obtain ⟨hexact, hbound, hold⟩ := ih h' (nEvicted + 1) (by omega)
      simp only [hvictim]
      refine ⟨hexact, hbound, fun hash' orphan ho => ?_⟩
      exact (lookup_of_lookup_erase (hentries ▸ hold hash' orphan ho)).2
    · exact ⟨h, not_lt.mp hmore, fun _ _ ho => ho⟩

theorem Exact.limitOrphanTxSize (h : p.Exact crypto) (nMaxOrphans : ℕ) (nNow : ℤ)
    (getRandHash : ℕ → Uint256) :
    let q := (p.limitOrphanTxSize crypto nMaxOrphans nNow getRandHash).2
    q.Exact crypto ∧ q.entries.keys.length ≤ nMaxOrphans ∧ (p.nNextSweep ≤ nNow →
      ∀ hash orphan, q.entries.lookup hash = some orphan → nNow < orphan.nTimeExpire) := by
  rw [OrphanPool.limitOrphanTxSize]
  split_ifs with hsweep
  · obtain ⟨h', hlater⟩ := h.sweep nNow
    obtain ⟨hexact, hbound, hold⟩ := h'.evict nMaxOrphans getRandHash 0 le_rfl
    exact ⟨hexact, hbound, fun _ hash orphan ho => hlater hash orphan (hold hash orphan ho)⟩
  · obtain ⟨hexact, hbound, -⟩ := h.evict nMaxOrphans getRandHash 0 le_rfl
    exact ⟨hexact, hbound, fun hsweep' => absurd hsweep' hsweep⟩

theorem Exact.step (h : p.Exact crypto) (call : Call) : (p.step crypto call).Exact crypto := by
  cases call with
  | addOrphanTx tx peer now => exact h.addOrphanTx tx peer now
  | eraseOrphanTx hash => exact (h.eraseOrphanTx hash).1
  | eraseOrphansFor peer => exact (h.eraseEach fun orphan => orphan.fromPeer = peer).1
  | limitOrphanTxSize nMaxOrphans nNow getRandHash =>
    exact (h.limitOrphanTxSize nMaxOrphans nNow getRandHash).1

/-- After every sequence of calls the pool is exact, and after `LimitOrphanTxSize` it is bounded and
swept. -/
theorem exact_of_calls (crypto : Crypto) (calls : List Call) :
    let p := calls.foldl (step crypto) empty
    p.Exact crypto ∧ ∀ nMaxOrphans nNow getRandHash,
      let q := (p.limitOrphanTxSize crypto nMaxOrphans nNow getRandHash).2
      q.Exact crypto ∧ q.entries.keys.length ≤ nMaxOrphans ∧ (p.nNextSweep ≤ nNow →
        ∀ hash orphan, q.entries.lookup hash = some orphan → nNow < orphan.nTimeExpire) := by
  have hempty : empty.Exact crypto := by
    refine ⟨⟨⟨fun _ => List.nodup_nil, fun _ => nofun⟩, fun a k => ?_⟩, nofun, nofun⟩
    simp [empty, MirrorMap.empty, MirrorMap.keysOf]
  have hrun : (calls.foldl (step crypto) empty).Exact crypto :=
    Run.invariant (fun _ call hp _ => hp.step call) hempty (Run.meets_true empty calls)
  exact ⟨hrun, hrun.limitOrphanTxSize⟩

end OrphanPool

end X2XCoin
