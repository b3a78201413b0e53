import X2XCoin.Coins.CleanUndo
import X2XCoin.Lib.MapFold
import X2XCoin.Mempool.Wired
import X2XCoin.Validation.Replay

/-!
# Accepting transactions

`CCoinsViewMemPool` of `txmempool.cpp` and `AcceptToMemoryPool` of `main.cpp`.  The tests on dust,
standard form, time, finality, sequence locks, size, fees, priority and the number of ancestors are
one parameter.  The size of the pool is not limited here.
-/

namespace X2XCoin

theorem CoinsView.output_of_coinsAt {view : CoinsView} {o : COutPoint}
    (h : (view.coinsAt o.hash).output o.n.toNat = none) : view.output o = none := by
  rw [CoinsView.output_eq_coinsAt, h]

def MEMPOOL_HEIGHT : ℕ := 0x7FFFFFFF

def MANDATORY_SCRIPT_VERIFY_FLAGS : UInt32 :=
  SCRIPT_VERIFY_P2SH ||| SCRIPT_VERIFY_DERKEY ||| SCRIPT_VERIFY_LOW_S ||| SCRIPT_VERIFY_NULLDUMMY |||
    SCRIPT_VERIFY_CHECKLOCKTIMEVERIFY ||| SCRIPT_VERIFY_DERSIG

def STANDARD_SCRIPT_VERIFY_FLAGS : UInt32 :=
  MANDATORY_SCRIPT_VERIFY_FLAGS ||| STANDARD_NOT_MANDATORY_VERIFY_FLAGS

def CoinsView.haveCoins (view : CoinsView) (txid : Uint256) : Bool :=
  match view.accessCoins txid with
  | some coins => !coins.vout.isEmpty
  | none => false

/-- The tests that are not modelled. -/
abbrev Policy := CoinsView → CTxMemPool → CTransaction → Bool

namespace CTxMemPool

/-- `CCoinsViewMemPool`: the outputs of the pool in front of those of the view. -/
def overlay (pool : CTxMemPool) (base : CoinsView) : CoinsView :=
  { base with
    coins := pool.mapTx.entries.foldl (fun coins e =>
      coins.insert e.1 (CCoins.fromTx e.2.tx MEMPOOL_HEIGHT)) base.coins }

/-- `fSpendsCoinbase`: some input spends a transaction that is a coinbase. -/
def spendsCoinbase (view : CoinsView) (tx : CTransaction) : Bool :=
  tx.vin.any fun txin => (view.accessCoins txin.prevout.hash).any CCoins.fCoinBase

/-- The tests of `AcceptToMemoryPool`. -/
def admits (crypto : Crypto) (policy : Policy) (nSpendHeight : ℤ) (pcoinsTip : CoinsView)
    (pool : CTxMemPool) (tx : CTransaction) : Prop :=
  let hash := tx.getHash crypto
  let view := pool.overlay pcoinsTip
  checkTransaction tx = .ok () ∧ tx.isCoinBase = false ∧ tx.isCoinStake = false ∧
    hash ∉ pool.mapTx ∧ (∀ txin ∈ tx.vin, txin.prevout ∉ pool.mapNextTx) ∧
    view.haveCoins hash = false ∧ (∀ txin ∈ tx.vin, view.haveCoins txin.prevout.hash = true) ∧
    view.haveInputs tx = true ∧ policy pcoinsTip pool tx = true ∧
    checkInputs crypto tx view nSpendHeight true STANDARD_SCRIPT_VERIFY_FLAGS = .ok () ∧
    checkInputs crypto tx view nSpendHeight true MANDATORY_SCRIPT_VERIFY_FLAGS = .ok ()

instance (crypto : Crypto) (policy : Policy) (nSpendHeight : ℤ) (pcoinsTip : CoinsView)
    (pool : CTxMemPool) (tx : CTransaction) :
    Decidable (admits crypto policy nSpendHeight pcoinsTip pool tx) := by
  unfold admits
  infer_instance

/-- `AcceptToMemoryPool`, which leaves the pool alone when it returns false. -/
def acceptToMemoryPool (crypto : Crypto) (policy : Policy) (nSpendHeight : ℤ) (pcoinsTip : CoinsView)
    (pool : CTxMemPool) (tx : CTransaction) : Option CTxMemPool :=
  if admits crypto policy nSpendHeight pcoinsTip pool tx then
    some (pool.addUnchecked (tx.getHash crypto) ⟨tx, spendsCoinbase (pool.overlay pcoinsTip) tx⟩)
  else none

/-! ## What an accepted transaction spends -/

variable {crypto : Crypto} {pool : CTxMemPool}

theorem accessCoins_overlay (pool : CTxMemPool) (base : CoinsView) (txid : Uint256) :
    (pool.overlay base).accessCoins txid =
      (pool.mapTx.lookup txid).elim (base.accessCoins txid) fun e =>
        some (CCoins.fromTx e.tx MEMPOOL_HEIGHT) := by
  obtain ⟨-, hview⟩ := AList.foldl_entries_view
    (fun (coins : AList fun _ : Uint256 => CCoins) id (e : CTxMemPoolEntry) =>
      coins.insert id (CCoins.fromTx e.tx MEMPOOL_HEIGHT))
    (fun coins id => coins.lookup id) (fun e _ => some (CCoins.fromTx e.tx MEMPOOL_HEIGHT))
    (I := fun _ => True) (P := fun _ _ => True)
    (fun coins a e _ _ => ⟨trivial, fun a' => by
      split_ifs with h
      · rw [h, AList.lookup_insert]
      · rw [AList.lookup_insert_ne h]⟩) pool.mapTx (s := base.coins) trivial fun _ _ _ => trivial
  exact hview txid

theorem lt_length_of_output_fromTx {tx : CTransaction} {nHeight n : ℕ} {o : CTxOut}
    (h : (CCoins.fromTx tx nHeight).output n = some o) : n < tx.vout.length := by
  rw [CCoins.fromTx, CCoins.clearUnspendable, CCoins.output_cleanup, CCoins.output_eq_some] at h
  have hlt := (List.getElem?_eq_some_iff.mp h.1).1
  rwa [List.length_map] at hlt

/-- The output at an outpoint is in the pool or in the view. -/
def Funded (view : CoinsView) (pool : CTxMemPool) (o : COutPoint) : Prop :=
  (∃ e out, pool.mapTx.lookup o.hash = some e ∧
    (CCoins.fromTx e.tx MEMPOOL_HEIGHT).output o.n.toNat = some out) ∨
  ∃ out, view.output o = some out

/-- The output at an outpoint is one of a confirmed coinbase. -/
def SpendsCoinBase (view : CoinsView) (o : COutPoint) : Prop :=
  (∃ out, view.output o = some out) ∧ (view.coinsAt o.hash).fCoinBase = true

/-- What `AcceptToMemoryPool` makes sure of. -/
structure Accepted (crypto : Crypto) (view : CoinsView) (pool : CTxMemPool) (tx : CTransaction)
    (flag : Bool) : Prop where
  ordinary : tx.isCoinBase = false ∧ tx.isCoinStake = false
  isNew : tx.getHash crypto ∉ pool.mapTx
  free : ∀ txin ∈ tx.vin, txin.prevout ∉ pool.mapNextTx
  absent : ∀ n, (view.coinsAt (tx.getHash crypto)).output n = none
  notSelf : ∀ txin ∈ tx.vin, txin.prevout.hash ≠ tx.getHash crypto
  funded : ∀ txin ∈ tx.vin, Funded view pool txin.prevout
  flagged : flag = true ↔ ∃ txin ∈ tx.vin, txin.prevout.hash ∉ pool.mapTx ∧
    SpendsCoinBase view txin.prevout

theorem output_overlay {view : CoinsView} {o : COutPoint} {out : CTxOut}
    (h : (pool.overlay view).output o = some out) :
    (∃ e, pool.mapTx.lookup o.hash = some e ∧
      (CCoins.fromTx e.tx MEMPOOL_HEIGHT).output o.n.toNat = some out) ∨
    (o.hash ∉ pool.mapTx ∧ view.output o = some out) := by
  rw [CoinsView.output, accessCoins_overlay] at h
  cases he : pool.mapTx.lookup o.hash with
  | none =>
    rw [he] at h
    exact .inr ⟨AList.lookup_eq_none.mp he, h⟩
  | some e =>
    rw [he] at h
    exact .inl ⟨e, rfl, h⟩

theorem acceptToMemoryPool_eq_some {policy : Policy} {nSpendHeight : ℤ} {view : CoinsView}
    {tx : CTransaction} {pool' : CTxMemPool}
    (hordinary : ∀ id e, pool.mapTx.lookup id = some e → e.tx.isCoinBase = false)
    (h : acceptToMemoryPool crypto policy nSpendHeight view pool tx = some pool') :
    ∃ flag, Accepted crypto view pool tx flag ∧
      pool' = pool.addUnchecked (tx.getHash crypto) ⟨tx, flag⟩ := by
  unfold acceptToMemoryPool at h
  split_ifs at h with hadmits
  obtain ⟨-, hcb, hcs, hnew, hfree, hknown, -, hin, -⟩ := hadmits
  have hinputs : ∀ txin ∈ tx.vin, ∃ out, (pool.overlay view).output txin.prevout = some out :=
    (CoinsView.haveInputs_iff.mp hin).resolve_left (by simp [hcb])
  have habsent : ∀ n, (view.coinsAt (tx.getHash crypto)).output n = none := by
    intro n
    rw [CoinsView.haveCoins, accessCoins_overlay, AList.lookup_eq_none.mpr hnew,
      Option.elim_none] at hknown
    rw [CoinsView.coinsAt]
    cases hc : view.accessCoins (tx.getHash crypto) with
    | none => rfl
    | some c =>
      rw [hc] at hknown
      have hempty : c.vout = [] := by simpa using hknown
      simp [CCoins.output, hempty]
  refine ⟨_, ⟨⟨hcb, hcs⟩, hnew, hfree, habsent, fun txin htxin hself => ?_, fun txin htxin => ?_, ?_⟩,
    (Option.some.inj h).symm⟩
  · obtain ⟨out, hout⟩ := hinputs txin htxin
    rcases output_overlay hout with ⟨e, he, -⟩ | ⟨-, hout⟩
    · exact hnew (hself ▸ mem_of_lookup he)
    · rw [CoinsView.output_of_coinsAt (hself ▸ habsent _)] at hout
      cases hout
  · obtain ⟨out, hout⟩ := hinputs txin htxin
    rcases output_overlay hout with ⟨e, he, hout⟩ | ⟨-, hout⟩
    · exact .inl ⟨e, out, he, hout⟩
    · exact .inr ⟨out, hout⟩
  · simp only [spendsCoinbase, List.any_eq_true]
    refine exists_congr fun txin => and_congr_right fun htxin => ?_
    obtain ⟨out, hout⟩ := hinputs txin htxin
    rw [accessCoins_overlay]
    rcases output_overlay hout with ⟨e, he, -⟩ | ⟨hmem, hout⟩
    · have hcoin : (CCoins.fromTx e.tx MEMPOOL_HEIGHT).fCoinBase = false := hordinary _ e he
      rw [he, Option.elim_some, Option.any_some, hcoin]
      exact iff_of_false Bool.false_ne_true fun hno => hno.1 (mem_of_lookup he)
    · rw [AList.lookup_eq_none.mpr hmem, Option.elim_none]
      obtain ⟨c, hc, -⟩ := Option.bind_eq_some_iff.mp hout
      rw [hc, Option.any_some, SpendsCoinBase, CoinsView.coinsAt_of_accessCoins hc]
      exact ⟨fun hcoin => ⟨hmem, ⟨out, hout⟩, hcoin⟩, fun hno => hno.2.2⟩

end CTxMemPool

end X2XCoin
