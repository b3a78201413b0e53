import X2XCoin.Mempool.DisconnectTip
import X2XCoin.Node.RegTest

/-!
# The sweep after a reorganisation

`removeForReorg` of `txmempool.cpp`.  Only entries flagged `fSpendsCoinbase` are looked at for
inputs
that are no longer mature, and `AcceptToMemoryPool` does not set the flag for coinstake inputs.
`CheckFinalTx` and `CheckSequenceLocks` are a parameter.
-/

namespace X2XCoin

open CTxMemPool

/-- A generated output that is not deep enough at the height of the next block. -/
def CCoins.isImmature (p : Params) (nMemPoolHeight : ℕ) (coins : CCoins) : Bool :=
  (coins.fCoinBase || coins.fCoinStake) &&
    decide ((nMemPoolHeight : ℤ) - coins.nHeight < p.nCoinbaseMaturity)

namespace CTxMemPool

/-- The entries that `removeForReorg` collects. -/
def isOutdated (p : Params) (pcoins : CoinsView) (nMemPoolHeight : ℕ) (final : CTxMemPoolEntry → Bool)
    (pool : CTxMemPool) (it : CTxMemPoolEntry) : Bool :=
  !final it || (it.spendsCoinbase && it.tx.vin.any fun txin =>
    if txin.prevout.hash ∈ pool.mapTx then false
    else
      match pcoins.accessCoins txin.prevout.hash with
      | none => true
      | some coins => coins.isImmature p nMemPoolHeight)

def removeForReorg (crypto : Crypto) (p : Params) (pcoins : CoinsView) (nMemPoolHeight : ℕ)
    (final : CTxMemPoolEntry → Bool) (pool : CTxMemPool) : CTxMemPool :=
  let transactionsToRemove := (pool.mapTx.entries.map fun it => it.2).filter
    (pool.isOutdated p pcoins nMemPoolHeight final)
  transactionsToRemove.foldl (fun pool it => pool.removeRecursive crypto it.tx) pool

end CTxMemPool

/-! ## Removing several entries -/

section

variable {crypto : Crypto} {pool pool' : CTxMemPool}

/-- Without what depends on `a`, what depends on `b` is what depended on it before. -/
theorem reaches_iff_of_keeps {a b x : Uint256} (hkeeps : Keeps pool pool' (¬ pool.Reaches a ·))
    (hx : ¬ pool.Reaches a x) : pool'.Reaches b x ↔ pool.Reaches b x := by
  constructor
  · exact Relation.ReflTransGen.mono (fun p c hpc => (hkeeps.edge.mp hpc).1) _ _
  · intro h
    induction h with
    | refl => exact .refl
    | tail hb hedge ih =>
      exact (ih fun hreach => hx (hreach.tail hedge)).tail (hkeeps.edge.mpr ⟨hedge, hx⟩)

/-- Entries removed one after the other, each with what depends on it. -/
theorem foldl_removeRecursive {its : List CTxMemPoolEntry}
    (hwired : pool.Wired crypto fun p c => p ∈ pool.mapTx ∧ pool.Edge p c)
    (hits : ∀ it ∈ its, it.tx.getHash crypto ∈ pool.mapTx ∨
      ∀ c, ¬ pool.Edge (it.tx.getHash crypto) c) :
    Keeps pool (its.foldl (fun pool it => pool.removeRecursive crypto it.tx) pool)
      fun x => ∀ it ∈ its, ¬ pool.Reaches (it.tx.getHash crypto) x := by
  induction its generalizing pool with
  | nil => exact fun x e => by simp
  | cons it its ih =>
    rw [List.forall_mem_cons] at hits
    obtain ⟨hkeeps, hwired'⟩ := hwired.removeRecursive (fun p c hp _ hedge => ⟨hp, hedge⟩)
      (fun hno c e he txin hin hhash =>
        absurd ⟨e, he, txin, hin, hhash⟩ (hits.1.resolve_left hno c))
    have hrest : ∀ it' ∈ its, it'.tx.getHash crypto ∈ (pool.removeRecursive crypto it.tx).mapTx ∨
        ∀ c, ¬ (pool.removeRecursive crypto it.tx).Edge (it'.tx.getHash crypto) c := by
      intro it' hit'
      rcases hits.2 it' hit' with hmem | hnone
      · by_cases hreach : pool.Reaches (it.tx.getHash crypto) (it'.tx.getHash crypto)
        · exact .inr fun c hc => (hkeeps.edge.mp hc).2 (hreach.tail (hkeeps.edge.mp hc).1)
        · exact .inl (hkeeps.mem.mpr ⟨hmem, hreach⟩)
      · exact .inr fun c hc => hnone c (hkeeps.edge.mp hc).1
    intro x e
    rw [List.foldl_cons, ih (hwired'.congr fun p c => ?_) hrest, hkeeps]
    · simp only [List.forall_mem_cons, and_assoc]
      refine and_congr_right fun _ => and_congr_right fun hx => forall₂_congr fun it' _ => ?_
      rw [reaches_iff_of_keeps hkeeps hx]
    · have hc : pool.Edge p c → c ∈ pool.mapTx := Edge.mem
      rw [hkeeps.edge, hkeeps.mem, hkeeps.mem]
      tauto

end

/-! ## What is left -/

/-- The output at an outpoint is one of a confirmed coinbase or coinstake that is not deep enough. -/
def Immature (p : Params) (view : CoinsView) (nMemPoolHeight : ℕ) (o : COutPoint) : Prop :=
  (∃ out, view.output o = some out) ∧ (view.coinsAt o.hash).isImmature p nMemPoolHeight = true

/-- No transaction of the pool spends an output of a confirmed coinbase or coinstake that is not deep
enough, or an output that is in neither the coins nor the pool. -/
def NoImmatureSpends (p : Params) (view : CoinsView) (nMemPoolHeight : ℕ) (pool : CTxMemPool) : Prop :=
  ∀ id e, pool.mapTx.lookup id = some e → ∀ txin ∈ e.tx.vin,
    ¬ Immature p view nMemPoolHeight txin.prevout ∧ Funded view pool txin.prevout

/-- The transaction is not final any more, or it spends an output of a coinbase and one that is not
deep enough. -/
def Swept (p : Params) (view : CoinsView) (nMemPoolHeight : ℕ) (final : CTxMemPoolEntry → Bool)
    (e : CTxMemPoolEntry) : Prop :=
  final e = false ∨ ((∃ txin ∈ e.tx.vin, SpendsCoinBase view txin.prevout) ∧
    ∃ txin ∈ e.tx.vin, Immature p view nMemPoolHeight txin.prevout)

/-- Every transaction that spends an output of a coinstake that is not deep enough is swept or depends
on one that is. -/
def StakesSwept (p : Params) (view : CoinsView) (nMemPoolHeight : ℕ) (final : CTxMemPoolEntry → Bool)
    (pool : CTxMemPool) : Prop :=
  ∀ id e, pool.mapTx.lookup id = some e →
    (∃ txin ∈ e.tx.vin, Immature p view nMemPoolHeight txin.prevout ∧
      (view.coinsAt txin.prevout.hash).fCoinStake = true) →
    ∃ a ea, pool.mapTx.lookup a = some ea ∧ Swept p view nMemPoolHeight final ea ∧ pool.Reaches a id

section

variable {crypto : Crypto} {keys : PubKeys} {p : Params} {view : CoinsView} {pool : CTxMemPool}
  {nMemPoolHeight : ℕ} {final : CTxMemPoolEntry → Bool}

/-- In a pool that fits the coins the sweep collects what the coins say. -/
theorem Coherent.isOutdated_iff (h : Coherent crypto view pool) {id : Uint256} {e : CTxMemPoolEntry}
    (he : pool.mapTx.lookup id = some e) :
    pool.isOutdated p view nMemPoolHeight final e = true ↔ Swept p view nMemPoolHeight final e := by
  simp only [isOutdated, Bool.or_eq_true, Bool.not_eq_true', Bool.and_eq_true, List.any_eq_true,
    h.flagged id e he, Swept]
  refine or_congr_right (and_congr_right fun _ => exists_congr fun txin =>
    and_congr_right fun hin => ?_)
  by_cases hmem : txin.prevout.hash ∈ pool.mapTx
  · rw [if_pos hmem]
    refine iff_of_false Bool.false_ne_true ?_
    rintro ⟨⟨out, hout⟩, -⟩
    cases hout.symm.trans (CoinsView.output_of_coinsAt (h.unconfirmed _ hmem _))
  · rw [if_neg hmem]
    rcases h.funded id e he txin hin with ⟨e', -, he', -⟩ | ⟨out, hout⟩
    · exact absurd (mem_of_lookup he') hmem
    · obtain ⟨c, hc, -⟩ := Option.bind_eq_some_iff.mp hout
      rw [Immature, CoinsView.coinsAt_of_accessCoins hc, hc]
      exact (and_iff_right ⟨out, hout⟩).symm

theorem Coherent.lookup_removeForReorg (h : Coherent crypto view pool) (x : Uint256)
    (e : CTxMemPoolEntry) :
    (pool.removeForReorg crypto p view nMemPoolHeight final).mapTx.lookup x = some e ↔
      pool.mapTx.lookup x = some e ∧ ∀ a ea, pool.mapTx.lookup a = some ea →
        Swept p view nMemPoolHeight final ea → ¬ pool.Reaches a x := by
  have hmem : ∀ it, it ∈ (pool.mapTx.entries.map fun it => it.2).filter
      (pool.isOutdated p view nMemPoolHeight final) ↔
      ∃ a, pool.mapTx.lookup a = some it ∧ Swept p view nMemPoolHeight final it := by
    intro it
    simp only [List.mem_filter, List.mem_map]
    constructor
    · rintro ⟨⟨⟨a, it⟩, hentry, rfl⟩, hout⟩
      have ha := AList.mem_lookup_iff.mpr hentry
      exact ⟨a, ha, (h.isOutdated_iff ha).mp hout⟩
    · rintro ⟨a, ha, hswept⟩
      exact ⟨⟨⟨a, it⟩, AList.mem_lookup_iff.mp ha, rfl⟩, (h.isOutdated_iff ha).mpr hswept⟩
  have hits : ∀ it ∈ (pool.mapTx.entries.map fun it => it.2).filter
      (pool.isOutdated p view nMemPoolHeight final), it.tx.getHash crypto ∈ pool.mapTx ∨
        ∀ c, ¬ pool.Edge (it.tx.getHash crypto) c := by
    intro it hit
    obtain ⟨a, ha, -⟩ := (hmem it).mp hit
    rw [h.wired.ids a it ha]
    exact .inl (mem_of_lookup ha)
  rw [removeForReorg, foldl_removeRecursive h.wired hits]
  refine and_congr_right fun _ => ⟨fun hno a ea ha hswept => ?_, fun hno it hit => ?_⟩
  · rw [← h.wired.ids a ea ha]
    exact hno ea ((hmem ea).mpr ⟨a, ha, hswept⟩)
  · obtain ⟨a, ha, hswept⟩ := (hmem it).mp hit
    rw [h.wired.ids a it ha]
    exact hno a it ha hswept

theorem Coherent.funded_removeForReorg (h : Coherent crypto view pool) {x : Uint256}
    {e : CTxMemPoolEntry}
    (he : (pool.removeForReorg crypto p view nMemPoolHeight final).mapTx.lookup x = some e)
    {txin : CTxIn} (hin : txin ∈ e.tx.vin) :
    Funded view (pool.removeForReorg crypto p view nMemPoolHeight final) txin.prevout := by
  obtain ⟨he, hno⟩ := (h.lookup_removeForReorg x e).mp he
  rcases h.funded x e he txin hin with ⟨e', out, he', hout⟩ | hview
  · refine .inl ⟨e', out, (h.lookup_removeForReorg _ e').mpr ⟨he', fun a ea ha hswept hreach => ?_⟩,
      hout⟩
    exact hno a ea ha hswept (hreach.tail ⟨e, he, txin, hin, rfl⟩)
  · exact .inr hview

/-- A pool that fits the coins has no immature spends after the sweep exactly if its spends of
immature coinstakes are swept. -/
theorem Coherent.noImmatureSpends_iff (h : Coherent crypto view pool) :
    NoImmatureSpends p view nMemPoolHeight
      (pool.removeForReorg crypto p view nMemPoolHeight final) ↔
      StakesSwept p view nMemPoolHeight final pool := by
  constructor
  · rintro hno id e he ⟨txin, hin, himm, -⟩
    by_contra hleft
    simp only [not_exists, not_and] at hleft
    exact (hno id e ((h.lookup_removeForReorg id e).mpr ⟨he, hleft⟩) txin hin).1 himm
  · intro hstakes id e he txin hin
    refine ⟨fun himm => ?_, h.funded_removeForReorg he hin⟩
    obtain ⟨he, hleft⟩ := (h.lookup_removeForReorg id e).mp he
    by_cases hcb : (view.coinsAt txin.prevout.hash).fCoinBase = true
    · exact hleft id e he (.inr ⟨⟨txin, hin, himm.1, hcb⟩, txin, hin, himm⟩) .refl
    · have hgen := himm.2
      simp only [CCoins.isImmature, Bool.and_eq_true, Bool.or_eq_true] at hgen
      obtain ⟨a, ea, ha, hswept, hreach⟩ :=
        hstakes id e he ⟨txin, hin, himm, hgen.1.resolve_left hcb⟩
      exact hleft a ea ha hswept hreach

theorem Coherent.disconnectTips {blocks : List TipBlock} {s s' : CoinsView × CTxMemPool}
    (h : Coherent crypto s.1 s.2) (hs : s.1.Spendable)
    (hundo : ∀ b ∈ blocks, SpendableUndo crypto keys b.pprev b.undoData)
    (hchain : Chronological crypto (blocks.map fun b => b.block))
    (hnew : Unconfirmed crypto s.2 (blocks.map fun b => b.block))
    (hd : blocks.foldlM (TipBlock.disconnectTip crypto keys) s = some s') :
    Coherent crypto s'.1 s'.2 := by
  induction blocks generalizing s with
  | nil =>
    obtain rfl : s = s' := by simpa using hd
    exact h
  | cons b blocks ih =>
    rw [List.foldlM_cons, Option.bind_eq_bind, Option.bind_eq_some_iff] at hd
    obtain ⟨s₁, h₁, hd⟩ := hd
    rw [List.forall_mem_cons] at hundo
    obtain ⟨hcoherent, hspend, hnew'⟩ := h.disconnectTip hs hundo.1 hchain hnew h₁
    exact ih hcoherent hspend hundo.2 hchain.2.2.2 hnew' hd

theorem Coherent.removeRecursive (h : Coherent crypto view pool) {tx : CTransaction}
    (htx : tx.getHash crypto ∈ pool.mapTx) :
    Coherent crypto view (pool.removeRecursive crypto tx) ∧
      ∀ id ∈ (pool.removeRecursive crypto tx).mapTx, id ∈ pool.mapTx := by
  obtain ⟨hkeeps, hwired⟩ :=
    h.wired.removeRecursive (fun p c hp _ hedge => ⟨hp, hedge⟩) (absurd htx ·)
  have hold := fun id e he => ((hkeeps id e).mp he).1
  refine ⟨⟨hwired.congr fun p c => ?_, fun id e he => h.ordinary id e (hold id e he),
    fun id e he txin hin => ?_, fun id hid => h.unconfirmed id (hkeeps.mem.mp hid).1,
    fun id e he => h.flagged id e (hold id e he)⟩, fun id hid => (hkeeps.mem.mp hid).1⟩
  · have hc : pool.Edge p c → c ∈ pool.mapTx := Edge.mem
    rw [hkeeps.edge, hkeeps.mem, hkeeps.mem]
    tauto
  · -- What spends an entry that is removed is removed with it.
    refine (h.funded id e (hold id e he) txin hin).imp_left ?_
    rintro ⟨e', out, he', hout⟩
    refine ⟨e', out, (hkeeps _ _).mpr ⟨he', fun hreach => ((hkeeps _ _).mp he).2 ?_⟩, hout⟩
    exact hreach.tail ⟨e, hold id e he, txin, hin, rfl⟩

/-- The coins, the pool and the blocks below, after any accepts, removals and disconnected tips. -/
inductive PoolRun (crypto : Crypto) (keys : PubKeys) : CoinsView × CTxMemPool → List CBlock → Prop
  | start {view chain} : view.Spendable → Chronological crypto chain →
      PoolRun crypto keys (view, .empty) chain
  | accept {s pool chain policy nSpendHeight tx} : PoolRun crypto keys s chain →
      acceptToMemoryPool crypto policy nSpendHeight s.1 s.2 tx = some pool →
      Unconfirmed crypto pool chain → PoolRun crypto keys (s.1, pool) chain
  | remove {s chain tx} : PoolRun crypto keys s chain → tx.getHash crypto ∈ s.2.mapTx →
      PoolRun crypto keys (s.1, s.2.removeRecursive crypto tx) chain
  | disconnect {s s' chain} {b : TipBlock} : PoolRun crypto keys s (b.block :: chain) →
      SpendableUndo crypto keys b.pprev b.undoData → b.disconnectTip crypto keys s = some s' →
      PoolRun crypto keys s' chain

/-- The pool always fits the coins. -/
theorem PoolRun.fits_coins {s : CoinsView × CTxMemPool} {chain : List CBlock}
    (h : PoolRun crypto keys s chain) : Coherent crypto s.1 s.2 ∧ s.1.Spendable ∧
      Chronological crypto chain ∧ Unconfirmed crypto s.2 chain := by
  induction h with
  | start hs hchain =>
    exact ⟨coherent_empty _ _, hs, hchain, fun b _ tx _ id hid => absurd hid (by simp [empty])⟩
  | accept _ haccept hnew ih => exact ⟨ih.1.accept haccept, ih.2.1, ih.2.2.1, hnew⟩
  | remove _ htx ih =>
    obtain ⟨hcoherent, hsub⟩ := ih.1.removeRecursive htx
    exact ⟨hcoherent, ih.2.1, ih.2.2.1,
      fun b hb tx hmem id hid => ih.2.2.2 b hb tx hmem id (hsub id hid)⟩
  | disconnect _ hundo hd ih =>
    obtain ⟨hcoherent, hs, hnew⟩ := ih.1.disconnectTip ih.2.1 hundo ih.2.2.1 ih.2.2.2 hd
    exact ⟨hcoherent, hs, ih.2.2.1.2.2.2, hnew⟩

end

/-! ## A coinstake that matured with the last block

The regression test network with the coinstake `stakeTx 0` at some height, the block at height 20 as
its tip, and a transaction in the pool that spends the coinstake. -/

instance : DecidableEq CoinsView := fun a b =>
  decidable_of_iff (a.coins.entries = b.coins.entries ∧ a.hashBlock = b.hashBlock) (by
    cases a
    cases b
    rw [CoinsView.mk.injEq, AList.ext_iff])

instance : DecidableEq CTxMemPool := fun a b =>
  decidable_of_iff (a.mapTx.entries = b.mapTx.entries ∧ a.mapNextTx.entries = b.mapNextTx.entries ∧
      a.mapLinks.entries = b.mapLinks.entries) (by
    cases a
    cases b
    rw [CTxMemPool.mk.injEq, AList.ext_iff, AList.ext_iff, AList.ext_iff])

theorem CoinsView.spendable_of_entries {view : CoinsView}
    (h : ∀ c ∈ view.coins.entries, ∀ o ∈ c.2.vout, o.isNull = false → o.isUnspendable = false) :
    view.Spendable := by
  intro txid n o ho
  cases hc : view.accessCoins txid with
  | none =>
    rw [CoinsView.coinsAt, hc] at ho
    cases ho
  | some c =>
    rw [CoinsView.coinsAt_of_accessCoins hc] at ho
    obtain ⟨hget, hnull⟩ := CCoins.output_eq_some.mp ho
    exact h ⟨txid, c⟩ (AList.mem_lookup_iff.mp hc) o (List.mem_of_getElem? hget) hnull

/-- The transaction in the pool. -/
def stakeSpend : CTransaction where
  nVersion := 1
  nTime := regTestTime 20
  vin := [⟨⟨(stakeRow 0).coinStake, 1⟩, [], 0xffffffff⟩]
  vout := [⟨11000000 * COIN, [OP_1]⟩]
  nLockTime := 0

def stakeSpendTxid : Uint256 := 0xc22ec2cf1adb4f3e707ed5472cc4da96f21ae9ba3c44c4f3b3010797269da0ef

def stakeSpendCrypto : Crypto :=
  { stakeCrypto 0 with
    hash256 := fun bytes =>
      if bytes = stakeSpend.serialize then stakeSpendTxid else (stakeCrypto 0).hash256 bytes
    verifyScript := fun _ _ _ _ _ => .ok () }

/-- The coins with the coinstake at height `h`. -/
def stakeCoins (h : ℕ) : CoinsView where
  coins := ((∅ : AList fun _ : Uint256 => CCoins).insert (stakeRow 0).coinStake
    (CCoins.fromTx (stakeTx 0) h)).insert (regTestRow 20).txid (CCoins.fromTx (regTestCoinBase 20) 20)
  hashBlock := (regTestRow 20).hash

/-- The coins when the tip is disconnected. -/
def stakeCoinsBelow (h : ℕ) : CoinsView where
  coins := ((∅ : AList fun _ : Uint256 => CCoins).insert (stakeRow 0).coinStake
    (CCoins.fromTx (stakeTx 0) h)).insert (regTestRow 20).txid {}
  hashBlock := (regTestRow 19).hash

def stakePolicy : Policy := fun _ _ _ => true

def stakePool : CTxMemPool := CTxMemPool.empty.addUnchecked stakeSpendTxid ⟨stakeSpend, false⟩

def stakeTip : TipBlock where
  block := regTestBlock 20
  pindex := { CBlockIndex.ofHeader (regTestRow 20).hash (regTestBlock 20).toCBlockHeader with
    nHeight := 20 }
  undoData := undoWriteToDisk stakeSpendCrypto PubKeys.none (regTestRow 19).hash []
  pprev := { CBlockIndex.ofHeader (regTestRow 19).hash (regTestBlock 19).toCBlockHeader with
    nHeight := 19 }
  policy := stakePolicy

theorem stakePool_coherent {h : ℕ}
    (haccept : acceptToMemoryPool stakeSpendCrypto stakePolicy 21 (stakeCoins h) CTxMemPool.empty
      stakeSpend = some stakePool) : Coherent stakeSpendCrypto (stakeCoins h) stakePool :=
  (coherent_empty _ _).accept haccept

theorem stakeTip_spendableUndo :
    SpendableUndo stakeSpendCrypto PubKeys.none stakeTip.pprev stakeTip.undoData := by
  intro blockUndo rest hread
  have hnil : (undoReadFromDisk stakeSpendCrypto PubKeys.none stakeTip.pprev.hash).run
      stakeTip.undoData = some ([], []) := by decide +kernel
  obtain ⟨rfl, -⟩ := Prod.mk.inj (Option.some.inj (hnil.symm.trans hread))
  simp

theorem regTestCoinBase_not_spends (h : ℕ) (txid : Uint256) : ¬ (regTestCoinBase h).Spends txid := by
  rintro ⟨hcb, -⟩
  cases hcb

theorem stakeTip_chronological : Chronological stakeSpendCrypto [stakeTip.block] :=
  ⟨⟨fun _ _ => regTestCoinBase_not_spends 20 _, by simp, trivial⟩, by simp [stakeTip, regTestBlock],
    by simp, trivial⟩

theorem stakeTip_vtx : stakeTip.block.vtx = [regTestCoinBase 20] := by
  rw [stakeTip, regTestBlock]

theorem stakeTip_unconfirmed : Unconfirmed stakeSpendCrypto stakePool [stakeTip.block] := by
  have hkeys : stakePool.mapTx.keys = [stakeSpendTxid] := by decide +kernel
  have hhash : (regTestCoinBase 20).getHash stakeSpendCrypto = (regTestRow 20).txid := by
    decide +kernel
  have hne : (regTestRow 20).txid ≠ stakeSpendTxid := by decide +kernel
  intro b hb tx htx id hid
  rw [List.mem_singleton.mp hb, stakeTip_vtx, List.mem_singleton] at htx
  rw [AList.mem_keys, hkeys, List.mem_singleton] at hid
  rw [htx, hid, hhash]
  exact ⟨hne, regTestCoinBase_not_spends 20 _⟩

theorem stakeTip_disconnects {h : ℕ}
    (hblock : disconnectBlock stakeSpendCrypto PubKeys.none stakeTip.block stakeTip.pprev
      stakeTip.pindex stakeTip.undoData (stakeCoins h) = some (stakeCoinsBelow h, true)) :
    [stakeTip].foldlM (TipBlock.disconnectTip stakeSpendCrypto PubKeys.none)
      (stakeCoins h, stakePool) = some (stakeCoinsBelow h, stakePool) := by
  have hremove : stakePool.removeRecursive stakeSpendCrypto (regTestCoinBase 20) = stakePool := by
    decide +kernel
  have hloop : stakeTip.block.vtx.foldl (resurrect stakeSpendCrypto stakeTip.policy
      (stakeTip.pprev.nHeight + 1) (stakeCoinsBelow h)) (stakePool, []) = (stakePool, []) := by
    rw [stakeTip_vtx, List.foldl_cons, List.foldl_nil, resurrect, if_pos (.inl rfl), hremove]
  have hstep : stakeTip.disconnectTip stakeSpendCrypto PubKeys.none (stakeCoins h, stakePool) =
      some (stakeCoinsBelow h, stakePool) := by
    rw [TipBlock.disconnectTip, hblock, Option.bind_eq_bind, Option.bind_some]
    simp only [hloop, if_true]
    rfl
  rw [List.foldlM_cons, hstep]
  rfl

/-- A transaction is accepted, then the tip disconnected. -/
theorem stakePool_poolRun : Coherent stakeSpendCrypto (stakeCoinsBelow 10) stakePool := by
  have haccept : acceptToMemoryPool stakeSpendCrypto stakePolicy 21 (stakeCoins 10)
      CTxMemPool.empty stakeSpend = some stakePool := by decide +kernel
  have hstart : PoolRun stakeSpendCrypto PubKeys.none (stakeCoins 10, .empty) [stakeTip.block] :=
    .start (CoinsView.spendable_of_entries (by decide +kernel)) stakeTip_chronological
  exact (PoolRun.fits_coins (.disconnect (hstart.accept haccept stakeTip_unconfirmed)
    stakeTip_spendableUndo (by simpa using stakeTip_disconnects (by decide +kernel)))).1

/-! ## The property -/

/-- After any number of `DisconnectTip` and `removeForReorg`, the pool has no immature spends exactly
if every spend of an immature coinstake is swept. -/
theorem reorganisation_noImmatureSpends_iff {crypto : Crypto} {keys : PubKeys}
    {blocks : List TipBlock} {s s' : CoinsView × CTxMemPool}
    (h : Coherent crypto s.1 s.2) (hs : s.1.Spendable)
    (hundo : ∀ b ∈ blocks, SpendableUndo crypto keys b.pprev b.undoData)
    (hchain : Chronological crypto (blocks.map fun b => b.block))
    (hnew : Unconfirmed crypto s.2 (blocks.map fun b => b.block))
    (hd : blocks.foldlM (TipBlock.disconnectTip crypto keys) s = some s')
    (p : Params) (nMemPoolHeight : ℕ) (final : CTxMemPoolEntry → Bool) :
    NoImmatureSpends p s'.1 nMemPoolHeight
      (s'.2.removeForReorg crypto p s'.1 nMemPoolHeight final) ↔
      StakesSwept p s'.1 nMemPoolHeight final s'.2 :=
  (h.disconnectTips hs hundo hchain hnew hd).noImmatureSpends_iff

/-- At height 10 the coinstake is still deep enough after the block is disconnected. -/
theorem deepStake_noImmatureSpends :
    [stakeTip].foldlM (TipBlock.disconnectTip stakeSpendCrypto PubKeys.none)
        (stakeCoins 10, stakePool) = some (stakeCoinsBelow 10, stakePool) ∧
      NoImmatureSpends regTestParams (stakeCoinsBelow 10) 20
        (stakePool.removeForReorg stakeSpendCrypto regTestParams (stakeCoinsBelow 10) 20
          fun _ => true) := by
  have hd : [stakeTip].foldlM (TipBlock.disconnectTip stakeSpendCrypto PubKeys.none)
      (stakeCoins 10, stakePool) = some (stakeCoinsBelow 10, stakePool) :=
    stakeTip_disconnects (by decide +kernel)
  have hdeep : ∀ e ∈ stakePool.mapTx.entries, ∀ txin ∈ e.2.tx.vin,
      ((stakeCoinsBelow 10).coinsAt txin.prevout.hash).isImmature regTestParams 20 = false := by
    decide +kernel
  refine ⟨hd, (reorganisation_noImmatureSpends_iff (stakePool_coherent (by decide +kernel))
    (CoinsView.spendable_of_entries (by decide +kernel)) (by simpa using stakeTip_spendableUndo)
    stakeTip_chronological stakeTip_unconfirmed hd regTestParams 20 _).mpr ?_⟩
  rintro id e he ⟨txin, hin, himm, -⟩
  exact absurd himm.2 (Bool.eq_false_iff.mp (hdeep ⟨id, e⟩ (AList.mem_lookup_iff.mp he) txin hin))

/-- At height 11 it is not, and the transaction stays in the pool. -/
theorem maturingStake_immatureSpends :
    Coherent stakeSpendCrypto (stakeCoins 11) stakePool ∧ (stakeCoins 11).Spendable ∧
      SpendableUndo stakeSpendCrypto PubKeys.none stakeTip.pprev stakeTip.undoData ∧
      Chronological stakeSpendCrypto [stakeTip.block] ∧
      Unconfirmed stakeSpendCrypto stakePool [stakeTip.block] ∧
      [stakeTip].foldlM (TipBlock.disconnectTip stakeSpendCrypto PubKeys.none)
        (stakeCoins 11, stakePool) = some (stakeCoinsBelow 11, stakePool) ∧
      ¬ NoImmatureSpends regTestParams (stakeCoinsBelow 11) 20
        (stakePool.removeForReorg stakeSpendCrypto regTestParams (stakeCoinsBelow 11) 20
          fun _ => true) := by
  have hstays : (stakePool.removeForReorg stakeSpendCrypto regTestParams (stakeCoinsBelow 11) 20
      fun _ => true).mapTx.lookup stakeSpendTxid = some ⟨stakeSpend, false⟩ := by
    decide +kernel
  have hout : ((stakeCoinsBelow 11).output ⟨(stakeRow 0).coinStake, 1⟩).isSome = true := by
    decide +kernel
  refine ⟨stakePool_coherent (by decide +kernel), CoinsView.spendable_of_entries (by decide +kernel),
    stakeTip_spendableUndo, stakeTip_chronological, stakeTip_unconfirmed,
    stakeTip_disconnects (by decide +kernel), fun hno => ?_⟩
  exact (hno _ _ hstays _ List.mem_cons_self).1
    ⟨Option.isSome_iff_exists.mp hout, by decide +kernel⟩

end X2XCoin
