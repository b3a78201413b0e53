import X2XCoin.Node.Reorganization
import X2XCoin.Wallet.CoinStake

/-!
# The stake cache

`CacheKernel` and `CheckKernel` of `pos.cpp` beside a node whose chain changes.  `GetTransaction`
looks into the mempool, the transaction index and the block that the coins view names; the first two
may have any contents.
-/

namespace X2XCoin

namespace Wallet

/-- A node with a wallet that stakes. -/
structure Staker where
  running : Running
  mempool : List CTransaction := []
  /-- What `ReadTxIndex` finds: a transaction and the hash of its block. -/
  txIndex : Uint256 → Option (CTransaction × Uint256) := fun _ => none
  stakeCache : StakeCache := ∅

inductive StakerOp
  | node (op : NodeOp)
  | views (mempool : List CTransaction) (txIndex : Uint256 → Option (CTransaction × Uint256))
  | cacheKernel (pindexPrev : CBlockIndex) (prevout : COutPoint)
  | clear

namespace Staker

/-- `GetTransaction` with `fAllowSlow`. -/
def getTransaction (crypto : Crypto) (s : Staker) (hash : Uint256) :
    Option (CTransaction × Uint256) :=
  match s.mempool.find? fun tx => tx.getHash crypto = hash with
  | some tx => some (tx, 0)
  | none =>
    match s.txIndex hash with
    | some found => if found.1.getHash crypto = hash then some found else none
    | none => do
      let coins ← s.running.pcoinsTip.accessCoins hash
      if coins.nHeight = 0 then none
      else
        let hashBlock ← s.running.chainActive.reverse[coins.nHeight]?
        let block ← s.running.blockFiles.lookup hashBlock
        let tx ← block.vtx.find? fun tx => tx.getHash crypto = hash
        pure (tx, hashBlock)

variable (base : StakeEnv) (keys : PubKeys)

/-- What `CacheKernel` and `CheckKernel` read. -/
def env (s : Staker) (pindexPrev : CBlockIndex) : StakeEnv :=
  { base with
    getTransaction := s.getTransaction base.crypto
    blockHeight := fun hash => (s.running.lookup hash).map fun i => (i.nHeight : ℤ)
    pindexPrev := pindexPrev }

def step (s : Staker) : StakerOp → Staker
  | .node op => { s with running := s.running.step base.crypto keys base.p op }
  | .views mempool txIndex => { s with mempool := mempool, txIndex := txIndex }
  | .cacheKernel pindexPrev prevout =>
    { s with stakeCache := Wallet.cacheKernel (s.env base pindexPrev) s.stakeCache prevout }
  | .clear => { s with stakeCache := ∅ }

def start (genesis : CBlock) : Staker := { running := Running.start base.p genesis }

/-- The transactions that are found have the ids that name them. -/
def Named (txOf : Uint256 → CTransaction) (s : Staker) : Prop :=
  ∀ hash tx hashBlock, s.getTransaction base.crypto hash = some (tx, hashBlock) → tx = txOf hash

/-- The cache has no influence on `CheckKernel`. -/
def Transparent (s : Staker) (pindexPrev : CBlockIndex) : Prop :=
  ∀ nBits nTime prevout, checkKernel (s.env base pindexPrev) s.stakeCache nBits nTime prevout =
    checkKernel (s.env base pindexPrev) ∅ nBits nTime prevout

/-- The kernel of an output fails for every target and time. -/
def NeverPasses (pindexPrev : CBlockIndex) (prevout : COutPoint) (tx : CTransaction) : Prop :=
  ∀ nBits nTime, checkStakeKernelHash base.crypto pindexPrev nBits
    (CCoins.fromTx tx pindexPrev.nHeight) prevout nTime = .ok false

/-! ## The cached transactions -/

section

variable {base keys} {s : Staker} {txOf : Uint256 → CTransaction} {pindexPrev : CBlockIndex}
  {prevout : COutPoint} {tx : CTransaction}

/-- The cached transactions have the ids that name them. -/
def CacheNamed (txOf : Uint256 → CTransaction) (s : Staker) : Prop :=
  ∀ prevout tx, s.stakeCache.lookup prevout = some tx → tx = txOf prevout.hash

theorem Named.of_findStakeTx (h : s.Named base txOf)
    (hfind : findStakeTx (s.env base pindexPrev) prevout = some tx) : tx = txOf prevout.hash := by
  unfold findStakeTx at hfind
  split at hfind
  · cases hfind
  · rename_i txPrev hashBlock hget
    split at hfind
    · cases hfind
    · split_ifs at hfind
      cases hfind
      exact h _ _ _ hget

theorem CacheNamed.step (h : CacheNamed txOf s) (op : StakerOp) (hnamed : s.Named base txOf) :
    CacheNamed txOf (s.step base keys op) := by
  cases op with
  | node op => exact h
  | views mempool txIndex => exact h
  | clear => exact fun prevout tx hlookup => nomatch hlookup
  | cacheKernel pindexPrev prevout =>
    intro prevout' tx hlookup
    change (Wallet.cacheKernel (s.env base pindexPrev) s.stakeCache prevout).lookup prevout' =
      some tx at hlookup
    unfold Wallet.cacheKernel at hlookup
    split at hlookup
    · exact h _ _ hlookup
    · split at hlookup
      · exact h _ _ hlookup
      · rename_i txPrev hfind
        by_cases heq : prevout' = prevout
        · rw [heq, AList.lookup_insert] at hlookup
          rw [heq, ← Option.some.inj hlookup]
          exact hnamed.of_findStakeTx hfind
        · rw [AList.lookup_insert_ne heq] at hlookup
          exact h _ _ hlookup

theorem checkKernel_of_lookup {cache : StakeCache} (hlookup : cache.lookup prevout = some tx)
    (nBits nTime : UInt32) :
    checkKernel (s.env base pindexPrev) cache nBits nTime prevout =
      checkStakeKernelHash base.crypto pindexPrev nBits (CCoins.fromTx tx pindexPrev.nHeight)
        prevout nTime := by
  rw [checkKernel, kernelTx, hlookup]
  rfl

theorem checkKernel_empty (nBits nTime : UInt32) :
    checkKernel (s.env base pindexPrev) ∅ nBits nTime prevout =
      match findStakeTx (s.env base pindexPrev) prevout with
      | none => .ok false
      | some tx => checkStakeKernelHash base.crypto pindexPrev nBits
          (CCoins.fromTx tx pindexPrev.nHeight) prevout nTime := rfl

end

/-- A staker of the regression test network. -/
def regTestEnv : StakeEnv :=
  { twoPaymentsEnv with crypto := Running.staleCrypto, p := regTestParams }

/-- The entry of the block at height 10. -/
def tenthIndex : CBlockIndex :=
  { CBlockIndex.ofHeader (regTestRow 10).hash (regTestBlock 10).toCBlockHeader with nHeight := 10 }

/-- The output of the first coinbase. -/
def premine : COutPoint := ⟨(regTestRow 1).txid, 0⟩

theorem named_of_mempool (tx : CTransaction) {s : Staker} (hmempool : ∀ t ∈ s.mempool, t = tx)
    (hindex : ∀ hash, s.txIndex hash = none) (hcoins : s.running.pcoinsTip.coins = ∅) :
    s.Named regTestEnv fun _ => tx := by
  intro hash found hashBlock hget
  unfold getTransaction at hget
  split at hget
  · rename_i t hfind
    cases hget
    exact hmempool _ (List.mem_of_find?_eq_some hfind)
  · rw [hindex] at hget
    simp [CoinsView.accessCoins, hcoins] at hget

/-- Ten blocks are connected, the output of the first coinbase is cached, and a block at height 1
with more work disconnects them all. -/
def disconnectedOps : List StakerOp :=
  (deliver 1769820000 ((List.range 10).map fun h => regTestBlock (h + 1))).map .node ++
    [.cacheKernel tenthIndex premine, .node (.block 1769820000 Running.staleBlock true),
      .node (.activate 0 (some Running.staleBlock))]

end Staker

end Wallet

end X2XCoin
