import X2XCoin.Node.RegTest

/-!
# Access to the kernel

`ConnectBlock` calls `CheckStakeKernelHash` before it has looked whether the inputs of the block are
there.
-/

namespace X2XCoin

/-- The arguments of a call of `CheckStakeKernelHash`, without the bits. -/
structure KernelCall where
  pindexPrev : CBlockIndex
  txPrev : CCoins
  prevout : COutPoint
  nTimeTx : UInt32

/-- `ConnectBlock` up to the call of `CheckStakeKernelHash`, if it makes one. -/
def kernelCall (crypto : Crypto) (p : Params) (chainHeight : ℤ) (path : List CBlockIndex)
    (pindex : CBlockIndex) (view : CoinsView) (block : CBlock) (fJustCheck : Bool) :
    Check (Option KernelCall) := do
  checkBlock crypto p chainHeight block (!fJustCheck) (!fJustCheck) (!fJustCheck)
  ensure ((path.head?.map CBlockIndex.hash).getD 0 = view.hashBlock) .assertion
  if block.getHash crypto = p.hashGenesisBlock then pure none
  else
    let pprev ← orFail .outOfBounds path.head?
    ensure (block.nBits = getNextTargetRequired p path block.isProofOfStake)
      (dos 100 .invalid "bad-diffbits" false)
    match block.stakeKernel with
    | none => pure none
    | some (tx, prevout) =>
      if p.isProtocolV3 block.getBlockTime then
        let coins ← orFail (dos 100 .invalid "bad-cs-kernel" false) (view.accessCoins prevout.hash)
        ensure (¬ (pindex.nHeight : ℤ) - coins.nHeight < p.nCoinbaseMaturity)
          (dos 100 .invalid "bad-cs-premature" false)
        pure (some ⟨pprev, coins, prevout, tx.nTime⟩)
      else pure none

namespace KernelCall

/-- The value by which `CheckStakeKernelHash` weights the target, if it gets there. -/
def weight (c : KernelCall) : Option CAmount :=
  if c.nTimeTx < c.txPrev.nTime then none
  else (c.txPrev.vout[c.prevout.n.toNat]?.map CTxOut.nValue).filter fun v => v ≠ 0

/-- The output is there, is not null, and the weight is an amount. -/
structure Safe (c : KernelCall) : Prop where
  inBounds : c.prevout.n.toNat < c.txPrev.vout.length
  notNull : ∀ out, c.txPrev.vout[c.prevout.n.toNat]? = some out → out.isNull = false
  weight : ∀ v, c.weight = some v → 1 ≤ v.toInt ∧ v.toInt ≤ MAX_MONEY.toInt

/-- The output is unspent in the view, with an amount in range where it is used as a weight. -/
def Unspent (c : KernelCall) (view : CoinsView) : Prop :=
  ∃ out, view.output c.prevout = some out ∧ (c.txPrev.nTime ≤ c.nTimeTx → moneyRange out.nValue = true)

end KernelCall

section

variable {crypto : Crypto} {p : Params} {chainHeight : ℤ} {fScriptChecks fJustCheck : Bool}
  {path : List CBlockIndex} {pindex : CBlockIndex} {view : CoinsView} {block : CBlock} {c : KernelCall}

theorem kernelCall_ok
    (h : kernelCall crypto p chainHeight path pindex view block fJustCheck = .ok (some c)) :
    checkBlock crypto p chainHeight block (!fJustCheck) (!fJustCheck) (!fJustCheck) = .ok () ∧
      (path.head?.map CBlockIndex.hash).getD 0 = view.hashBlock ∧
      block.getHash crypto ≠ p.hashGenesisBlock ∧ path.head? = some c.pindexPrev ∧
      block.nBits = getNextTargetRequired p path block.isProofOfStake ∧
      (∃ tx, block.stakeKernel = some (tx, c.prevout) ∧ c.nTimeTx = tx.nTime) ∧
      p.isProtocolV3 block.getBlockTime = true ∧
      view.accessCoins c.prevout.hash = some c.txPrev ∧
      ¬ (pindex.nHeight : ℤ) - c.txPrev.nHeight < p.nCoinbaseMaturity := by
  simp only [kernelCall, check_bind_eq_ok, ensure_eq_ok] at h
  obtain ⟨_, hcheck, _, hview, h⟩ := h
  by_cases hgen : block.getHash crypto = p.hashGenesisBlock
  · rw [if_pos hgen] at h
    cases h
  rw [if_neg hgen] at h
  simp only [check_bind_eq_ok, orFail_eq_ok, ensure_eq_ok] at h
  obtain ⟨pprev, hpprev, _, hbits, h⟩ := h
  cases hkernel : block.stakeKernel with
  | none =>
    rw [hkernel] at h
    cases h
  | some kernel =>
    obtain ⟨tx, prevout⟩ := kernel
    by_cases hv3 : p.isProtocolV3 block.getBlockTime = true
    · simp only [hkernel, hv3, if_true, check_bind_eq_ok, orFail_eq_ok, ensure_eq_ok,
        check_pure_eq_ok] at h
      obtain ⟨coins, hcoins, _, hdepth, hc⟩ := h
      obtain rfl := Option.some.inj hc
      exact ⟨hcheck, hview, hgen, hpprev, hbits, ⟨tx, rfl, rfl⟩, hv3, hcoins, hdepth⟩
    · simp only [hkernel, hv3] at h
      cases h

end

namespace Running

/-- The first ten blocks of the chain, and a block that stakes output `n` of the premine. -/
def stakeOps (n : UInt32) : List NodeOp :=
  deliver 1769820000 ((List.range 10).map fun h => regTestBlock (h + 1)) ++
    [.block 1769820000 (stakeBlock n) true]

def stakeRun (n : UInt32) : Running :=
  (stakeOps n).foldl (step (stakeCrypto n) PubKeys.none regTestParams) (start regTestParams regTestGenesis)

/-- The call that `ConnectBlock` makes for the staked block. -/
def stakeRunCall (n : UInt32) : Check (Option KernelCall) :=
  let r := stakeRun n
  match r.lookup (stakeRow n).hash with
  | none => pure none
  | some pindex =>
    kernelCall (stakeCrypto n) regTestParams r.height (r.path (regTestRow 10).hash) pindex.toCBlockIndex
      r.pcoinsTip (stakeBlock n) false

end Running

end X2XCoin
