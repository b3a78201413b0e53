import X2XCoin.Coins.Output
import X2XCoin.Consensus.Pos
import X2XCoin.Primitives.Amount
import X2XCoin.Validation.CheckBlock

/-!
# Connecting a block

`Consensus::CheckTxInputs`, `CheckInputs` and `ConnectBlock` of `main.cpp`, and the two subsidy
functions.  `chainHeight` is `chainActive.Height()`, `path` is the previous entry of the index with
its ancestors, and `fScriptChecks` says that the block is not below a checkpoint.

`CheckTxInputs` stands in `namespace Consensus`, where `Params()` constructs a `Consensus::Params`
instead of calling the function of that name; the maturity it tests against is that of
`Params.default`.
-/

open ByteCodec

namespace X2XCoin

/-! ## Subsidies -/

def getProofOfWorkSubsidy (chainHeight : ℤ) : CAmount :=
  let nBlockHeight := chainHeight + 1
  if nBlockHeight = 1 then 11000000 * COIN
  else if 1 < nBlockHeight ∧ nBlockHeight ≤ 110010 then 100 * COIN
  else 1 * COIN

/-- The steps of the proof-of-stake subsidy: the last height of a step and its coins. -/
def stakeSubsidySteps : List (ℤ × CAmount) :=
  [(262800, 100), (525600, 200), (788400, 550), (1051200, 1300), (1314000, 3250), (1576800, 8000),
   (1839600, 3500), (2102400, 4500), (2365200, 5600), (2628000, 7000), (2890800, 8800),
   (3153600, 11000), (3416400, 14080), (3679200, 17500), (3942000, 22500), (4204800, 28000),
   (4467600, 35500), (4730400, 44500), (4993200, 55000)]

/-- `GetProofOfStakeSubsidy`: the first step that reaches the height, and the tail emission below
height 2 and after the last step. -/
def getProofOfStakeSubsidy (chainHeight : ℤ) : CAmount :=
  let nBlockHeight := chainHeight + 1
  if 1 < nBlockHeight then
    match stakeSubsidySteps.find? fun s => nBlockHeight ≤ s.1 with
    | some s => s.2 * COIN
    | none => 1000 * COIN
  else 1000 * COIN

/-- The subsidy `ConnectBlock` grants a block. -/
def blockSubsidy (chainHeight : ℤ) (block : CBlock) : CAmount :=
  if block.isProofOfStake then getProofOfStakeSubsidy chainHeight
  else getProofOfWorkSubsidy chainHeight

/-! ## Inputs -/

/-- One input in `CheckTxInputs`, with the running sum of the inputs before it. -/
def checkTxInput (tx : CTransaction) (view : CoinsView) (nSpendHeight : ℤ) (nValueIn : CAmount)
    (txin : CTxIn) : Check CAmount := do
  let coins ← orFail .assertion (view.accessCoins txin.prevout.hash)
  ensure (¬ ((coins.fCoinBase ∨ coins.fCoinStake) ∧
      nSpendHeight - coins.nHeight < Params.default.nCoinbaseMaturity))
    (invalid .invalid "bad-txns-premature-spend-of-coinbase")
  ensure (¬ coins.nTime > tx.nTime) (dos 100 .invalid "bad-txns-time-earlier-than-input" false)
  let out ← orFail .outOfBounds coins.vout[txin.prevout.n.toNat]?
  let nValueIn := nValueIn + out.nValue
  ensure (moneyRange out.nValue ∧ moneyRange nValueIn)
    (dos 100 .invalid "bad-txns-inputvalues-outofrange" false)
  pure nValueIn

/-- `CheckTxInputs`: the comparison of inputs and outputs is skipped for a coinstake. -/
def checkTxInputs (tx : CTransaction) (view : CoinsView) (nSpendHeight : ℤ) : Check Unit := do
  ensure (view.haveInputs tx) (invalid .none "")
  let nValueIn ← tx.vin.foldlM (checkTxInput tx view nSpendHeight) 0
  onlyIf (!tx.isCoinStake) do
    let nValueOut ← orFail (.thrown "GetValueOut: value out of range") tx.getValueOut
    ensure (¬ nValueIn < nValueOut) (dos 100 .invalid "bad-txns-in-belowout" false)
    let nTxFee := nValueIn - nValueOut
    ensure (¬ nTxFee < 0) (dos 100 .invalid "bad-txns-fee-negative" false)
    ensure (moneyRange nTxFee) (dos 100 .invalid "bad-txns-fee-outofrange" false)

def SCRIPT_VERIFY_P2SH : UInt32 := 0x1
def SCRIPT_VERIFY_STRICTENC : UInt32 := 0x2
def SCRIPT_VERIFY_DERSIG : UInt32 := 0x4
def SCRIPT_VERIFY_LOW_S : UInt32 := 0x8
def SCRIPT_VERIFY_NULLDUMMY : UInt32 := 0x10
def SCRIPT_VERIFY_MINIMALDATA : UInt32 := 0x40
def SCRIPT_VERIFY_DISCOURAGE_UPGRADABLE_NOPS : UInt32 := 0x80
def SCRIPT_VERIFY_CLEANSTACK : UInt32 := 0x100
def SCRIPT_VERIFY_CHECKLOCKTIMEVERIFY : UInt32 := 0x200
def SCRIPT_VERIFY_DERKEY : UInt32 := 0x400
def SCRIPT_VERIFY_NULLFAIL : UInt32 := 0x4000

/-- Standard but not mandatory flags.  `SCRIPT_VERIFY_CHECKSEQUENCEVERIFY` is standard too, but has
the bit of the mandatory `SCRIPT_VERIFY_DERKEY`. -/
def STANDARD_NOT_MANDATORY_VERIFY_FLAGS : UInt32 :=
  SCRIPT_VERIFY_STRICTENC ||| SCRIPT_VERIFY_MINIMALDATA |||
    SCRIPT_VERIFY_DISCOURAGE_UPGRADABLE_NOPS ||| SCRIPT_VERIFY_CLEANSTACK |||
    SCRIPT_VERIFY_NULLFAIL

/-- The script test of one input in `CheckInputs`. -/
def checkInputScript (crypto : Crypto) (flags : UInt32) (tx : CTransaction) (view : CoinsView)
    (txin : CTxIn) (nIn : ℕ) : Check Unit := do
  let coins ← orFail .assertion (view.accessCoins txin.prevout.hash)
  let out ← orFail .outOfBounds coins.vout[txin.prevout.n.toNat]?
  match crypto.verifyScript txin.scriptSig out.scriptPubKey flags tx nIn with
  | .ok _ => pure ()
  | .error err =>
    let flags2 := flags &&& ~~~STANDARD_NOT_MANDATORY_VERIFY_FLAGS
    if flags &&& STANDARD_NOT_MANDATORY_VERIFY_FLAGS ≠ 0 ∧
        (crypto.verifyScript txin.scriptSig out.scriptPubKey flags2 tx nIn).isOk then
      throw (invalid .nonstandard ("non-mandatory-script-verify-flag (" ++ err ++ ")"))
    else
      throw (dos 100 .invalid ("mandatory-script-verify-flag-failed (" ++ err ++ ")") false)

def checkInputs (crypto : Crypto) (tx : CTransaction) (view : CoinsView) (nSpendHeight : ℤ)
    (fScriptChecks : Bool) (flags : UInt32) : Check Unit :=
  onlyIf (!tx.isCoinBase) do
    checkTxInputs tx view nSpendHeight
    onlyIf fScriptChecks
      (tx.vin.zipIdx.forM fun (txin, nIn) => checkInputScript crypto flags tx view txin nIn)

/-! ## Blocks -/

/-- `GetP2SHSigOpCount`, `none` where the source asserts. -/
def getP2SHSigOpCount (tx : CTransaction) (view : CoinsView) : Option ℕ :=
  if tx.isCoinBase then some 0
  else
    (tx.vin.mapM fun i => (view.getOutputFor i).map fun prevout =>
      if prevout.scriptPubKey.isPayToScriptHash then
        prevout.scriptPubKey.getSigOpCountP2SH i.scriptSig
      else 0).map List.sum

def getTransactionSigOpCount (tx : CTransaction) (view : CoinsView) (flags : UInt32) : Option ℕ :=
  let nSigOps := getSigOpCountWithoutP2SH tx
  if tx.isCoinBase then some nSigOps
  else if flags &&& SCRIPT_VERIFY_P2SH ≠ 0 then
    (getP2SHSigOpCount tx view).map (nSigOps + ·)
  else some nSigOps

/-- What the loop of `ConnectBlock` accumulates.  `vtxundo` also holds the record of the first
transaction, which the source discards. -/
structure ConnectState where
  view : CoinsView
  nFees : CAmount := 0
  nActualStakeReward : CAmount := 0
  nSigOpsCount : ℕ := 0
  vtxundo : List CTxUndo := []

/-- The fee or the stake reward of a transaction, added to the totals. -/
def tallyReward (tx : CTransaction) (st : ConnectState) : Check ConnectState :=
  if tx.isCoinBase then pure st
  else do
    let nValueOut ← orFail (.thrown "GetValueOut: value out of range") tx.getValueOut
    let nValueIn ← orFail .assertion (st.view.getValueIn tx)
    if tx.isCoinStake then pure { st with nActualStakeReward := nValueOut - nValueIn }
    else pure { st with nFees := st.nFees + (nValueIn - nValueOut) }

/-- One transaction in the loop of `ConnectBlock`. -/
def connectTx (crypto : Crypto) (fScriptChecks : Bool) (flags : UInt32) (nSpendHeight : ℤ)
    (nHeight : ℕ) (st : ConnectState) (tx : CTransaction) : Check ConnectState := do
  ensure (tx.isCoinBase ∨ st.view.haveInputs tx)
    (dos 100 .invalid "bad-txns-inputs-missingorspent" false)
  let nSigOps ← orFail .assertion (getTransactionSigOpCount tx st.view flags)
  let nSigOpsCount := st.nSigOpsCount + nSigOps
  ensure (¬ nSigOpsCount > MAX_BLOCK_SIGOPS) (dos 100 .invalid "bad-blk-sigops" false)
  let st ← tallyReward tx st
  checkInputs crypto tx st.view nSpendHeight fScriptChecks flags
  let (view, txundo) ← orFail .assertion (updateCoins crypto tx st.view nHeight)
  pure { st with
    view := view, nSigOpsCount := nSigOpsCount, vtxundo := st.vtxundo ++ [txundo] }

/-- The loop of `ConnectBlock`. -/
def connectTxs (crypto : Crypto) (fScriptChecks : Bool) (flags : UInt32) (nSpendHeight : ℤ)
    (nHeight : ℕ) (st : ConnectState) (vtx : List CTransaction) : Check ConnectState :=
  vtx.foldlM (connectTx crypto fScriptChecks flags nSpendHeight nHeight) st

/-- The flags `ConnectBlock` verifies scripts with. -/
def blockScriptFlags (p : Params) (block : CBlock) : UInt32 :=
  let flags := SCRIPT_VERIFY_P2SH ||| SCRIPT_VERIFY_DERSIG ||| SCRIPT_VERIFY_DERKEY |||
    SCRIPT_VERIFY_LOW_S
  if p.isProtocolV3 block.getBlockTime then
    flags ||| SCRIPT_VERIFY_CHECKLOCKTIMEVERIFY ||| SCRIPT_VERIFY_NULLDUMMY
  else flags

/-- The proof-of-stake test of `ConnectBlock`: the kernel exists, is deep enough and hashes below
the weighted target. -/
def checkKernel (crypto : Crypto) (p : Params) (pprev pindex : CBlockIndex) (view : CoinsView)
    (block : CBlock) : Check Unit :=
  match block.stakeKernel with
  | none => pure ()
  | some (tx, prevout) =>
    onlyIf (p.isProtocolV3 block.getBlockTime) do
      let coins ← orFail (dos 100 .invalid "bad-cs-kernel" false) (view.accessCoins prevout.hash)
      ensure (¬ (pindex.nHeight : ℤ) - coins.nHeight < p.nCoinbaseMaturity)
        (dos 100 .invalid "bad-cs-premature" false)
      let ok ← checkStakeKernelHash crypto pprev block.nBits coins prevout tx.nTime
      ensure ok (dos 100 .invalid "bad-cs-proofhash" false)

/-- Whether the test against overwriting unspent transactions is made. -/
def enforceBIP30 (p : Params) (path : List CBlockIndex) : Bool :=
  match getAncestor path p.BIP34Height with
  | none => true
  | some i => i.hash ≠ p.BIP34Hash

/-- A transaction does not overwrite one that has unspent outputs. -/
def notOverwriting (crypto : Crypto) (view : CoinsView) (tx : CTransaction) : Bool :=
  ((view.accessCoins (tx.getHash crypto)).map CCoins.isPruned).getD true

/-- The reward tests of `ConnectBlock`. -/
def checkReward (p : Params) (chainHeight : ℤ) (block : CBlock) (st : ConnectState) :
    Check Unit := do
  onlyIf block.isProofOfWork do
    let coinBase ← orFail .outOfBounds block.vtx.head?
    let nValueOut ← orFail (.thrown "GetValueOut: value out of range") coinBase.getValueOut
    ensure (¬ nValueOut > st.nFees + getProofOfWorkSubsidy chainHeight)
      (dos 100 .invalid "bad-cb-amount" false)
  onlyIf (block.isProofOfStake ∧ p.isProtocolV3 block.getBlockTime)
    (ensure (¬ st.nActualStakeReward > st.nFees + getProofOfStakeSubsidy chainHeight)
      (dos 100 .invalid "bad-cs-amount" false))

/-- What `ConnectBlock` leaves: the view, the index entry and the undo data of the block. -/
structure ConnectResult where
  view : CoinsView
  pindex : CBlockIndex
  blockundo : CBlockUndo

/-- The part of `ConnectBlock` after the special case of the genesis block. -/
def connectBlockBody (crypto : Crypto) (p : Params) (chainHeight : ℤ) (fScriptChecks : Bool)
    (path : List CBlockIndex) (pindex : CBlockIndex) (view : CoinsView) (block : CBlock) :
    Check ConnectState := do
  let pprev ← orFail .outOfBounds path.head?
  ensure (block.nBits = getNextTargetRequired p path block.isProofOfStake)
    (dos 100 .invalid "bad-diffbits" false)
  checkKernel crypto p pprev pindex view block
  ensure (¬ enforceBIP30 p path ∨ ∀ tx ∈ block.vtx, notOverwriting crypto view tx)
    (dos 100 .invalid "bad-txns-BIP30" false)
  let st ← connectTxs crypto fScriptChecks (blockScriptFlags p block) (pprev.nHeight + 1)
    pindex.nHeight { view := view } block.vtx
  checkReward p chainHeight block st
  pure st

/-- The modifier `ConnectBlock` stores in the index entry. -/
def blockStakeModifier (crypto : Crypto) (pprev : Option CBlockIndex) (block : CBlock) : Uint256 :=
  computeStakeModifier crypto pprev
    (match block.stakeKernel with
     | some (_, prevout) => prevout.hash
     | none => block.getHash crypto)

/-- The index entry after a block was connected. -/
def connectedIndex (crypto : Crypto) (path : List CBlockIndex) (pindex : CBlockIndex)
    (block : CBlock) : CBlockIndex :=
  { pindex with
    nStakeModifier := blockStakeModifier crypto path.head? block
    nStatus := { pindex.nStatus with haveUndo := true }.raiseValidity BlockStatus.validScripts }

def connectBlock (crypto : Crypto) (p : Params) (chainHeight : ℤ) (fScriptChecks : Bool)
    (path : List CBlockIndex) (pindex : CBlockIndex) (view : CoinsView) (block : CBlock)
    (fJustCheck : Bool) : Check ConnectResult := do
  checkBlock crypto p chainHeight block (!fJustCheck) (!fJustCheck) (!fJustCheck)
  ensure ((path.head?.map CBlockIndex.hash).getD 0 = view.hashBlock) .assertion
  if block.getHash crypto = p.hashGenesisBlock then
    pure ⟨if fJustCheck then view else view.setBestBlock pindex.hash, pindex, []⟩
  else
    let st ← connectBlockBody crypto p chainHeight fScriptChecks path pindex view block
    if fJustCheck then
      let pindex :=
        { pindex with nStakeModifier := blockStakeModifier crypto path.head? block }
      pure ⟨st.view, pindex, st.vtxundo.tail⟩
    else
      pure ⟨st.view.setBestBlock pindex.hash, connectedIndex crypto path pindex block,
        st.vtxundo.tail⟩

/-! ## What a passed check says -/

section

variable {crypto : Crypto} {p : Params} {chainHeight nSpendHeight : ℤ} {fScriptChecks : Bool}
  {flags : UInt32} {nHeight : ℕ} {view : CoinsView} {tx : CTransaction} {block : CBlock}
  {st st' : ConnectState}

/-- What one input went through: the output is there and adds to the sum without leaving the range.
The maturity it is tested against is that of a default constructed `Params`. -/
theorem checkTxInput_ok {a b : CAmount} {txin : CTxIn}
    (h : checkTxInput tx view nSpendHeight a txin = .ok b) :
    ∃ c o, view.accessCoins txin.prevout.hash = some c ∧
      view.output txin.prevout = some o ∧ b = a + o.nValue ∧
      0 ≤ o.nValue.toInt ∧ 0 ≤ b.toInt ∧
      (c.fCoinBase = true ∨ c.fCoinStake = true → (c.nHeight : ℤ) ≤ nSpendHeight) := by
  simp only [checkTxInput, check_bind_eq_ok, orFail_eq_ok, ensure_eq_ok, check_pure_eq_ok,
    moneyRange_iff] at h
  obtain ⟨c, hc, -, hmat, -, -, o, ho, -, ⟨ho0, hb0⟩, rfl⟩ := h
  have hnull : o.isNull = false := by
    unfold CTxOut.isNull
    refine decide_eq_false fun he => ?_
    rw [he] at ho0
    exact absurd ho0 (by decide)
  refine ⟨c, o, hc, ?_, rfl, ho0, hb0, fun hk => ?_⟩
  · unfold CoinsView.output
    rw [hc, Option.bind_some]
    exact CCoins.output_eq_some.mpr ⟨ho, hnull⟩
  · have h0 : Params.default.nCoinbaseMaturity = 0 := rfl
    rw [h0] at hmat
    by_contra hlt
    exact hmat ⟨hk, by omega⟩

theorem tallyReward_view (h : tallyReward tx st = .ok st') :
    st'.view = st.view ∧ st'.vtxundo = st.vtxundo := by
  unfold tallyReward at h
  split_ifs at h
  · obtain rfl := by simpa using h
    exact ⟨rfl, rfl⟩
  all_goals
    simp only [check_bind_eq_ok, orFail_eq_ok, check_pure_eq_ok] at h
    obtain ⟨v, -, w, -, rfl⟩ := h
    exact ⟨rfl, rfl⟩

/-- What connecting a transaction does: the reward is tallied and the inputs are checked on the
view as it was, and then the view is updated. -/
theorem connectTx_ok
    (h : connectTx crypto fScriptChecks flags nSpendHeight nHeight st tx = .ok st') :
    ∃ st₁ txundo, tallyReward tx st = .ok st₁ ∧
      (tx.isCoinBase = false → checkTxInputs tx st.view nSpendHeight = .ok ()) ∧
      updateCoins crypto tx st.view nHeight = some (st'.view, txundo) ∧
      st'.nFees = st₁.nFees ∧ st'.nActualStakeReward = st₁.nActualStakeReward ∧
      st'.vtxundo = st.vtxundo ++ [txundo] := by
  simp only [connectTx, check_bind_eq_ok, ensure_eq_ok, orFail_eq_ok, check_pure_eq_ok] at h
  obtain ⟨_, -, n, -, _, -, st₁, htally, _, hin, ⟨view, txundo⟩, hup, rfl⟩ := h
  obtain ⟨hview, hundo⟩ := tallyReward_view htally
  rw [hview] at hin hup
  refine ⟨st₁, txundo, htally, fun hcb => ?_, hup, rfl, rfl, by rw [hundo]⟩
  simp only [checkInputs, onlyIf_eq_ok, check_bind_eq_ok] at hin
  obtain ⟨_, htxin, -⟩ := hin (by simp [hcb])
  exact htxin

/-- What a connected block other than the genesis block went through. -/
theorem connectBlock_ok {path : List CBlockIndex} {pindex : CBlockIndex} {r : ConnectResult}
    (h : connectBlock crypto p chainHeight fScriptChecks path pindex view block false = .ok r)
    (hgen : block.getHash crypto ≠ p.hashGenesisBlock) :
    BlockOk block ∧ ∃ pprev st, path.head? = some pprev ∧
      checkKernel crypto p pprev pindex view block = .ok () ∧
      connectTxs crypto fScriptChecks (blockScriptFlags p block) (pprev.nHeight + 1) pindex.nHeight
        { view := view } block.vtx = .ok st ∧
      checkReward p chainHeight block st = .ok () ∧
      r = ⟨st.view.setBestBlock pindex.hash, connectedIndex crypto path pindex block,
        st.vtxundo.tail⟩ := by
  simp only [connectBlock, check_bind_eq_ok, ensure_eq_ok, if_neg hgen, connectBlockBody,
    orFail_eq_ok, check_pure_eq_ok, Bool.false_eq_true, if_false] at h
  obtain ⟨_, hcheck, -, -, st, ⟨pprev, hpprev, -, -, _, hkernel, -, -, st', hloop, _, hreward, rfl⟩,
    rfl⟩ := h
  exact ⟨checkBlock_ok hcheck, pprev, st', hpprev, hkernel, hloop, hreward, rfl⟩

end

end X2XCoin
