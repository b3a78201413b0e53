import X2XCoin.Consensus.Merkle
import X2XCoin.Consensus.Pow
import X2XCoin.Consensus.Validation
import X2XCoin.Script.Script

/-!
# Context-free checks

`CheckTransaction`, `CheckBlockHeader`, `CheckBlockSignature` and `CheckBlock` of `main.cpp`, with
`FutureDrift` of `policy/policy.cpp` and `CheckCoinStakeTimestamp` of `pos.cpp`, in the order of the
source.  `FutureDrift` reads the height of the active chain, the argument `chainHeight`.
-/

open ByteCodec

namespace X2XCoin

/-- The maximum allowed size for a serialized block, in bytes. -/
def MAX_BLOCK_SIZE : ℕ := 1000000

/-- The maximum allowed number of signature check operations in a block. -/
def MAX_BLOCK_SIGOPS : ℕ := 20000

def futureDrift (p : Params) (chainHeight nTime : ℤ) : ℤ :=
  if p.fPowNoRetargeting ∧ chainHeight ≤ p.nLastPOWBlock then nTime + 24 * 60 * 60
  else if p.isProtocolV2 nTime then nTime + 15
  else nTime + 10 * 60

def checkCoinStakeTimestamp (p : Params) (nTimeBlock nTimeTx : ℤ) : Bool :=
  if p.isProtocolV2 nTimeBlock then
    nTimeBlock = nTimeTx && nTimeTx.toNat &&& p.nStakeTimestampMask = 0
  else nTimeBlock = nTimeTx

/-! ## Transactions -/

def getSigOpCountWithoutP2SH (tx : CTransaction) : ℕ :=
  (tx.vin.map fun i => CScript.getSigOpCount i.scriptSig false).sum +
    (tx.vout.map fun o => CScript.getSigOpCount o.scriptPubKey false).sum

/-- One output in `CheckTransaction`, with the running sum of the outputs before it. -/
def checkTxOut (tx : CTransaction) (nValueOut : CAmount) (txout : CTxOut) : Check CAmount := do
  ensure (¬ (txout.isEmpty ∧ ¬ tx.isCoinBase ∧ ¬ tx.isCoinStake)) (dos 100 .none "" false)
  ensure (¬ txout.nValue < 0) (dos 100 .invalid "bad-txns-vout-negative" false)
  ensure (¬ txout.nValue > MAX_MONEY) (dos 100 .invalid "bad-txns-vout-toolarge" false)
  let nValueOut := nValueOut + txout.nValue
  ensure (moneyRange nValueOut) (dos 100 .invalid "bad-txns-txouttotal-toolarge" false)
  pure nValueOut

def checkTransaction (tx : CTransaction) : Check Unit := do
  ensure (tx.vin ≠ []) (dos 10 .invalid "bad-txns-vin-empty" false)
  ensure (tx.vout ≠ []) (dos 10 .invalid "bad-txns-vout-empty" false)
  ensure (¬ tx.serialize.length > MAX_BLOCK_SIZE) (dos 100 .invalid "bad-txns-oversize" false)
  let _ ← tx.vout.foldlM (checkTxOut tx) 0
  ensure (tx.vin.map CTxIn.prevout).Nodup (dos 100 .invalid "bad-txns-inputs-duplicate" false)
  if tx.isCoinBase then
    ensure (∀ i ∈ tx.vin.head?, ¬ (i.scriptSig.length < 2 ∨ i.scriptSig.length > 100))
      (dos 100 .invalid "bad-cb-length" false)
  else
    ensure (∀ i ∈ tx.vin, ¬ i.prevout.isNull) (dos 10 .invalid "bad-txns-prevout-null" false)

/-! ## Blocks -/

def checkBlockHeader (crypto : Crypto) (p : Params) (block : CBlockHeader) (fCheckPOW : Bool) :
    Check Unit := do
  ensure (¬ (block.nVersion < 7 ∧ p.isProtocolV2 block.getBlockTime))
    (dos 100 .obsolete "bad-version" false)
  ensure (¬ (fCheckPOW ∧ ¬ checkProofOfWork p (block.getPoWHash crypto) block.nBits))
    (dos 50 .invalid "high-hash" false)

/-- The key of a block whose coinstake does not pay to a public key: the push after `OP_RETURN`. -/
def returnedPubKey (script : CScript) : Option Bytes := do
  let (opcode, _, rest) ← script.getOp
  if opcode ≠ OP_RETURN then none
  else
    let (_, vchPushValue, _) ← CScript.getOp rest
    if isCompressedOrUncompressedPubKey vchPushValue then some vchPushValue else none

def checkBlockSignature (crypto : Crypto) (block : CBlock) : Bool :=
  match block.vtx with
  | _ :: tx :: _ =>
    if !tx.isCoinStake then block.vchBlockSig.isEmpty
    else if block.vchBlockSig.isEmpty then false
    else
      match tx.vout[1]? with
      | none => false
      | some txout =>
        match solver txout.scriptPubKey with
        | none => false
        | some (.pubkey, vSolutions) =>
          crypto.verify (vSolutions.headD []) (block.getHash crypto) block.vchBlockSig
        | some _ =>
          match returnedPubKey txout.scriptPubKey with
          | none => false
          | some vchPubKey => crypto.verify vchPubKey (block.getHash crypto) block.vchBlockSig
  | _ => block.vchBlockSig.isEmpty

/-- The merkle tests of `CheckBlock`; both rejections say that the data may have been corrupted. -/
def checkMerkleRoot (crypto : Crypto) (block : CBlock) : Check Unit := do
  let (hashMerkleRoot2, mutated) := blockMerkleRoot crypto block
  ensure (block.hashMerkleRoot = hashMerkleRoot2) (dos 100 .invalid "bad-txnmrklroot" true)
  ensure (¬ mutated) (dos 100 .invalid "bad-txns-duplicate" true)

/-- A coinbase with a single output, which is empty. -/
def coinBaseEmpty (tx : CTransaction) : Bool :=
  match tx.vout with
  | [o] => o.isEmpty
  | _ => false

/-- The tests that `CheckBlock` makes on proof-of-stake blocks only. -/
def checkStakeLayout (block : CBlock) : Check Unit := do
  ensure (block.vtx.head?.any coinBaseEmpty) (dos 100 .invalid "bad-cb-not-empty" false)
  ensure (block.vtx[1]?.any CTransaction.isCoinStake) (dos 100 .invalid "bad-cs-missing" false)
  ensure (∀ tx ∈ block.vtx.drop 2, ¬ tx.isCoinStake) (dos 100 .invalid "bad-cs-multiple" false)

/-- The time stamp of the coinstake, compared with that of its block. -/
def checkStakeTime (p : Params) (block : CBlock) : Bool :=
  block.vtx[1]?.any fun tx => checkCoinStakeTimestamp p block.getBlockTime tx.nTime.toNat

/-- One transaction in the loop of `CheckBlock`. -/
def checkBlockTransaction (block : CBlock) (tx : CTransaction) : Check Unit := do
  checkTransaction tx
  ensure (¬ block.getBlockTime < tx.nTime.toNat) (dos 100 .invalid "bad-tx-time" false)

/-- The part of `CheckBlock` after the merkle tests: no rejection here says that the data may have
been corrupted. -/
def checkBlockBody (crypto : Crypto) (p : Params) (chainHeight : ℤ) (block : CBlock)
    (fCheckSig : Bool) : Check Unit := do
  ensure (¬ (block.vtx = [] ∨ block.vtx.length > MAX_BLOCK_SIZE ∨
    block.serialize.length > MAX_BLOCK_SIZE)) (dos 100 .invalid "bad-blk-length" false)
  ensure (block.vtx.head?.any CTransaction.isCoinBase) (dos 100 .invalid "bad-cb-missing" false)
  ensure (∀ tx ∈ block.vtx.tail, ¬ tx.isCoinBase) (dos 100 .invalid "bad-cb-multiple" false)
  ensure (∀ tx ∈ block.vtx.head?, ¬ block.getBlockTime > futureDrift p chainHeight tx.nTime.toNat)
    (dos 50 .invalid "bad-cb-time" false)
  ensure (¬ (block.isProofOfStake ∧ ¬ checkStakeTime p block)) (dos 50 .invalid "bad-cs-time" false)
  onlyIf block.isProofOfStake (checkStakeLayout block)
  ensure (¬ (fCheckSig ∧ ¬ checkBlockSignature crypto block))
    (dos 100 .invalid "bad-block-signature" false)
  block.vtx.forM (checkBlockTransaction block)
  ensure (¬ (block.vtx.map getSigOpCountWithoutP2SH).sum > MAX_BLOCK_SIGOPS)
    (dos 100 .invalid "bad-blk-sigops" false)

def checkBlock (crypto : Crypto) (p : Params) (chainHeight : ℤ) (block : CBlock)
    (fCheckPOW fCheckMerkleRoot fCheckSig : Bool) : Check Unit := do
  checkBlockHeader crypto p block.toCBlockHeader (fCheckPOW && block.isProofOfWork)
  onlyIf fCheckMerkleRoot (checkMerkleRoot crypto block)
  checkBlockBody crypto p chainHeight block fCheckSig

/-! ## What a passed check says -/

/-- What `CheckTransaction` establishes. -/
structure TxOk (tx : CTransaction) : Prop where
  vin_ne_nil : tx.vin ≠ []
  vout_ne_nil : tx.vout ≠ []
  size : tx.serialize.length ≤ MAX_BLOCK_SIZE
  nonneg : ∀ o ∈ tx.vout, 0 ≤ o.nValue.toInt
  nodup : (tx.vin.map CTxIn.prevout).Nodup
  prevout_not_null : tx.isCoinBase = false → ∀ i ∈ tx.vin, i.prevout.isNull = false

private theorem checkTxOut_foldlM {tx : CTransaction} {vout : List CTxOut} {a b : CAmount}
    (h : vout.foldlM (checkTxOut tx) a = .ok b) : ∀ o ∈ vout, 0 ≤ o.nValue.toInt := by
  induction vout generalizing a with
  | nil => simp
  | cons o vout ih =>
    rw [List.foldlM_cons, check_bind_eq_ok] at h
    obtain ⟨c, hc, h⟩ := h
    refine List.forall_mem_cons.mpr ⟨?_, ih h⟩
    simp only [checkTxOut, check_bind_eq_ok, ensure_eq_ok] at hc
    obtain ⟨-, -, -, hneg, -⟩ := hc
    rw [Int64.lt_iff_toInt_lt] at hneg
    exact not_lt.mp hneg

theorem checkTransaction_ok {tx : CTransaction} {u : Unit} (h : checkTransaction tx = .ok u) :
    TxOk tx := by
  simp only [checkTransaction, check_bind_eq_ok, ensure_eq_ok] at h
  obtain ⟨-, hvin, -, hvout, -, hsize, v, hv, -, hnodup, h⟩ := h
  refine ⟨hvin, hvout, not_lt.mp hsize, checkTxOut_foldlM hv, hnodup, fun hcb i hi => ?_⟩
  rw [hcb] at h
  simp only [Bool.false_eq_true, if_false, ensure_eq_ok] at h
  simpa using h i hi

/-- What `CheckBlock` establishes about the transactions of a block. -/
structure BlockOk (block : CBlock) : Prop where
  coinBase : ∃ tx rest, block.vtx = tx :: rest ∧ tx.isCoinBase = true
  others : ∀ tx ∈ block.vtx.tail, tx.isCoinBase = false
  txs : ∀ tx ∈ block.vtx, TxOk tx
  length : block.vtx.length ≤ MAX_BLOCK_SIZE
  coinBaseEmpty : block.isProofOfStake = true → block.vtx.head?.any coinBaseEmpty = true
  noStake : block.isProofOfStake = true → ∀ tx ∈ block.vtx.drop 2, tx.isCoinStake = false

theorem checkBlock_ok {crypto : Crypto} {p : Params} {chainHeight : ℤ} {block : CBlock}
    {fCheckPOW fCheckMerkleRoot fCheckSig : Bool} {u : Unit}
    (h : checkBlock crypto p chainHeight block fCheckPOW fCheckMerkleRoot fCheckSig = .ok u) :
    BlockOk block := by
  simp only [checkBlock, checkBlockBody, check_bind_eq_ok, ensure_eq_ok, onlyIf_eq_ok,
    check_forM_eq_ok] at h
  obtain ⟨-, -, -, -, -, hsize, -, hcb, -, hothers, -, -, -, -, -, hlayout, -, -, -, htxs, -⟩ := h
  refine ⟨?_, ?_, ?_, not_lt.mp fun hlong => hsize (.inr (.inl hlong)), ?_, ?_⟩
  · obtain ⟨tx, hhead, hisCB⟩ := (Option.any_eq_true _ _).mp hcb
    obtain ⟨rest, hvtx⟩ := List.head?_eq_some_iff.mp hhead
    exact ⟨tx, rest, hvtx, hisCB⟩
  · exact fun tx htx => by simpa using hothers tx htx
  · intro tx htx
    have h := htxs tx htx
    simp only [checkBlockTransaction, check_bind_eq_ok] at h
    obtain ⟨_, htx, -⟩ := h
    exact checkTransaction_ok htx
  all_goals
    intro hpos
    have h := hlayout hpos
    simp only [checkStakeLayout, check_bind_eq_ok, ensure_eq_ok] at h
    obtain ⟨-, hempty, -, -, hno⟩ := h
  · exact hempty
  · exact fun tx htx => by simpa using hno tx htx

end X2XCoin
