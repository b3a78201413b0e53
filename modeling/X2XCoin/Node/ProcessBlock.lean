import X2XCoin.Node.Coherent

/-!
# Processing a block from a peer

`IsCanonicalBlockSignature` and `ProcessNewBlock` of `main.cpp`, with `IsValidSignatureEncoding` of
`script/interpreter.cpp`.  Whether a block was in flight is part of the argument `fRequested`.
-/

open ByteCodec

namespace X2XCoin

/-! ## Signatures -/

/-- `IsValidSignatureEncoding`; bytes past the end, which the source does not read, are zero. -/
def isValidSignatureEncoding (sig : Bytes) (haveHashType : Bool) : Bool :=
  let get (i : ℕ) : ℕ := (sig[i]?.getD 0).toNat
  let nHashType := if haveHashType then 1 else 0
  let lenR := get 3
  let lenS := get (5 + lenR)
  9 ≤ sig.length && sig.length ≤ 73 && get 0 = 0x30 && get 1 = sig.length - (2 + nHashType) &&
    decide (5 + lenR < sig.length) && lenR + lenS + (6 + nHashType) = sig.length &&
    get 2 = 0x02 && lenR ≠ 0 && decide (get 4 < 0x80) &&
    !(decide (lenR > 1) && get 4 = 0 && decide (get 5 < 0x80)) &&
    get (lenR + 4) = 0x02 && lenS ≠ 0 && decide (get (lenR + 6) < 0x80) &&
    !(decide (lenS > 1) && get (lenR + 6) = 0 && decide (get (lenR + 7) < 0x80))

def CBlock.isCanonicalSignature (crypto : Crypto) (block : CBlock) (checkLowS : Bool) : Bool :=
  if block.isProofOfWork then block.vchBlockSig.isEmpty
  else isValidSignatureEncoding block.vchBlockSig false &&
    (!checkLowS || crypto.checkLowS block.vchBlockSig)

def CANONICAL_BLOCK_SIG_VERSION : ℤ := 60016

def CANONICAL_BLOCK_SIG_LOW_S_VERSION : ℤ := 60018

/-- The encoding of the signature is good enough for the version `pfrom` of the peer, if the block
comes from one. -/
def CBlock.passesEncoding (crypto : Crypto) (block : CBlock) (pfrom : Option ℤ) : Bool :=
  (block.isCanonicalSignature crypto false || !pfrom.any (· ≥ CANONICAL_BLOCK_SIG_VERSION)) &&
    (block.isCanonicalSignature crypto true || !pfrom.any (· ≥ CANONICAL_BLOCK_SIG_LOW_S_VERSION))

namespace Node

/-- `ProcessNewBlock`; a shutdown stops `ActivateBestChain` after `n` turns. -/
def processNewBlock (crypto : Crypto) (keys : PubKeys) (p : Params) (nAdjustedTime : ℤ) (n : ℕ)
    (node : Node) (pfrom : Option ℤ) (block : CBlock) (fRequested : Bool) : Node × Check Unit :=
  if block.passesEncoding crypto pfrom then
    match node.acceptBlock crypto p nAdjustedTime block fRequested with
    | (node, .error f) => (node, .error f)
    | (node, .ok ()) =>
      let r := node.activateBestChain crypto keys p node.blockFiles (some block) n none
      ({ node with toChainstate := r.1 }, r.2)
  else (node, .error (dos 100 .invalid "bad-block-signature-encoding" false))

end Node

/-! ## Two blocks that are processed alike -/

/-- Blocks with the same header and transactions that fare alike in `CheckBlock`. -/
structure CBlock.Twin (crypto : Crypto) (p : Params) (block block' : CBlock) : Prop where
  header : block'.toCBlockHeader = block.toCBlockHeader
  vtx : block'.vtx = block.vtx
  check : ∀ chainHeight, checkBlock crypto p chainHeight block' true true true =
    checkBlock crypto p chainHeight block true true true

namespace CBlock

variable {crypto : Crypto} {keys : PubKeys} {p : Params} {block block' : CBlock}

theorem Twin.refl (block : CBlock) : Twin crypto p block block := ⟨rfl, rfl, fun _ => rfl⟩

section

variable (h : Twin crypto p block block')
include h

theorem Twin.isProofOfStake : block'.isProofOfStake = block.isProofOfStake := by
  rw [CBlock.isProofOfStake, h.vtx, CBlock.isProofOfStake]

theorem Twin.isProofOfWork : block'.isProofOfWork = block.isProofOfWork := by
  rw [CBlock.isProofOfWork, h.isProofOfStake, CBlock.isProofOfWork]

theorem Twin.stakeKernel : block'.stakeKernel = block.stakeKernel := by
  rw [CBlock.stakeKernel, h.vtx, CBlock.stakeKernel]

theorem Twin.blockStakeModifier (pprev : Option CBlockIndex) :
    blockStakeModifier crypto pprev block' = blockStakeModifier crypto pprev block := by
  rw [X2XCoin.blockStakeModifier, h.stakeKernel, h.header, X2XCoin.blockStakeModifier]

theorem Twin.connectBlock (chainHeight : ℤ) (fScriptChecks : Bool) (path : List CBlockIndex)
    (pindex : CBlockIndex) (view : CoinsView) :
    connectBlock crypto p chainHeight fScriptChecks path pindex view block' false =
      connectBlock crypto p chainHeight fScriptChecks path pindex view block false := by
  obtain ⟨⟨⟩, vtx, sig⟩ := block
  obtain ⟨⟨⟩, vtx', sig'⟩ := block'
  obtain ⟨hheader, rfl, hcheck⟩ := h
  cases hheader
  simp only [X2XCoin.connectBlock, Bool.not_false, hcheck]
  rfl

theorem Twin.readBlockFromDisk (pindex : CBlockIndex) (undo : Bytes) :
    readBlockFromDisk crypto p ⟨block', pindex, undo⟩ =
      readBlockFromDisk crypto p ⟨block, pindex, undo⟩ := by
  simp only [X2XCoin.readBlockFromDisk, h.header, h.isProofOfWork]

theorem Twin.disconnectBlock (pprev pindex : CBlockIndex) (undo : Bytes) (view : CoinsView) :
    disconnectBlock crypto keys block' pprev pindex undo view =
      disconnectBlock crypto keys block pprev pindex undo view := by
  simp only [X2XCoin.disconnectBlock, h.vtx]

end

end CBlock

/-- Files with twins in the same places. -/
def BlockFiles.Twin (crypto : Crypto) (p : Params) (files files' : BlockFiles) : Prop :=
  ∀ hash, Option.Rel (CBlock.Twin crypto p) (files.lookup hash) (files'.lookup hash)

namespace Chainstate

variable {crypto : Crypto} {keys : PubKeys} {p : Params} {files files' : BlockFiles}
  {pblock pblock' : Option CBlock}

theorem readBlock_twin (hfiles : files.Twin crypto p files') (pindex : CBlockIndex) :
    Option.Rel (CBlock.Twin crypto p) (readBlock crypto p files pindex)
      (readBlock crypto p files' pindex) := by
  have hrel := hfiles pindex.hash
  rw [readBlock, readBlock]
  generalize files.lookup pindex.hash = b, files'.lookup pindex.hash = b' at hrel ⊢
  cases hrel with
  | none => exact .none
  | some htwin =>
    rw [Option.filter_some, Option.filter_some, htwin.readBlockFromDisk]
    split_ifs
    · exact .some htwin
    · exact .none

theorem disconnectTip_twin (hfiles : files.Twin crypto p files') (s : Chainstate) :
    s.disconnectTip crypto keys p files' = s.disconnectTip crypto keys p files := by
  rw [disconnectTip, disconnectTip]
  cases s.tip with
  | none => rfl
  | some tip =>
    have hrel := readBlock_twin hfiles tip.toCBlockIndex
    simp only [orFail, check_ok_bind]
    generalize readBlock crypto p files tip.toCBlockIndex = b,
      readBlock crypto p files' tip.toCBlockIndex = b' at hrel ⊢
    cases hrel with
    | none => rfl
    | some htwin => simp only [check_ok_bind, htwin.disconnectBlock]

theorem setModifier_twin {block block' : CBlock} (htwin : block.Twin crypto p block') (s : Chainstate)
    (pindex : IndexEntry) :
    s.setModifier crypto p pindex block' = s.setModifier crypto p pindex block := by
  simp only [setModifier, htwin.check, htwin.header, htwin.blockStakeModifier]

section

variable (hfiles : files.Twin crypto p files')
  (hblock : Option.Rel (CBlock.Twin crypto p) pblock pblock')
include hfiles hblock

theorem connectTip_twin (s : Chainstate) (pindexNew : IndexEntry) :
    s.connectTip crypto keys p files' pblock' pindexNew =
      s.connectTip crypto keys p files pblock pindexNew := by
  have hrel : Option.Rel (CBlock.Twin crypto p)
      (pblock <|> readBlock crypto p files pindexNew.toCBlockIndex)
      (pblock' <|> readBlock crypto p files' pindexNew.toCBlockIndex) := by
    cases hblock with
    | none => exact readBlock_twin hfiles _
    | some htwin => exact .some htwin
  rw [connectTip, connectTip]
  split_ifs
  · rfl
  · generalize (pblock <|> readBlock crypto p files pindexNew.toCBlockIndex) = b,
      (pblock' <|> readBlock crypto p files' pindexNew.toCBlockIndex) = b' at hrel ⊢
    cases hrel with
    | none => rfl
    | some htwin => simp only [htwin.connectBlock, setModifier_twin htwin]

theorem activateBestChainStep_twin (s : Chainstate) (hash : Uint256) :
    s.activateBestChainStep crypto keys p files' pblock' hash =
      s.activateBestChainStep crypto keys p files pblock hash := by
  have hdis : disconnectTip crypto keys p files' = disconnectTip crypto keys p files :=
    funext (disconnectTip_twin hfiles)
  have hcon : (fun s pindex => connectTip crypto keys p files'
      (if pindex.hash = hash then pblock' else none) s pindex) = fun s pindex =>
        connectTip crypto keys p files (if pindex.hash = hash then pblock else none) s pindex := by
    funext s pindex
    apply connectTip_twin hfiles
    split_ifs
    · exact hblock
    · exact .none
  rw [activateBestChainStep, activateBestChainStep, hdis, hcon]

theorem activateTurn_twin (s : Chainstate) (w : Option Uint256) :
    s.activateTurn crypto keys p files' pblock' w = s.activateTurn crypto keys p files pblock w := by
  have hfilter : ∀ hash, Option.Rel (CBlock.Twin crypto p)
      (pblock.filter fun block => block.getHash crypto = hash)
      (pblock'.filter fun block => block.getHash crypto = hash) := by
    intro hash
    cases hblock with
    | none => exact .none
    | some htwin =>
      rw [Option.filter_some, Option.filter_some, htwin.header]
      split_ifs
      · exact .some htwin
      · exact .none
  rw [activateTurn, activateTurn]
  split
  · rfl
  · rfl
  · next hash _ => simp only [activateBestChainStep_twin hfiles (hfilter hash)]

theorem activateBestChain_twin (n : ℕ) (s : Chainstate) (w : Option Uint256) :
    s.activateBestChain crypto keys p files' pblock' n w =
      s.activateBestChain crypto keys p files pblock n w := by
  induction n generalizing s w with
  | zero => rfl
  | succ n ih =>
    rw [activateBestChain, activateBestChain, activateTurn_twin hfiles hblock]
    simp only [ih]

end

end Chainstate

end X2XCoin
