import X2XCoin.Node.Header

/-!
# Block data

`ContextualCheckBlock`, `ReceivedBlockTransactions` and `AcceptBlock` of `main.cpp`.  Writing a
block to disk does not fail.
-/

open ByteCodec

namespace X2XCoin

/-! ## Contextual checks -/

def LOCKTIME_THRESHOLD : ℤ := 500000000

def isFinalTx (tx : CTransaction) (nBlockHeight nBlockTime : ℤ) : Bool :=
  let nLockTime : ℤ := tx.nLockTime.toNat
  tx.nLockTime = 0 ||
    decide (nLockTime < if nLockTime < LOCKTIME_THRESHOLD then nBlockHeight else nBlockTime) ||
    tx.vin.all fun i => i.nSequence = 0xffffffff

/-- `CScriptNum::serialize` of a height: little endian, with room for the sign bit. -/
def scriptNum (n : ℕ) : Bytes :=
  leBytes (if n < 0x80 then 1 else if n < 0x8000 then 2 else if n < 0x800000 then 3
    else if n < 0x80000000 then 4 else 5) n

def heightScript (nHeight : ℕ) : CScript :=
  if nHeight = 0 then [OP_0]
  else if nHeight ≤ 16 then [UInt8.ofNat nHeight + (OP_1 - 1)]
  else writeBytes (scriptNum nHeight)

def contextualCheckBlock (block : CBlock) (nHeight : ℕ) : Check Unit := do
  ensure (∀ tx ∈ block.vtx, isFinalTx tx nHeight block.getBlockTime)
    (dos 10 .invalid "bad-txns-nonfinal" false)
  let coinBase ← orFail .outOfBounds block.vtx.head?
  let txin ← orFail .outOfBounds coinBase.vin.head?
  ensure (heightScript nHeight <+: txin.scriptSig) (dos 100 .invalid "bad-cb-height" false)

/-- The failure makes `AcceptBlock` and `ConnectTip` mark the block as invalid. -/
def Failure.condemns : Failure → Bool
  | .rejected state => state.isInvalid && !state.corruptionPossible
  | _ => false

/-! ## Received data -/

namespace CBlockIndex

/-- `CBlockIndexWorkComparator`; entries of one run with the same work differ in their sequence id
once their data is there. -/
def worse (a b : CBlockIndex) : Bool :=
  a.nChainWork < b.nChainWork || a.nChainWork = b.nChainWork && b.nSequenceId < a.nSequenceId

/-- What `ReceivedBlockTransactions` writes to the entry of the block itself. -/
def received (i : CBlockIndex) (block : CBlock) : CBlockIndex :=
  { i with
    nTx := block.vtx.length
    nChainTx := 0
    nStatus := { i.nStatus with
        proofOfStake := i.nStatus.proofOfStake || block.isProofOfStake
        haveData := true }.raiseValidity 3 }

end CBlockIndex

namespace Chainstate

/-- Insert into `setBlockIndexCandidates`. -/
def addCandidate (s : Chainstate) (hash : Uint256) : Chainstate :=
  { s with setBlockIndexCandidates := s.setBlockIndexCandidates.insert hash }

def eraseCandidate (s : Chainstate) (hash : Uint256) : Chainstate :=
  { s with
    setBlockIndexCandidates := s.setBlockIndexCandidates.filter fun h => h ≠ hash }

/-- Not worse than the tip. -/
def isCandidate (s : Chainstate) (hash : Uint256) : Bool :=
  match s.lookup hash, s.tip with
  | some i, some tip => !i.worse tip.toCBlockIndex
  | _, _ => true

/-- One turn of the loop of `ReceivedBlockTransactions`: the entry `hash` gets the number of
transactions up to it and its sequence id; the blocks that waited for it come off the map. -/
def linkBlock (s : Chainstate) (hash : Uint256) : Chainstate × List Uint256 :=
  let nPrevChainTx := (((s.lookup hash).bind fun i => i.pprev).bind s.lookup).map fun i =>
    i.nChainTx
  let s := s.modify hash fun i =>
    { i with nChainTx := nPrevChainTx.getD 0 + i.nTx, nSequenceId := s.nBlockSequenceId }
  let s := { s with nBlockSequenceId := s.nBlockSequenceId + 1 }
  let s := if s.isCandidate hash then s.addCandidate hash else s
  ({ s with mapBlocksUnlinked := s.mapBlocksUnlinked.filter fun w => w.1 ≠ hash },
    (s.mapBlocksUnlinked.filter fun w => w.1 = hash).map Prod.snd)

/-- The loop; every turn but the first takes an entry off `mapBlocksUnlinked`. -/
def linkBlocks : ℕ → List Uint256 → Chainstate → Chainstate
  | 0, _, s => s
  | _ + 1, [], s => s
  | n + 1, hash :: queue, s =>
    let (s, waiting) := s.linkBlock hash
    linkBlocks n (queue ++ waiting) s

def receivedBlockTransactions (s : Chainstate) (hash : Uint256) (block : CBlock) : Chainstate :=
  let s := s.modify hash fun i => i.received block
  match ((s.lookup hash).bind fun i => i.pprev) with
  | none => linkBlocks (s.mapBlocksUnlinked.length + 1) [hash] s
  | some prev =>
    match s.lookup prev with
    | none => s
    | some pprev =>
      if pprev.nChainTx ≠ 0 then linkBlocks (s.mapBlocksUnlinked.length + 1) [hash] s
      else if pprev.nStatus.isValid 2 then
        { s with mapBlocksUnlinked := s.mapBlocksUnlinked ++ [(prev, hash)] }
      else s

/-! ## `AcceptBlock` -/

def MIN_BLOCKS_TO_KEEP : ℕ := 500

/-- The block is not processed: the data is there, or nobody asked for it and it is old, on a chain
with no more work than the active one, or too far ahead. -/
def skipsBlock (s : Chainstate) (pindex : CBlockIndex) (fRequested : Bool) : Bool :=
  pindex.nStatus.haveData || !fRequested &&
    (pindex.nTx ≠ 0 || (s.tip.map fun tip => !decide (pindex.nChainWork > tip.nChainWork)).getD false
      || decide ((pindex.nHeight : ℤ) > s.height + MIN_BLOCKS_TO_KEEP))

/-- The checks of `AcceptBlock` on the data. -/
def checkBlockData (crypto : Crypto) (p : Params) (s : Chainstate) (block : CBlock) (nHeight : ℕ) :
    Check Unit := do
  checkBlock crypto p s.height block true true true
  contextualCheckBlock block nHeight

/-- Mark a block that failed with `f`, if it is to be marked. -/
def condemn (s : Chainstate) (hash : Uint256) (f : Failure) : Chainstate :=
  if f.condemns then s.modifyStatus hash fun status => { status with failedValid := true } else s

section

variable {s : Chainstate} {hash : Uint256} {block : CBlock} {f : Failure}

@[simp] theorem tree_addCandidate : (s.addCandidate hash).tree = s.tree := rfl

@[simp] theorem tree_eraseCandidate : (s.eraseCandidate hash).tree = s.tree := rfl

@[simp] theorem tree_condemn : (s.condemn hash f).tree = s.tree := by
  rw [condemn]
  split_ifs
  · exact tree_modifyStatus
  · rfl

@[simp] theorem tree_linkBlock : (s.linkBlock hash).1.tree = s.tree := by
  simp only [linkBlock]
  split_ifs <;> exact tree_modify fun _ => ⟨rfl, rfl, rfl, rfl⟩

@[simp] theorem tree_linkBlocks (n : ℕ) (queue : List Uint256) :
    (linkBlocks n queue s).tree = s.tree := by
  induction n, queue, s using linkBlocks.induct with
  | case1 | case2 => rfl
  | case3 n hash queue s s' waiting hlink ih =>
    rw [linkBlocks, hlink, ih, ← @tree_linkBlock s hash, hlink]

@[simp] theorem chainActive_condemn : (s.condemn hash f).chainActive = s.chainActive := by
  rw [condemn]
  split_ifs <;> rfl

@[simp] theorem chainActive_linkBlock : (s.linkBlock hash).1.chainActive = s.chainActive := by
  simp only [linkBlock]
  split_ifs <;> rfl

@[simp] theorem chainActive_linkBlocks (n : ℕ) (queue : List Uint256) :
    (linkBlocks n queue s).chainActive = s.chainActive := by
  induction n, queue, s using linkBlocks.induct with
  | case1 | case2 => rfl
  | case3 n hash queue s s' waiting hlink ih =>
    rw [linkBlocks, hlink, ih, ← @chainActive_linkBlock s hash, hlink]

@[simp] theorem chainActive_receivedBlockTransactions :
    (s.receivedBlockTransactions hash block).chainActive = s.chainActive := by
  simp only [receivedBlockTransactions]
  split
  · exact chainActive_linkBlocks ..
  · split
    · rfl
    · split_ifs
      · exact chainActive_linkBlocks ..
      · rfl
      · rfl

@[simp] theorem tree_receivedBlockTransactions :
    (s.receivedBlockTransactions hash block).tree = s.tree := by
  have hmod : (s.modify hash fun i => i.received block).tree = s.tree :=
    tree_modify fun _ => ⟨rfl, rfl, rfl, rfl⟩
  simp only [receivedBlockTransactions]
  split
  · rw [tree_linkBlocks, hmod]
  · split
    · exact hmod
    · split_ifs
      · rw [tree_linkBlocks, hmod]
      · exact hmod
      · exact hmod

end

end Chainstate

namespace Node

/-- `AcceptBlock` after the header was accepted as `pindex`. -/
def acceptBlockData (crypto : Crypto) (p : Params) (node : Node) (block : CBlock)
    (pindex : CBlockIndex) : Node × Check Unit :=
  match node.checkBlockData crypto p block pindex.nHeight with
  | .error f => ({ node with toChainstate := node.condemn pindex.hash f }, .error f)
  | .ok () =>
    if block.isProofOfWork ∧ (pindex.nHeight : ℤ) > p.nLastPOWBlock then
      (node, .error (dos 100 .invalid "bad-pow-height" false))
    else
      (⟨node.receivedBlockTransactions pindex.hash block, node.blockFiles.insert pindex.hash block⟩,
        .ok ())

def acceptBlock (crypto : Crypto) (p : Params) (nAdjustedTime : ℤ) (node : Node) (block : CBlock)
    (fRequested : Bool) : Node × Check Unit :=
  match node.acceptBlockHeader crypto p nAdjustedTime block.toCBlockHeader block.isProofOfStake with
  | .error f => (node, .error f)
  | .ok s =>
    let node := { node with toChainstate := s }
    match s.lookup (block.getHash crypto) with
    | none => (node, .error .assertion)
    | some pindex =>
      if s.skipsBlock pindex.toCBlockIndex fRequested then (node, .ok ())
      else node.acceptBlockData crypto p block pindex.toCBlockIndex

section

variable {crypto : Crypto} {p : Params} {nAdjustedTime : ℤ} {node : Node} {block : CBlock}

@[simp] theorem tree_acceptBlockData {pindex : CBlockIndex} :
    (node.acceptBlockData crypto p block pindex).1.tree = node.tree := by
  unfold acceptBlockData
  split
  · exact Chainstate.tree_condemn
  · split_ifs
    · rfl
    · exact Chainstate.tree_receivedBlockTransactions

@[simp] theorem chainActive_acceptBlockData {pindex : CBlockIndex} :
    (node.acceptBlockData crypto p block pindex).1.chainActive = node.chainActive := by
  unfold acceptBlockData
  split
  · exact Chainstate.chainActive_condemn
  · split_ifs
    · rfl
    · exact Chainstate.chainActive_receivedBlockTransactions

@[simp] theorem chainActive_acceptBlock (fRequested : Bool) :
    (node.acceptBlock crypto p nAdjustedTime block fRequested).1.chainActive = node.chainActive := by
  unfold acceptBlock
  split
  · rfl
  · next hacc =>
    have hchain := Chainstate.acceptBlockHeader_chainActive hacc
    simp only
    split
    · exact hchain
    · split_ifs
      · exact hchain
      · exact chainActive_acceptBlockData.trans hchain

theorem blockFiles_acceptBlock {hash : Uint256} (fRequested : Bool)
    (h : (node.blockFiles.lookup hash).isSome) :
    ((node.acceptBlock crypto p nAdjustedTime block fRequested).1.blockFiles.lookup hash).isSome := by
  unfold acceptBlock
  split
  · exact h
  · simp only
    split
    · exact h
    · next pindex _ =>
      split_ifs
      · exact h
      · unfold acceptBlockData
        split
        · exact h
        · split_ifs
          · exact h
          · by_cases heq : hash = pindex.hash
            · rw [heq, AList.lookup_insert]
              rfl
            · rw [AList.lookup_insert_ne heq]
              exact h

theorem tree_acceptBlock (fRequested : Bool) :
    (node.acceptBlock crypto p nAdjustedTime block fRequested).1.tree =
      match node.acceptBlockHeader crypto p nAdjustedTime block.toCBlockHeader
        block.isProofOfStake with
      | .error _ => node.tree
      | .ok s => s.tree := by
  rw [acceptBlock]
  cases node.acceptBlockHeader crypto p nAdjustedTime block.toCBlockHeader block.isProofOfStake with
  | error => rfl
  | ok s =>
    simp only
    split
    · rfl
    · split_ifs
      · rfl
      · exact tree_acceptBlockData

end

end Node

end X2XCoin
