import X2XCoin.Chain.BlockMap
import X2XCoin.Coins.Coins
import X2XCoin.Validation.CheckBlock

/-!
# The state of a node and its headers

The globals of `main.cpp` that block processing works on, and `AddToBlockIndex`,
`ContextualCheckBlockHeader` and `AcceptBlockHeader`.  `Node` adds the block files.  They and the
undo
files are maps by hash.  The only checkpoints are the genesis blocks, so no header is below one.
-/

namespace X2XCoin

/-- Everything but the block files. -/
structure Chainstate where
  mapBlockIndex : BlockMap
  /-- The hashes of `chainActive`, the tip first. -/
  chainActive : List Uint256
  setBlockIndexCandidates : List Uint256
  /-- A block without all its ancestors' data, after its parent. -/
  mapBlocksUnlinked : List (Uint256 × Uint256)
  nBlockSequenceId : ℕ
  pindexBestHeader : Option Uint256
  undoFiles : AList fun _ : Uint256 => ByteCodec.Bytes
  pcoinsTip : CoinsView

namespace Chainstate

def lookup (s : Chainstate) (hash : Uint256) : Option IndexEntry := s.mapBlockIndex.lookup hash

def path (s : Chainstate) (hash : Uint256) : List CBlockIndex := s.mapBlockIndex.path hash

def tree (s : Chainstate) : Tree := s.mapBlockIndex.tree

/-- Write to an entry. -/
def modify (s : Chainstate) (hash : Uint256) (f : CBlockIndex → CBlockIndex) : Chainstate :=
  { s with mapBlockIndex := s.mapBlockIndex.modify hash f }

def modifyStatus (s : Chainstate) (hash : Uint256) (f : BlockStatus → BlockStatus) : Chainstate :=
  s.modify hash fun i => { i with nStatus := f i.nStatus }

/-! ## The active chain -/

def height (s : Chainstate) : ℤ := s.chainActive.length - 1

def tip (s : Chainstate) : Option IndexEntry := s.chainActive.head?.bind s.lookup

/-- `chainActive.Contains(pindex)`. -/
def contains (s : Chainstate) (pindex : CBlockIndex) : Bool :=
  s.chainActive.reverse[pindex.nHeight]? = some pindex.hash

/-- `chainActive.FindFork(pindex)`. -/
def findFork (s : Chainstate) (hash : Uint256) : Option CBlockIndex :=
  (s.path hash).find? s.contains

/-- `chainActive.SetTip(pindex)`. -/
def setTip (s : Chainstate) (hash : Uint256) : Chainstate :=
  { s with chainActive := (s.path hash).map CBlockIndex.hash }

/-! ## Headers -/

def newEntry (s : Chainstate) (hash : Uint256) (block : CBlockHeader) : IndexEntry :=
  let pprev := s.lookup block.hashPrevBlock
  { CBlockIndex.ofHeader hash block with
    nHeight := (pprev.map fun i => i.nHeight + 1).getD 0
    nChainWork := (pprev.map fun i => i.nChainWork).getD 0 + getBlockProof block.nBits
    nStatus := { validity := 2 }
    pprev := pprev.map fun _ => block.hashPrevBlock }

def addToBlockIndex (s : Chainstate) (hash : Uint256) (block : CBlockHeader) : Chainstate :=
  match s.lookup hash with
  | some _ => s
  | none =>
    let pindexNew := s.newEntry hash block
    let isBest := ((s.pindexBestHeader.bind s.lookup).map fun i =>
      decide (i.nChainWork < pindexNew.nChainWork)).getD true
    { s with
      mapBlockIndex := s.mapBlockIndex.insert hash pindexNew
      pindexBestHeader := if isBest then some hash else s.pindexBestHeader }

def contextualCheckBlockHeader (crypto : Crypto) (p : Params) (nAdjustedTime : ℤ) (s : Chainstate)
    (block : CBlockHeader) (pindexPrev : IndexEntry) : Check Unit :=
  onlyIf (block.getHash crypto ≠ p.hashGenesisBlock) do
    let nHeight : ℤ := pindexPrev.nHeight + 1
    ensure (¬ s.height - nHeight ≥ p.nMaxReorganizationDepth) (dos 100 .none "" false)
    ensure (¬ (s.height > p.nLastPOWBlock ∧ nHeight > p.nLastPOWBlock ∧
        block.nBits ≠ getNextTargetRequired p (s.path pindexPrev.hash) true))
      (dos 100 .invalid "bad-diffbits" false)
    ensure (¬ (nHeight > p.nLastPOWBlock ∧
        ¬ checkCoinStakeTimestamp p block.getBlockTime block.getBlockTime))
      (dos 50 .invalid "bad-pos-time" false)
    ensure (¬ block.getBlockTime > futureDrift p s.height nAdjustedTime)
      (dos 50 .invalid "time-too-new" false)
    ensure (¬ block.getBlockTime ≤ getPastTimeLimit p (s.path pindexPrev.hash))
      (invalid .invalid "time-too-old")

/-- The end of `AcceptBlockHeader`: the entry is added, and flagged as proof-of-stake above the last
proof-of-work block. -/
def addHeader (p : Params) (s : Chainstate) (hash : Uint256) (block : CBlockHeader) : Chainstate :=
  (s.addToBlockIndex hash block).modify hash fun i =>
    if (i.nHeight : ℤ) > p.nLastPOWBlock then
      { i with nStatus := { i.nStatus with proofOfStake := true } }
    else i

/-- `AcceptBlockHeader`; the entry it returns is that of the hash of the header. -/
def acceptBlockHeader (crypto : Crypto) (p : Params) (nAdjustedTime : ℤ) (s : Chainstate)
    (block : CBlockHeader) (fProofOfStake : Bool) : Check Chainstate := do
  let hash := block.getHash crypto
  if hash = p.hashGenesisBlock then pure (s.addHeader p hash block)
  else
    match s.lookup hash with
    | some pindex =>
      ensure (¬ pindex.nStatus.failed) (invalid .none "duplicate")
      pure s
    | none =>
      checkBlockHeader crypto p block (!fProofOfStake)
      let pindexPrev ← orFail (dos 10 .none "bad-prevblk" false) (s.lookup block.hashPrevBlock)
      ensure (¬ pindexPrev.nStatus.failed) (dos 100 .invalid "bad-prevblk" false)
      contextualCheckBlockHeader crypto p nAdjustedTime s block pindexPrev
      pure (s.addHeader p hash block)

/-! ## What becomes of the tree -/

section

variable {crypto : Crypto} {p : Params} {nAdjustedTime : ℤ} {s s' : Chainstate} {hash : Uint256}
  {block : CBlockHeader} {fProofOfStake : Bool}

theorem tree_of_lookup {e : IndexEntry} (h : s.lookup hash = some e) :
    s.tree hash = some e.treeNode :=
  BlockMap.tree_of_lookup h

theorem tree_eq_some {v : TreeNode} :
    s.tree hash = some v ↔ ∃ e, s.lookup hash = some e ∧ e.treeNode = v :=
  BlockMap.tree_eq_some

variable {f : CBlockIndex → CBlockIndex}

theorem tree_modify (hf : CBlockIndex.KeepsPlace f) : (s.modify hash f).tree = s.tree :=
  BlockMap.tree_modify _ _ hf

@[simp] theorem tree_modifyStatus {f : BlockStatus → BlockStatus} :
    (s.modifyStatus hash f).tree = s.tree :=
  tree_modify fun _ => ⟨rfl, rfl, rfl, rfl⟩

@[simp] theorem tree_setTip : (s.setTip hash).tree = s.tree := rfl

theorem path_eq_cons {e : IndexEntry} (h : s.lookup hash = some e) :
    ∃ rest, s.path hash = e.toCBlockIndex :: rest := by
  obtain ⟨rest, hrest⟩ := @ParentMap.path_eq_cons _ _ (s.mapBlockIndex.lookup ·) IndexEntry.pprev
    (·.nHeight) hash e h
  exact ⟨_, congrArg (List.map IndexEntry.toCBlockIndex) hrest⟩

theorem lookup_modify {h : Uint256} :
    (s.modify hash f).lookup h =
      if h = hash then (s.lookup h).map fun e => { e with toCBlockIndex := f e.toCBlockIndex }
      else s.lookup h :=
  BlockMap.lookup_modify ..

theorem lookup_modify_ne {h : Uint256} (hne : h ≠ hash) :
    (s.modify hash f).lookup h = s.lookup h := by
  rw [lookup_modify, if_neg hne]

@[simp] theorem chainActive_modify : (s.modify hash f).chainActive = s.chainActive := rfl

@[simp] theorem chainActive_modifyStatus {f : BlockStatus → BlockStatus} :
    (s.modifyStatus hash f).chainActive = s.chainActive := rfl

theorem chainActive_setTip :
    (s.setTip hash).chainActive = (s.tree.path hash).map TreeNode.hash :=
  s.mapBlockIndex.map_path hash fun _ => rfl

@[simp] theorem chainActive_addHeader :
    (s.addHeader p hash block).chainActive = s.chainActive := by
  rw [addHeader, chainActive_modify, addToBlockIndex]
  split <;> rfl

theorem acceptBlockHeader_chainActive
    (h : s.acceptBlockHeader crypto p nAdjustedTime block fProofOfStake = .ok s') :
    s'.chainActive = s.chainActive := by
  rw [acceptBlockHeader] at h
  split_ifs at h
  · rw [← check_pure_eq_ok.mp h, chainActive_addHeader]
  · split at h
    · simp only [check_bind_eq_ok, check_pure_eq_ok] at h
      obtain ⟨-, -, rfl⟩ := h
      rfl
    · simp only [check_bind_eq_ok, check_pure_eq_ok] at h
      obtain ⟨-, -, -, -, -, -, -, -, rfl⟩ := h
      exact chainActive_addHeader

theorem tree_addHeader : (s.addHeader p hash block).tree = (s.addToBlockIndex hash block).tree := by
  refine tree_modify fun i => ?_
  split_ifs <;> exact ⟨rfl, rfl, rfl, rfl⟩

theorem tree_addToBlockIndex {v : TreeNode} (hnew : s.lookup hash = none)
    (hv : s.tree block.hashPrevBlock = some v) :
    (s.addToBlockIndex hash block).tree = s.tree.add v block.hashPrevBlock hash block.nBits := by
  obtain ⟨e, he, rfl⟩ := tree_eq_some.mp hv
  have hnode : (s.newEntry hash block).treeNode =
      e.treeNode.child block.hashPrevBlock hash block.nBits := by
    simp only [newEntry, he, Option.map_some, Option.getD_some]
    rfl
  rw [addToBlockIndex, hnew, Tree.add, ← hnode]
  exact BlockMap.tree_insert ..

/-- A header that is accepted is known, or it is added below a header that is known. -/
theorem acceptBlockHeader_tree (hgen : (s.lookup p.hashGenesisBlock).isSome)
    (h : s.acceptBlockHeader crypto p nAdjustedTime block fProofOfStake = .ok s') :
    (s.lookup (block.getHash crypto)).isSome ∧ s'.tree = s.tree ∨
      s.lookup (block.getHash crypto) = none ∧ ∃ v, s.tree block.hashPrevBlock = some v ∧
        s'.tree = s.tree.add v block.hashPrevBlock (block.getHash crypto) block.nBits := by
  rw [acceptBlockHeader] at h
  split_ifs at h with hg
  · obtain rfl := check_pure_eq_ok.mp h
    obtain ⟨e, he⟩ := Option.isSome_iff_exists.mp hgen
    rw [hg, tree_addHeader, addToBlockIndex, he]
    exact .inl ⟨rfl, rfl⟩
  · cases hself : s.lookup (block.getHash crypto) with
    | some pindex =>
      simp only [hself, check_bind_eq_ok, check_pure_eq_ok] at h
      obtain ⟨-, -, rfl⟩ := h
      exact .inl ⟨rfl, rfl⟩
    | none =>
      simp only [hself, check_bind_eq_ok, orFail_eq_ok, check_pure_eq_ok] at h
      obtain ⟨-, -, prev, hprev, -, -, -, -, rfl⟩ := h
      refine .inr ⟨rfl, prev.treeNode, tree_of_lookup hprev, ?_⟩
      rw [tree_addHeader, tree_addToBlockIndex hself (tree_of_lookup hprev)]

end

end Chainstate

structure Node extends Chainstate where
  blockFiles : AList fun _ : Uint256 => CBlock

end X2XCoin
