import X2XCoin.Lib.Run
import X2XCoin.Node.Activate

/-!
# Runs of a node

What happens to a node, one critical section of `cs_main` after another.  Several calls of
`ActivateBestChain` may be under way, each with its own `pindexMostWork`.
-/

namespace X2XCoin

/-- A node and the calls of `ActivateBestChain` under way. -/
structure Running extends Node where
  pindexMostWork : ℕ → Option Uint256

inductive NodeOp where
  /-- `AcceptBlockHeader` with its default arguments. -/
  | header (nAdjustedTime : ℤ) (block : CBlockHeader)
  /-- `AcceptBlock`. -/
  | block (nAdjustedTime : ℤ) (block : CBlock) (fRequested : Bool)
  /-- A turn of the call of `ActivateBestChain` in a thread. -/
  | activate (thread : ℕ) (pblock : Option CBlock)

/-- What an operation hands to `AcceptBlockHeader`. -/
def NodeOp.headerArgs : NodeOp → Option (ℤ × CBlockHeader × Bool)
  | .header nAdjustedTime b => some (nAdjustedTime, b, true)
  | .block nAdjustedTime b _ => some (nAdjustedTime, b.toCBlockHeader, b.isProofOfStake)
  | .activate _ _ => none

namespace Running

/-- The node after `InitBlockIndex`: the genesis block is in the index and active. -/
def start (p : Params) (genesis : CBlock) : Running where
  mapBlockIndex := (∅ : BlockMap).insert p.hashGenesisBlock
    { CBlockIndex.ofHeader p.hashGenesisBlock genesis.toCBlockHeader with
      nChainWork := getBlockProof genesis.nBits
      nTx := genesis.vtx.length
      nChainTx := genesis.vtx.length
      nStatus := { validity := 3, haveData := true }
      nSequenceId := 1 }
  chainActive := [p.hashGenesisBlock]
  setBlockIndexCandidates := [p.hashGenesisBlock]
  mapBlocksUnlinked := []
  nBlockSequenceId := 2
  pindexBestHeader := some p.hashGenesisBlock
  undoFiles := ∅
  pcoinsTip := CoinsView.empty.setBestBlock p.hashGenesisBlock
  blockFiles := (∅ : BlockFiles).insert p.hashGenesisBlock genesis
  pindexMostWork := fun _ => none

def turn (crypto : Crypto) (keys : PubKeys) (p : Params) (r : Running) (thread : ℕ)
    (pblock : Option CBlock) : Chainstate.Turn :=
  r.activateTurn crypto keys p r.blockFiles pblock (r.pindexMostWork thread)

def step (crypto : Crypto) (keys : PubKeys) (p : Params) (r : Running) : NodeOp → Running
  | .header nAdjustedTime block =>
    match r.acceptBlockHeader crypto p nAdjustedTime block true with
    | .error _ => r
    | .ok s => { r with toChainstate := s }
  | .block nAdjustedTime block fRequested =>
    { r with toNode := (r.acceptBlock crypto p nAdjustedTime block fRequested).1 }
  | .activate thread pblock =>
    let t := r.turn crypto keys p thread pblock
    { r with
      toChainstate := t.state
      pindexMostWork := Function.update r.pindexMostWork thread t.pindexMostWork }

section

variable {crypto : Crypto} {keys : PubKeys} {p : Params} {r : Running} {genesis : CBlock}

theorem tree_start : (start p genesis).tree = Function.update (fun _ => none) p.hashGenesisBlock
    (some ⟨p.hashGenesisBlock, none, 0, genesis.nBits, getBlockProof genesis.nBits⟩) :=
  BlockMap.tree_insert ..

theorem start_eq_some {h : Uint256} {v : TreeNode} (hv : (start p genesis).tree h = some v) :
    h = p.hashGenesisBlock ∧
      v = ⟨p.hashGenesisBlock, none, 0, genesis.nBits, getBlockProof genesis.nBits⟩ := by
  rw [tree_start] at hv
  by_cases heq : h = p.hashGenesisBlock
  · subst heq
    rw [Function.update_self] at hv
    exact ⟨rfl, (Option.some.inj hv).symm⟩
  · rw [Function.update_of_ne heq] at hv
    cases hv

theorem start_wellFormed : (start p genesis).tree.WellFormed p.hashGenesisBlock where
  linked :=
    { parent_some := fun hv hp => by
        obtain ⟨-, rfl⟩ := start_eq_some hv
        cases hp
      parent_none := fun hv _ => by
        obtain ⟨-, rfl⟩ := start_eq_some hv
        rfl }
  hash_eq hv := by
    obtain ⟨rfl, rfl⟩ := start_eq_some hv
    rfl
  root hv _ := (start_eq_some hv).1
  genesis_mem := ⟨_, (congrFun tree_start _).trans (Function.update_self ..)⟩

/-- A header that is accepted and was not known before. -/
structure NewHeader (crypto : Crypto) (p : Params) (r : Running) (op : NodeOp) (block : CBlockHeader)
    (pprev : IndexEntry) : Prop where
  accepted : ∃ nAdjustedTime fProofOfStake s,
    op.headerArgs = some (nAdjustedTime, block, fProofOfStake) ∧
      r.acceptBlockHeader crypto p nAdjustedTime block fProofOfStake = .ok s
  unknown : r.lookup (block.getHash crypto) = none
  parent : r.lookup block.hashPrevBlock = some pprev

theorem tree_step (op : NodeOp) : (r.step crypto keys p op).tree =
    match op.headerArgs with
    | none => r.tree
    | some (nAdjustedTime, block, fProofOfStake) =>
      match r.acceptBlockHeader crypto p nAdjustedTime block fProofOfStake with
      | .error _ => r.tree
      | .ok s => s.tree := by
  cases op with
  | header nAdjustedTime block =>
    simp only [step, NodeOp.headerArgs]
    cases r.acceptBlockHeader crypto p nAdjustedTime block true <;> rfl
  | block nAdjustedTime block fRequested => exact Node.tree_acceptBlock fRequested
  | activate thread pblock => exact Chainstate.tree_activateTurn

/-- A step leaves the tree as it is or adds one header to it. -/
theorem tree_step_cases (ht : r.tree.WellFormed p.hashGenesisBlock) (op : NodeOp) :
    ((∀ block pprev, ¬ r.NewHeader crypto p op block pprev) ∧
        (r.step crypto keys p op).tree = r.tree) ∨
      ∃ block pprev, r.NewHeader crypto p op block pprev ∧ (r.step crypto keys p op).tree =
        r.tree.add pprev.treeNode block.hashPrevBlock (block.getHash crypto) block.nBits := by
  rw [tree_step]
  cases hargs : op.headerArgs with
  | none =>
    refine .inl ⟨fun block pprev h => ?_, rfl⟩
    obtain ⟨_, _, _, h, -⟩ := h.accepted
    cases hargs.symm.trans h
  | some args =>
    obtain ⟨nAdjustedTime, block, fProofOfStake⟩ := args
    cases hacc : r.acceptBlockHeader crypto p nAdjustedTime block fProofOfStake with
    | error f =>
      refine .inl ⟨fun block' pprev h => ?_, by simp only [hacc]⟩
      obtain ⟨_, _, _, h, hok⟩ := h.accepted
      cases hargs.symm.trans h
      cases hacc.symm.trans hok
    | ok s =>
      simp only [hacc]
      have hgen : (r.lookup p.hashGenesisBlock).isSome := by
        obtain ⟨v, hv⟩ := ht.genesis_mem
        obtain ⟨e, he, -⟩ := Chainstate.tree_eq_some.mp hv
        exact Option.isSome_iff_exists.mpr ⟨e, he⟩
      obtain ⟨hknown, htree⟩ | ⟨hnew, v, hv, htree⟩ := Chainstate.acceptBlockHeader_tree hgen hacc
      · refine .inl ⟨fun block' pprev h => ?_, htree⟩
        obtain ⟨_, _, _, h', -⟩ := h.accepted
        cases hargs.symm.trans h'
        rw [h.unknown] at hknown
        cases hknown
      · obtain ⟨pprev, hprev, rfl⟩ := Chainstate.tree_eq_some.mp hv
        exact .inr ⟨block, pprev, ⟨⟨_, _, _, hargs, hacc⟩, hnew, hprev⟩, htree⟩

theorem blockFiles_step {hash : Uint256} (op : NodeOp) (h : (r.blockFiles.lookup hash).isSome) :
    ((r.step crypto keys p op).blockFiles.lookup hash).isSome := by
  cases op with
  | header nAdjustedTime block =>
    simp only [step]
    split <;> exact h
  | block nAdjustedTime block fRequested => exact Node.blockFiles_acceptBlock fRequested h
  | activate thread pblock => exact h

/-- The genesis block is in the files of every state of a run. -/
theorem blockFiles_run (ops : List NodeOp) : ((ops.foldl (step crypto keys p)
    (start p genesis)).blockFiles.lookup p.hashGenesisBlock).isSome := by
  induction ops using List.reverseRecOn with
  | nil => rw [List.foldl_nil, start, AList.lookup_insert]; rfl
  | append_singleton ops op ih =>
    rw [List.foldl_append]
    exact blockFiles_step op ih

theorem step_wellFormed (ht : r.tree.WellFormed p.hashGenesisBlock) (op : NodeOp) :
    (r.step crypto keys p op).tree.WellFormed p.hashGenesisBlock := by
  obtain ⟨-, htree⟩ | ⟨block, pprev, hnew, htree⟩ := tree_step_cases ht op
  · rw [htree]
    exact ht
  · rw [htree]
    exact ht.add (BlockMap.tree_eq_none.mpr hnew.unknown) (Chainstate.tree_of_lookup hnew.parent)

end

end Running

end X2XCoin
