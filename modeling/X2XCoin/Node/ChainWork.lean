import X2XCoin.Node.Run

/-!
# Chain work

`nChainWork` of an entry is the work of its parent plus its own, in 256 bits.  Neither the bits nor
the proof of work of a header are checked before the proof-of-stake stage.
-/

namespace X2XCoin

/-- The sum of `GetBlockProof` over a path of the tree. -/
def Tree.work (t : Tree) (hash : Uint256) : ℕ :=
  ((t.path hash).map fun v => (getBlockProof v.nBits).toNat).sum

/-- Every entry has the work of its chain. -/
def Tree.WorkTrue (t : Tree) : Prop := ∀ hash v, t hash = some v → v.nChainWork.toNat = t.work hash

namespace Chainstate

/-- The chain work of every entry is the sum of `GetBlockProof` over the entry and its ancestors, and
not below that of its parent, as `CheckBlockIndex` asserts. -/
def ChainWorkTrue (s : Chainstate) : Prop :=
  ∀ hash pindex, s.lookup hash = some pindex →
    pindex.nChainWork.toNat = ((s.path hash).map fun i => (getBlockProof i.nBits).toNat).sum ∧
      ∀ pprev, pindex.pprev.bind s.lookup = some pprev → pprev.nChainWork ≤ pindex.nChainWork

end Chainstate

/-! ## One header -/

namespace Tree

variable {t : Tree} {genesis prev hash : Uint256} {v : TreeNode} {nBits : UInt32}

/-- The work of a header fits on top of the work of its parent. -/
def Fits (v : TreeNode) (nBits : UInt32) : Prop :=
  v.nChainWork.toNat + (getBlockProof nBits).toNat < 2 ^ 256

theorem child_work_eq_iff : (v.child prev hash nBits).nChainWork.toNat =
    v.nChainWork.toNat + (getBlockProof nBits).toNat ↔ Fits v nBits := by
  show (v.nChainWork + getBlockProof nBits).toNat = _ ↔ _
  constructor
  · intro h
    rw [Fits, ← h]
    exact BitVec.isLt _
  · exact BitVec.toNat_add_of_lt

section

variable (ht : t.WellFormed genesis) (hnew : t hash = none) (hv : t prev = some v)
include ht hnew hv

theorem WellFormed.work_add {h : Uint256} {w : TreeNode} (hw : t h = some w) :
    (t.add v prev hash nBits).work h = t.work h := by
  rw [work, ht.path_add hnew hv hw, work]

theorem WellFormed.work_add_self :
    (t.add v prev hash nBits).work hash = t.work prev + (getBlockProof nBits).toNat := by
  rw [work, ht.path_add_self hnew hv, List.map_cons, List.sum_cons, Nat.add_comm]
  rfl

/-- Adding a header keeps the property exactly when its work fits. -/
theorem WellFormed.workTrue_add (hwork : t.WorkTrue) :
    (t.add v prev hash nBits).WorkTrue ↔ Fits v nBits := by
  have hprev := hwork prev v hv
  constructor
  · intro h
    rw [← @child_work_eq_iff prev hash, h hash _ add_self, ht.work_add_self hnew hv, hprev]
  · intro hfits h w hw
    obtain ⟨rfl, rfl⟩ | hw := add_eq_some hw
    · rw [ht.work_add_self hnew hv, child_work_eq_iff.mpr hfits, hprev]
    · rw [ht.work_add hnew hv hw, hwork h w hw]

end

theorem WellFormed.work_child (ht : t.WellFormed genesis) (hv : t hash = some v)
    (hp : v.pprev = some prev) : t.work hash = (getBlockProof v.nBits).toNat + t.work prev := by
  rw [work, path, ht.linked.path_child hv hp, List.map_cons, List.sum_cons]
  rfl

end Tree

theorem Chainstate.chainWorkTrue_iff {s : Chainstate} {genesis : Uint256}
    (ht : s.tree.WellFormed genesis) : s.ChainWorkTrue ↔ s.tree.WorkTrue := by
  have hsum : ∀ hash, ((s.path hash).map fun i => (getBlockProof i.nBits).toNat).sum =
      s.tree.work hash := by
    intro hash
    rw [Tree.work, path, s.mapBlockIndex.map_path hash
      (g := fun v => (getBlockProof v.nBits).toNat) fun _ => rfl]
    rfl
  constructor
  · intro h hash v hv
    obtain ⟨e, he, rfl⟩ := tree_eq_some.mp hv
    exact ((h hash e he).1).trans (hsum hash)
  · intro h hash e he
    refine ⟨(h hash _ (tree_of_lookup he)).trans (hsum hash).symm, fun e' hparent => ?_⟩
    obtain ⟨prev, hp, he'⟩ := Option.bind_eq_some_iff.mp hparent
    have hwork : e.nChainWork.toNat = s.tree.work hash := h hash _ (tree_of_lookup he)
    have hwork' : e'.nChainWork.toNat = s.tree.work prev := h prev _ (tree_of_lookup he')
    rw [BitVec.le_def, hwork, hwork', ht.work_child (tree_of_lookup he) hp]
    exact Nat.le_add_left ..

namespace Running

variable {crypto : Crypto} {keys : PubKeys} {p : Params} {r : Running} {genesis : CBlock}

/-- If the operation adds a header, the work of its chain fits into 256 bits. -/
def WorkFits (crypto : Crypto) (p : Params) (r : Running) (op : NodeOp) : Prop :=
  ∀ block pprev, r.NewHeader crypto p op block pprev →
    pprev.nChainWork.toNat + (getBlockProof block.nBits).toNat < 2 ^ 256

theorem step_chainWorkTrue (ht : r.tree.WellFormed p.hashGenesisBlock) (hr : r.ChainWorkTrue)
    (op : NodeOp) : (r.step crypto keys p op).ChainWorkTrue ↔ r.WorkFits crypto p op := by
  rw [Chainstate.chainWorkTrue_iff ht] at hr
  rw [Chainstate.chainWorkTrue_iff (step_wellFormed ht op)]
  obtain ⟨hno, htree⟩ | ⟨block, pprev, hnew, htree⟩ := tree_step_cases ht op
  · rw [htree]
    exact ⟨fun _ block pprev h => absurd h (hno block pprev), fun _ => hr⟩
  · rw [htree, ht.workTrue_add (BlockMap.tree_eq_none.mpr hnew.unknown)
      (Chainstate.tree_of_lookup hnew.parent) hr]
    refine ⟨fun hfits block' pprev' h => ?_, fun h => h block pprev hnew⟩
    obtain ⟨_, _, _, hargs, -⟩ := hnew.accepted
    obtain ⟨_, _, _, hargs', -⟩ := h.accepted
    cases hargs.symm.trans hargs'
    cases hnew.parent.symm.trans h.parent
    exact hfits

theorem start_chainWorkTrue : (start p genesis).ChainWorkTrue := by
  rw [Chainstate.chainWorkTrue_iff start_wellFormed]
  intro hash v hv
  obtain ⟨rfl, rfl⟩ := start_eq_some hv
  rw [Tree.work, Tree.path, start_wellFormed.linked.path_root hv rfl]
  exact (List.sum_singleton).symm

/-- In a run from the genesis block the chain work is the true work in every state exactly when
every header that is added has work that fits. -/
theorem chainWorkTrue_run (crypto : Crypto) (keys : PubKeys) (p : Params) (genesis : CBlock)
    (ops : List NodeOp) :
    (∀ ops', ops' <+: ops → (ops'.foldl (step crypto keys p) (start p genesis)).ChainWorkTrue) ↔
      Run.Meets (step crypto keys p) (WorkFits crypto p) (start p genesis) ops :=
  (Run.meets_iff (S := fun r : Running => r.tree.WellFormed p.hashGenesisBlock)
    (P := fun r : Running => r.ChainWorkTrue) (fun _ op ht => step_wellFormed ht op)
    (fun _ op ht hr => step_chainWorkTrue ht hr op) start_wellFormed start_chainWorkTrue).symm

/-! ## Two headers

Headers of the main net with a target of one, the second on top of the first.  The work of each is
half of what 256 bits can hold. -/

def heavyHeader : CBlockHeader where
  nVersion := 7
  hashPrevBlock := mainParams.hashGenesisBlock
  hashMerkleRoot := 0
  nTime := 1769817680
  nBits := 0x03000001
  nNonce := 0

def heavyHash : Uint256 := 0x51d3ef1df7702235ff6b5bf5a3f725061d8cb56a2fe4a57603f1fdc97fcf0a59

def heavyChild : CBlockHeader :=
  { heavyHeader with hashPrevBlock := heavyHash, nTime := 1769817696 }

def heavyChildHash : Uint256 := 0xa54803e415022c8c333aa15fed94c2163aa3865095665c1131986d41ef525607

def heavyCrypto : Crypto where
  hash256 bytes :=
    if bytes = heavyHeader.serialize then heavyHash
    else if bytes = heavyChild.serialize then heavyChildHash
    else 0
  scrypt _ := 0
  verify _ _ _ := false
  checkLowS _ := false
  verifyScript _ _ _ _ _ := .error "unknown error"

/-- Both headers are accepted, and then the second has less work than the first. -/
theorem heavyHeaders_chainWork_wraps :
    let r := [NodeOp.header 1769817700 heavyHeader, NodeOp.header 1769817700 heavyChild].foldl
      (step heavyCrypto PubKeys.none mainParams) (start mainParams X2XCoin.mainGenesis)
    (∃ pindex, r.lookup heavyChildHash = some pindex) ∧ ¬ r.ChainWorkTrue := by
  intro r
  have hlookup : (r.lookup heavyChildHash).isSome = true := by decide +kernel
  obtain ⟨pindex, hpindex⟩ := Option.isSome_iff_exists.mp hlookup
  refine ⟨⟨pindex, hpindex⟩, fun h => ?_⟩
  have hwrong : (r.lookup heavyChildHash).map (fun i => i.nChainWork.toNat) ≠
      some ((r.path heavyChildHash).map fun i => (getBlockProof i.nBits).toNat).sum := by
    decide +kernel
  exact hwrong (by rw [hpindex, Option.map_some, (h heavyChildHash pindex hpindex).1])

end Running

end X2XCoin
