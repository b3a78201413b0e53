import Mathlib.Data.List.AList
import X2XCoin.Chain.Index
import X2XCoin.Lib.ParentMap

/-!
# The block map

`mapBlockIndex`: the index entries by hash.  A pointer to an entry is its hash.  `BlockMap.tree` is
the part of the map that does not change, and `BlockMap.modify` changes the rest.
-/

namespace X2XCoin

/-- An index entry with its link. -/
structure IndexEntry extends CBlockIndex where
  pprev : Option Uint256 := none
  deriving DecidableEq, Repr

abbrev BlockMap := AList fun _ : Uint256 => IndexEntry

namespace BlockMap

/-- The entry of a hash and its ancestors. -/
def path (m : BlockMap) (hash : Uint256) : List CBlockIndex :=
  (ParentMap.path (m.lookup ·) IndexEntry.pprev (·.nHeight) hash).map IndexEntry.toCBlockIndex

/-- Write to the entry of a hash. -/
def modify (m : BlockMap) (hash : Uint256) (f : CBlockIndex → CBlockIndex) : BlockMap :=
  match m.lookup hash with
  | none => m
  | some e => m.insert hash { e with toCBlockIndex := f e.toCBlockIndex }

theorem lookup_modify (m : BlockMap) (hash : Uint256) (f : CBlockIndex → CBlockIndex)
    (h : Uint256) : (m.modify hash f).lookup h =
      if h = hash then (m.lookup h).map fun e => { e with toCBlockIndex := f e.toCBlockIndex }
      else m.lookup h := by
  unfold modify
  cases hm : m.lookup hash with
  | none =>
    split_ifs with heq
    · rw [heq, hm, Option.map_none]
    · rfl
  | some e =>
    split_ifs with heq
    · rw [heq, AList.lookup_insert, hm, Option.map_some]
    · exact AList.lookup_insert_ne heq

end BlockMap

/-! ## The tree -/

/-- The part of an entry that never changes. -/
structure TreeNode where
  hash : Uint256
  pprev : Option Uint256
  nHeight : ℕ
  nBits : UInt32
  nChainWork : Uint256

/-- The node of a header below the node of its parent. -/
def TreeNode.child (v : TreeNode) (prev hash : Uint256) (nBits : UInt32) : TreeNode where
  hash := hash
  pprev := some prev
  nHeight := v.nHeight + 1
  nBits := nBits
  nChainWork := v.nChainWork + getBlockProof nBits

def IndexEntry.treeNode (e : IndexEntry) : TreeNode :=
  ⟨e.hash, e.pprev, e.nHeight, e.nBits, e.nChainWork⟩

/-- A change of an entry that leaves its place in the tree. -/
def CBlockIndex.KeepsPlace (f : CBlockIndex → CBlockIndex) : Prop :=
  ∀ i, (f i).hash = i.hash ∧ (f i).nHeight = i.nHeight ∧ (f i).nBits = i.nBits ∧
    (f i).nChainWork = i.nChainWork

abbrev Tree := Uint256 → Option TreeNode

namespace Tree

/-- The node of a hash and its ancestors. -/
def path (t : Tree) (hash : Uint256) : List TreeNode :=
  ParentMap.path t TreeNode.pprev TreeNode.nHeight hash

/-- A tree grown from a genesis block. -/
structure WellFormed (genesis : Uint256) (t : Tree) : Prop where
  linked : ParentMap.WellFormed t TreeNode.pprev TreeNode.nHeight
  hash_eq : ∀ {h v}, t h = some v → v.hash = h
  root : ∀ {h v}, t h = some v → v.pprev = none → h = genesis
  genesis_mem : ∃ v, t genesis = some v

section

variable {t : Tree} {genesis prev hash : Uint256} {v : TreeNode} {nBits : UInt32}

/-- A header added below its parent. -/
def add (t : Tree) (v : TreeNode) (prev hash : Uint256) (nBits : UInt32) : Tree :=
  Function.update t hash (some (v.child prev hash nBits))

theorem add_self : t.add v prev hash nBits hash = some (v.child prev hash nBits) :=
  Function.update_self ..

variable {w : TreeNode}

theorem add_of_some {h : Uint256} (hnew : t hash = none) (hw : t h = some w) :
    t.add v prev hash nBits h = some w := by
  refine (Function.update_of_ne ?_ _ _).trans hw
  rintro rfl
  rw [hnew] at hw
  cases hw

theorem add_eq_some {h : Uint256} (hw : t.add v prev hash nBits h = some w) :
    (h = hash ∧ w = v.child prev hash nBits) ∨ t h = some w := by
  by_cases heq : h = hash
  · subst heq
    rw [add_self] at hw
    exact .inl ⟨rfl, (Option.some.inj hw).symm⟩
  · exact .inr ((Function.update_of_ne heq _ _).symm.trans hw)

section

variable (ht : t.WellFormed genesis) (hnew : t hash = none) (hv : t prev = some v)
include ht hnew hv

theorem WellFormed.add : (t.add v prev hash nBits).WellFormed genesis := by
  refine ⟨ht.linked.insert hnew ?_ nofun, ?_, ?_, ?_⟩
  · rintro k ⟨⟩
    exact ⟨v, hv, rfl⟩
  · intro h w hw
    obtain ⟨rfl, rfl⟩ | hw := add_eq_some hw
    · rfl
    · exact ht.hash_eq hw
  · intro h w hw hp
    obtain ⟨rfl, rfl⟩ | hw := add_eq_some hw
    · cases hp
    · exact ht.root hw hp
  · obtain ⟨w, hw⟩ := ht.genesis_mem
    exact ⟨w, add_of_some hnew hw⟩

theorem WellFormed.path_add {h : Uint256} (hw : t h = some w) :
    (t.add v prev hash nBits).path h = t.path h :=
  ht.linked.path_mono (fun _ _ => add_of_some hnew) hw (ht.add hnew hv).linked

theorem WellFormed.path_add_self :
    (t.add v prev hash nBits).path hash = v.child prev hash nBits :: t.path prev := by
  rw [path, (ht.add hnew hv).linked.path_child add_self rfl, ← path, ht.path_add hnew hv hv]

end

end

end Tree

namespace BlockMap

def tree (m : BlockMap) : Tree := fun h => (m.lookup h).map IndexEntry.treeNode

variable {m : BlockMap} {h : Uint256}

theorem tree_eq_some {v : TreeNode} :
    m.tree h = some v ↔ ∃ e, m.lookup h = some e ∧ e.treeNode = v :=
  Option.map_eq_some_iff

theorem tree_of_lookup {e : IndexEntry} (he : m.lookup h = some e) : m.tree h = some e.treeNode :=
  tree_eq_some.mpr ⟨e, he, rfl⟩

theorem tree_eq_none : m.tree h = none ↔ m.lookup h = none :=
  Option.map_eq_none_iff

theorem path_map_treeNode (m : BlockMap) (h : Uint256) :
    m.tree.path h =
      (ParentMap.path (m.lookup ·) IndexEntry.pprev (·.nHeight) h).map IndexEntry.treeNode :=
  ParentMap.path_map (fun _ => rfl) (fun _ => rfl) h

theorem map_path {α : Type} (m : BlockMap) (h : Uint256) {f : CBlockIndex → α} {g : TreeNode → α}
    (hfg : ∀ e : IndexEntry, f e.toCBlockIndex = g e.treeNode) :
    (m.path h).map f = (m.tree.path h).map g := by
  rw [path, path_map_treeNode, List.map_map, List.map_map]
  exact List.map_congr_left fun e _ => hfg e

theorem tree_insert (m : BlockMap) (hash : Uint256) (e : IndexEntry) :
    tree (m.insert hash e) = Function.update m.tree hash (some e.treeNode) := by
  funext h
  by_cases heq : h = hash
  · rw [heq, Function.update_self, tree, AList.lookup_insert, Option.map_some]
  · rw [Function.update_of_ne heq, tree, AList.lookup_insert_ne heq, tree]

theorem tree_modify (m : BlockMap) (hash : Uint256) {f : CBlockIndex → CBlockIndex}
    (hf : CBlockIndex.KeepsPlace f) : (m.modify hash f).tree = m.tree := by
  funext h
  rw [tree, lookup_modify]
  split_ifs with heq
  · rw [tree, Option.map_map]
    congr 1
    funext e
    obtain ⟨h₁, h₂, h₃, h₄⟩ := hf e.toCBlockIndex
    simp [IndexEntry.treeNode, h₁, h₂, h₃, h₄]
  · rfl

end BlockMap

end X2XCoin
