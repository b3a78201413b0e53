import X2XCoin.Consensus.Merkle
import X2XCoin.Lib.MerkleCounter
import X2XCoin.Primitives.Serialize

/-!
# The merkle root determines the transactions

A message for an inner node has 64 bytes, and the smallest transaction has 64 bytes too, so
transactions of that size have to be excluded.
-/

open ByteCodec MerkleCounter

namespace X2XCoin

/-! ## The counter of the source -/

namespace Merkle

variable {crypto : Crypto}

theorem push_eq (h : Uint256) (inner : List (Option Uint256)) :
    push crypto h inner = MerkleCounter.push (hashPair crypto) h inner := by
  induction inner generalizing h with
  | nil => rfl
  | cons o inner ih =>
    cases o with
    | none => rfl
    | some l => rw [push, MerkleCounter.push, ih]

theorem pushAll_eq (leaves : List Uint256) :
    pushAll crypto leaves = MerkleCounter.pushAll (hashPair crypto) leaves := by
  simp only [pushAll, MerkleCounter.pushAll, push_eq]

theorem sweep_eq (h : Uint256) (inner : List (Option Uint256)) :
    sweep crypto h inner = MerkleCounter.sweep (hashPair crypto) h inner := by
  induction inner generalizing h with
  | nil => rfl
  | cons o inner ih =>
    cases o with
    | none =>
      rw [sweep, MerkleCounter.sweep]
      split_ifs
      · rfl
      · exact ih _
    | some l => exact ih _

theorem root_eq (inner : List (Option Uint256)) :
    root crypto inner = (MerkleCounter.root (hashPair crypto) inner).getD 0 := by
  induction inner with
  | nil => rfl
  | cons o inner ih =>
    cases o with
    | none => exact ih
    | some h => exact sweep_eq h (none :: inner)

end Merkle

/-! ## Transactions -/

/-- The message that is hashed for an inner node. -/
def pairMessage (l r : Uint256) : Bytes := writeUint256 l ++ writeUint256 r

theorem pairMessage_inj {a b c d : Uint256} (h : pairMessage a b = pairMessage c d) :
    a = c ∧ b = d := by
  obtain ⟨h₁, h₂⟩ := List.append_inj h (by simp [writeUint256])
  have hinj : ∀ {x y : Uint256}, writeUint256 x = writeUint256 y → x = y := by
    intro x y hxy
    have hx := (reads_readUint256 x).run_eq
    rw [hxy, (reads_readUint256 y).run_eq] at hx
    exact (Prod.mk.inj (Option.some.inj hx)).1.symm
  exact ⟨hinj h₁, hinj h₂⟩

/-- The root of a tree of transactions. -/
def merkleHash (crypto : Crypto) (t : MerkleCounter.Tree CTransaction) : Uint256 :=
  t.eval crypto.hash256 CTransaction.serialize pairMessage

/-- The messages hashed for the root of a list of transactions. -/
def merkleMessages (crypto : Crypto) (vtx : List CTransaction) : Set Bytes :=
  { m | ∃ t, (treeOf vtx).1 = some t ∧ m ∈ t.messages crypto.hash256 CTransaction.serialize pairMessage }

theorem blockMerkleRoot_eq (crypto : Crypto) (block : CBlock) :
    (blockMerkleRoot crypto block).1 = ((treeOf block.vtx).1.map (merkleHash crypto)).getD 0 ∧
      ((blockMerkleRoot crypto block).2 = false → (treeOf block.vtx).2 = false) := by
  have hleaves : block.vtx.map (CTransaction.getHash crypto) =
      (block.vtx.map Tree.leaf).map (merkleHash crypto) := by
    rw [List.map_map]
    rfl
  have hnode : ∀ l r : MerkleCounter.Tree CTransaction, merkleHash crypto (.node l r) =
      hashPair crypto (merkleHash crypto l) (merkleHash crypto r) := fun _ _ => rfl
  obtain ⟨hpush, hflag⟩ := pushAll_map hnode (block.vtx.map Tree.leaf)
  simp only [blockMerkleRoot, computeMerkleRoot, Merkle.pushAll_eq, hleaves, Merkle.root_eq]
  rw [hpush, root_map hnode]
  exact ⟨rfl, hflag⟩

/-- No two of the messages have the same hash, and none has the hash zero. -/
structure CollisionFree (crypto : Crypto) (S : Set Bytes) : Prop where
  injOn : Set.InjOn crypto.hash256 S
  ne_zero : ∀ m ∈ S, crypto.hash256 m ≠ 0

variable {crypto : Crypto}

theorem merkleHash_ne_zero {S : Set Bytes} (hS : CollisionFree crypto S)
    {t : MerkleCounter.Tree CTransaction}
    (ht : t.messages crypto.hash256 CTransaction.serialize pairMessage ⊆ S) :
    merkleHash crypto t ≠ 0 := by
  cases t with
  | leaf tx => exact hS.ne_zero _ (ht rfl)
  | node l r => exact hS.ne_zero _ (ht (Set.mem_insert _ _))

theorem vtx_eq_of_merkleRoot {block block' : CBlock} (hne : block.vtx ≠ [])
    (hS : CollisionFree crypto (merkleMessages crypto block.vtx ∪ merkleMessages crypto block'.vtx))
    (hsize : ∀ tx ∈ block.vtx, tx.serialize.length ≤ MAX_SIZE)
    (h64 : ∀ tx ∈ block.vtx ++ block'.vtx, tx.serialize.length ≠ 64)
    (hroot : (blockMerkleRoot crypto block).1 = (blockMerkleRoot crypto block').1)
    (hflag : (blockMerkleRoot crypto block).2 = false)
    (hflag' : (blockMerkleRoot crypto block').2 = false) : block.vtx = block'.vtx := by
  obtain ⟨hr, hf⟩ := blockMerkleRoot_eq crypto block
  obtain ⟨hr', hf'⟩ := blockMerkleRoot_eq crypto block'
  obtain ⟨t, ht⟩ := exists_treeOf hne
  have hsub : t.messages crypto.hash256 CTransaction.serialize pairMessage ⊆
      merkleMessages crypto block.vtx ∪ merkleMessages crypto block'.vtx :=
    fun m hm => .inl ⟨t, ht, hm⟩
  rw [hr, hr', ht, Option.map_some, Option.getD_some] at hroot
  cases ht' : (treeOf block'.vtx).1 with
  | none =>
    rw [ht', Option.map_none, Option.getD_none] at hroot
    exact absurd hroot (merkleHash_ne_zero hS hsub)
  | some t' =>
    rw [ht', Option.map_some, Option.getD_some] at hroot
    have hpair : ∀ tx ∈ block.vtx ++ block'.vtx, ∀ a b : Uint256, tx.serialize ≠ pairMessage a b := by
      intro tx htx a b heq
      have := congrArg List.length heq
      rw [pairMessage, List.length_append, writeUint256, writeUint256, length_leBytes,
        length_leBytes] at this
      exact h64 tx htx this
    have heq : t = t' := by
      refine Tree.eval_inj hS.injOn pairMessage_inj (fun tx htx tx' => ?_) (fun tx htx => ?_)
        (fun tx htx => ?_) hsub (fun m hm => .inr ⟨t', ht', hm⟩) hroot
      · exact serialize_inj (hsize tx (mem_of_treeOf ht htx))
      · exact hpair tx (List.mem_append_left _ (mem_of_treeOf ht htx))
      · exact hpair tx (List.mem_append_right _ (mem_of_treeOf ht' htx))
    rw [← unpad_treeOf (Prod.ext ht (hf hflag)), heq, unpad_treeOf (Prod.ext ht' (hf' hflag'))]

/-- Two transactions: the three messages have to have different hashes. -/
theorem collisionFree_pair {a b : CTransaction}
    (h : (([pairMessage (a.getHash crypto) (b.getHash crypto), a.serialize, b.serialize].map
      crypto.hash256).Nodup ∧ ∀ m ∈ [pairMessage (a.getHash crypto) (b.getHash crypto), a.serialize,
        b.serialize], crypto.hash256 m ≠ 0)) :
    CollisionFree crypto (merkleMessages crypto [a, b]) := by
  have hmem : ∀ m ∈ merkleMessages crypto [a, b],
      m ∈ [pairMessage (a.getHash crypto) (b.getHash crypto), a.serialize, b.serialize] := by
    rintro m ⟨t, ht, hm⟩
    obtain rfl : MerkleCounter.Tree.node (.leaf a) (.leaf b) = t := Option.some.inj ht
    obtain rfl | rfl | rfl := hm
    · exact List.mem_cons_self
    · exact List.mem_cons_of_mem _ List.mem_cons_self
    · exact List.mem_cons_of_mem _ (List.mem_cons_of_mem _ List.mem_cons_self)
  exact ⟨fun x hx y hy => List.inj_on_of_nodup_map h.1 (hmem x hx) (hmem y hy),
    fun m hm => h.2 m (hmem m hm)⟩

end X2XCoin
