import X2XCoin.Primitives.Block

/-!
# The merkle root of a block

`MerkleComputation` of `consensus/merkle.cpp`, without the branch it can also compute.  `inner` is a
list over the levels with `none` where the bit of the counter is clear, so that the counter is
implicit.
-/

open ByteCodec

namespace X2XCoin

/-- The hash of two concatenated hashes. -/
def hashPair (crypto : Crypto) (l r : Uint256) : Uint256 :=
  crypto.hash256 (writeUint256 l ++ writeUint256 r)

namespace Merkle

variable (crypto : Crypto)

/-- Propagate a hash upwards through the levels already complete and store it at the first free
one; the flag says that two equal hashes were combined on the way. -/
def push : Uint256 → List (Option Uint256) → List (Option Uint256) × Bool
  | h, [] => ([some h], false)
  | h, none :: inner => (some h :: inner, false)
  | h, some l :: inner =>
    let (inner, mutated) := push (hashPair crypto l h) inner
    (none :: inner, l == h || mutated)

/-- The first loop: all leaves, from `inner` empty. -/
def pushAll (leaves : List Uint256) : List (Option Uint256) × Bool :=
  leaves.foldl
    (fun (inner, mutated) h =>
      let (inner, m) := push crypto h inner
      (inner, mutated || m))
    ([], false)

/-- The final loop, from a hash `h` just above the given levels: where a level has no entry, `h` is
combined with itself unless it is the top. -/
def sweep : Uint256 → List (Option Uint256) → Uint256
  | h, [] => h
  | h, some l :: inner => sweep (hashPair crypto l h) inner
  | h, none :: inner =>
    if inner.all Option.isNone then h else sweep (hashPair crypto h h) inner

/-- The root from the levels: start at the lowest entry. -/
def root : List (Option Uint256) → Uint256
  | [] => 0
  | none :: inner => root inner
  | some h :: inner => sweep crypto h (none :: inner)

end Merkle

/-- `ComputeMerkleRoot`: the root and the `mutated` flag. -/
def computeMerkleRoot (crypto : Crypto) (leaves : List Uint256) : Uint256 × Bool :=
  let (inner, mutated) := Merkle.pushAll crypto leaves
  (Merkle.root crypto inner, mutated)

def blockMerkleRoot (crypto : Crypto) (block : CBlock) : Uint256 × Bool :=
  computeMerkleRoot crypto (block.vtx.map (CTransaction.getHash crypto))

end X2XCoin
