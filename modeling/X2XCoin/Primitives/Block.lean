import X2XCoin.Primitives.Transaction

/-!
# Blocks

Headers and blocks of `primitives/block.{h,cpp}`.
-/

open ByteCodec

namespace X2XCoin

/-- A block header. -/
structure CBlockHeader where
  nVersion : Int32
  hashPrevBlock : Uint256
  hashMerkleRoot : Uint256
  nTime : UInt32
  nBits : UInt32
  nNonce : UInt32
  deriving DecidableEq, Repr

namespace CBlockHeader

/-- The 80 bytes of the header. -/
def serialize (b : CBlockHeader) : Bytes :=
  leBytes 4 b.nVersion.toUInt32.toNat ++ writeUint256 b.hashPrevBlock ++
    writeUint256 b.hashMerkleRoot ++ leBytes 4 b.nTime.toNat ++ leBytes 4 b.nBits.toNat ++
    leBytes 4 b.nNonce.toNat

def getPoWHash (crypto : Crypto) (b : CBlockHeader) : Uint256 := crypto.scrypt b.serialize

def getHash (crypto : Crypto) (b : CBlockHeader) : Uint256 :=
  if b.nVersion > 6 then crypto.hash256 b.serialize else b.getPoWHash crypto

def getBlockTime (b : CBlockHeader) : ℤ := b.nTime.toNat

end CBlockHeader

/-- A block: a header, the transactions and the detached signature of the staker. -/
structure CBlock extends CBlockHeader where
  vtx : List CTransaction
  vchBlockSig : Bytes
  deriving DecidableEq, Repr

namespace CBlock

/-- The second transaction is a coinstake. -/
def isProofOfStake (b : CBlock) : Bool :=
  match b.vtx with
  | _ :: tx :: _ => tx.isCoinStake
  | _ => false

def isProofOfWork (b : CBlock) : Bool := !b.isProofOfStake

theorem exists_of_isProofOfStake {b : CBlock} (h : b.isProofOfStake = true) :
    ∃ cb cs rest, b.vtx = cb :: cs :: rest ∧ cs.isCoinStake = true := by
  unfold isProofOfStake at h
  split at h
  · next cb cs rest hvtx => exact ⟨cb, cs, rest, hvtx, h⟩
  · exact absurd h (by simp)

/-- The coinstake of a proof-of-stake block and the outpoint of its first input, the kernel. -/
def stakeKernel (b : CBlock) : Option (CTransaction × COutPoint) :=
  match b.vtx with
  | _ :: tx :: _ => if tx.isCoinStake then tx.vin.head?.map fun i => (tx, i.prevout) else none
  | _ => none

def serialize (b : CBlock) : Bytes :=
  b.toCBlockHeader.serialize ++ writeVector CTransaction.serialize b.vtx ++
    writeBytes b.vchBlockSig

end CBlock

end X2XCoin
