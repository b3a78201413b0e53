import X2XCoin.Chain.Index
import X2XCoin.Coins.Coins
import X2XCoin.Consensus.Validation

/-!
# Proof of stake

`ComputeStakeModifier` and `CheckStakeKernelHash` of `pos.cpp`.
-/

open ByteCodec

namespace X2XCoin

/-- `ComputeStakeModifier`, from the modifier of the previous block if there is one. -/
def computeStakeModifier (crypto : Crypto) (pindexPrev : Option CBlockIndex) (kernel : Uint256) :
    Uint256 :=
  match pindexPrev with
  | none => 0
  | some prev => crypto.hash256 (writeUint256 kernel ++ writeUint256 prev.nStakeModifier)

/-- The weighted target: the base target times the value, modulo `2 ^ 256`. -/
def weightedTarget (nBits : UInt32) (nValueIn : CAmount) : Uint256 :=
  (setCompact nBits).target * BitVec.ofNat 256 nValueIn.toUInt64.toNat

/-- The hash a kernel has to show. -/
def kernelHash (crypto : Crypto) (nStakeModifier : Uint256) (nTimePrev : UInt32)
    (prevout : COutPoint) (nTimeTx : UInt32) : Uint256 :=
  crypto.hash256 (writeUint256 nStakeModifier ++ leBytes 4 nTimePrev.toNat ++
    writeUint256 prevout.hash ++ leBytes 4 prevout.n.toNat ++ leBytes 4 nTimeTx.toNat)

def checkStakeKernelHash (crypto : Crypto) (pindexPrev : CBlockIndex) (nBits : UInt32)
    (txPrev : CCoins) (prevout : COutPoint) (nTimeTx : UInt32) : Check Bool := do
  if nTimeTx < txPrev.nTime then pure false
  else
    let out ← orFail .outOfBounds txPrev.vout[prevout.n.toNat]?
    if out.nValue = 0 then pure false
    else
      pure !decide (kernelHash crypto pindexPrev.nStakeModifier txPrev.nTime prevout nTimeTx >
        weightedTarget nBits out.nValue)

end X2XCoin
