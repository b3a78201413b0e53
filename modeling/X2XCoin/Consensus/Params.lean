import X2XCoin.Primitives.Block

/-!
# Consensus parameters

`Consensus::Params` of `consensus/params.h` with the values `chainparams.cpp` gives it for the three
networks.  Fields that no modelled function reads are left out.
-/

namespace X2XCoin

/-- Parameters that influence chain consensus. -/
structure Params where
  hashGenesisBlock : Uint256 := 0
  nMaxReorganizationDepth : ℤ := 0
  BIP34Height : ℤ := 0
  BIP34Hash : Uint256 := 0
  powLimit : Uint256 := 0
  posLimit : Uint256 := 0
  posLimitV2 : Uint256 := 0
  fPowAllowMinDifficultyBlocks : Bool := false
  nTargetSpacingV1 : ℤ := 0
  fPowNoRetargeting : Bool := false
  fPoSNoRetargeting : Bool := false
  nTargetSpacing : ℤ := 0
  nTargetTimespan : ℤ := 0
  nProtocolV1RetargetingFixedTime : ℤ := 0
  nProtocolV2Time : ℤ := 0
  nProtocolV3Time : ℤ := 0
  nLastPOWBlock : ℤ := 0
  nStakeTimestampMask : ℕ := 0
  nCoinbaseMaturity : ℤ := 0
  deriving DecidableEq, Repr

namespace Params

/-- A value-initialised `Params`. -/
def default : Params := {}

def isProtocolV1RetargetingFixed (p : Params) (nTime : ℤ) : Bool :=
  nTime > p.nProtocolV1RetargetingFixedTime && nTime ≠ 1769817600

def isProtocolV2 (p : Params) (nTime : ℤ) : Bool :=
  nTime > p.nProtocolV2Time && nTime ≠ 1769817601

def isProtocolV3 (p : Params) (nTime : ℤ) : Bool :=
  nTime > p.nProtocolV3Time && nTime ≠ 1769817602

end Params

/-- `CMainParams`. -/
def mainParams : Params where
  hashGenesisBlock := 0x00000eea834a06692bc4f56d6f0061631c72fd75431ce9e5d7f3b9d712dc3a9b
  nMaxReorganizationDepth := 500
  BIP34Height := -1
  powLimit := 0x00000fffffffffffffffffffffffffffffffffffffffffffffffffffffffffff
  posLimit := 0x00000fffffffffffffffffffffffffffffffffffffffffffffffffffffffffff
  posLimitV2 := 0x00000fffffffffffffffffffffffffffffffffffffffffffffffffffffffffff
  nTargetTimespan := 60 * 60
  nTargetSpacingV1 := 2 * 60
  nTargetSpacing := 2 * 60
  nProtocolV1RetargetingFixedTime := 1769817600
  nProtocolV2Time := 1769817601
  nProtocolV3Time := 1769817602
  nLastPOWBlock := 110000
  nStakeTimestampMask := 0xf
  nCoinbaseMaturity := 24

/-- The coinbase of the genesis block of the main net. -/
def mainGenesisCoinBase : CTransaction where
  nVersion := 1
  nTime := 1769817600
  vin := [
    { prevout := COutPoint.null
      scriptSig := [0, 1, 42, 57] ++
        "A New Beginning for a Lasting Project - Quimera Labs 2026".toUTF8.toList
      nSequence := 0xffffffff }]
  vout := [⟨0, []⟩]
  nLockTime := 0

/-- The genesis block of the main net. -/
def mainGenesis : CBlock where
  nVersion := 1
  hashPrevBlock := 0
  hashMerkleRoot := 0x8ec923e8d644631a549ddbd51cd350f597e29ca665979f01a501456bbc77f16b
  nTime := 1769817600
  nBits := 0x1e0fffff
  nNonce := 184621
  vtx := [mainGenesisCoinBase]
  vchBlockSig := []

/-- `CRegTestParams`. -/
def regTestParams : Params where
  hashGenesisBlock := 0xe15eaa8b7ca8ef11b60943e8dbaec0800a801d27af4529badac594a06d03662b
  nMaxReorganizationDepth := 50
  BIP34Height := -1
  powLimit := 0x0000ffffffffffffffffffffffffffffffffffffffffffffffffffffffffffff
  posLimit := 0x00000fffffffffffffffffffffffffffffffffffffffffffffffffffffffffff
  posLimitV2 := 0x00000fffffffffffffffffffffffffffffffffffffffffffffffffffffffffff
  nTargetTimespan := 6 * 60
  nTargetSpacingV1 := 64
  nTargetSpacing := 3 * 60
  fPowAllowMinDifficultyBlocks := true
  fPowNoRetargeting := true
  fPoSNoRetargeting := true
  nProtocolV1RetargetingFixedTime := 1769817600
  nProtocolV2Time := 1769817601
  nProtocolV3Time := 1769817602
  nLastPOWBlock := 1000
  nStakeTimestampMask := 0xf
  nCoinbaseMaturity := 10

/-- The genesis block of the regression test network, with the coinbase of the main net. -/
def regTestGenesis : CBlock :=
  { mainGenesis with nBits := 0x1f00ffff, nNonce := 92159 }

end X2XCoin
