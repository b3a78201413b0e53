import X2XCoin.Consensus.Params

/-!
# Targets and block index entries

The compact form of targets (`arith_uint256.cpp`) and the block index entries of `chain.{h,cpp}`.  A
function of the source that follows `pprev` pointers takes the list of an entry and its ancestors, the
entry first.
-/

namespace X2XCoin

/-! ## Compact targets -/

/-- The target, the sign bit and the overflow flag that `SetCompact` computes. -/
structure Compact where
  target : Uint256
  fNegative : Bool
  fOverflow : Bool
  deriving DecidableEq, Repr

def setCompact (nCompact : UInt32) : Compact :=
  let nSize := nCompact.toNat / 2 ^ 24
  let nWord := nCompact.toNat % 2 ^ 23
  let fNegativeBit := nCompact.toNat / 2 ^ 23 % 2 = 1
  if nSize ≤ 3 then
    let nWord := nWord / 2 ^ (8 * (3 - nSize))
    { target := BitVec.ofNat 256 nWord
      fNegative := nWord ≠ 0 ∧ fNegativeBit
      fOverflow := false }
  else
    { target := BitVec.ofNat 256 nWord <<< (8 * (nSize - 3))
      fNegative := nWord ≠ 0 ∧ fNegativeBit
      fOverflow := nWord ≠ 0 ∧
        (nSize > 34 ∨ (nWord > 0xff ∧ nSize > 33) ∨ (nWord > 0xffff ∧ nSize > 32)) }

/-- `bits`: the position of the highest bit set plus one. -/
def bits (x : Uint256) : ℕ := if x = 0 then 0 else x.toNat.log2 + 1

def getCompact (x : Uint256) : UInt32 :=
  let nSize := (bits x + 7) / 8
  let nCompact :=
    if nSize ≤ 3 then x.toNat % 2 ^ 64 * 2 ^ (8 * (3 - nSize)) % 2 ^ 32
    else x.toNat / 2 ^ (8 * (nSize - 3)) % 2 ^ 32
  -- the sign bit of the mantissa must stay clear
  let (nCompact, nSize) :=
    if nCompact / 2 ^ 23 % 2 = 1 then (nCompact / 2 ^ 8, nSize + 1) else (nCompact, nSize)
  UInt32.ofNat (nCompact + nSize * 2 ^ 24)

/-! ## Index entries -/

/-- `BlockStatus`: the validity level reached and the flags. -/
structure BlockStatus where
  /-- `BLOCK_VALID_MASK`: 0 unknown, 1 header, 2 tree, 3 transactions, 4 chain, 5 scripts. -/
  validity : ℕ := 0
  haveData : Bool := false
  haveUndo : Bool := false
  failedValid : Bool := false
  failedChild : Bool := false
  proofOfStake : Bool := false
  deriving DecidableEq, Repr

namespace BlockStatus

/-- `BLOCK_VALID_SCRIPTS`. -/
def validScripts : ℕ := 5

/-- `nStatus & BLOCK_FAILED_MASK`. -/
def failed (s : BlockStatus) : Bool := s.failedValid || s.failedChild

def isValid (s : BlockStatus) (nUpTo : ℕ) : Bool := !s.failed && decide (nUpTo ≤ s.validity)

def raiseValidity (s : BlockStatus) (nUpTo : ℕ) : BlockStatus :=
  if !s.failed ∧ s.validity < nUpTo then { s with validity := nUpTo } else s

end BlockStatus

/-- A block index entry.  `hash` is what `phashBlock` points to. -/
structure CBlockIndex where
  hash : Uint256
  nHeight : ℕ := 0
  nChainWork : Uint256 := 0
  nTx : ℕ := 0
  nChainTx : ℕ := 0
  nStatus : BlockStatus := {}
  nStakeModifier : Uint256 := 0
  nVersion : Int32
  hashMerkleRoot : Uint256
  nTime : UInt32
  nBits : UInt32
  nNonce : UInt32
  nSequenceId : ℕ := 0
  deriving DecidableEq, Repr

namespace CBlockIndex

/-- The entry constructed from a header, before it is linked into the index. -/
def ofHeader (hash : Uint256) (block : CBlockHeader) : CBlockIndex where
  hash := hash
  nVersion := block.nVersion
  hashMerkleRoot := block.hashMerkleRoot
  nTime := block.nTime
  nBits := block.nBits
  nNonce := block.nNonce

def getBlockTime (i : CBlockIndex) : ℤ := i.nTime.toNat

def isProofOfStake (i : CBlockIndex) : Bool := i.nStatus.proofOfStake

end CBlockIndex

def nMedianTimeSpan : ℕ := 11

/-- `GetMedianTimePast` of the first entry. -/
def getMedianTimePast (path : List CBlockIndex) : ℤ :=
  let times := ((path.take nMedianTimeSpan).map CBlockIndex.getBlockTime).mergeSort
  times.getD (times.length / 2) 0

/-- `GetPastTimeLimit` of the first entry. -/
def getPastTimeLimit (p : Params) (path : List CBlockIndex) : ℤ :=
  match path with
  | [] => 0
  | i :: _ => if p.isProtocolV2 i.getBlockTime then i.getBlockTime else getMedianTimePast path

/-- `GetLastBlockIndex`: walk back to the first entry of the wanted kind, or to the genesis block. -/
def getLastBlockIndex (fProofOfStake : Bool) : List CBlockIndex → List CBlockIndex
  | i :: j :: path =>
    if i.isProofOfStake ≠ fProofOfStake then getLastBlockIndex fProofOfStake (j :: path)
    else i :: j :: path
  | path => path

/-- `GetAncestor(height)` of the first entry: the entry at that height on its path. -/
def getAncestor (path : List CBlockIndex) (height : ℤ) : Option CBlockIndex :=
  path.find? fun i => i.nHeight = height

/-- `GetBlockProof`: the expected number of hashes for a block with these bits. -/
def getBlockProof (nBits : UInt32) : Uint256 :=
  let c := setCompact nBits
  if c.fNegative ∨ c.fOverflow ∨ c.target = 0 then 0
  else ~~~c.target / (c.target + 1) + 1

/-- The entry of the genesis block of the main net, its data received. -/
def mainGenesisIndex : CBlockIndex :=
  { CBlockIndex.ofHeader mainParams.hashGenesisBlock mainGenesis.toCBlockHeader with
    nChainWork := getBlockProof mainGenesis.nBits
    nTx := 1
    nChainTx := 1
    nStatus := { validity := 3, haveData := true } }

end X2XCoin
