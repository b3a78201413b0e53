import X2XCoin.Chain.Index

/-!
# Proof of work and retargeting

`pow.cpp`: the target the next block of either kind must have, and the test of a proof of work.
-/

namespace X2XCoin

def getTargetLimit (p : Params) (nTime : ℤ) (fProofOfStake : Bool) : Uint256 :=
  if fProofOfStake then
    if p.isProtocolV2 nTime then p.posLimitV2 else p.posLimit
  else p.powLimit

/-- The spacing between two blocks of one kind that retargeting works with. -/
def actualSpacing (p : Params) (nTargetSpacing lastTime nFirstBlockTime : ℤ) : ℤ :=
  let nActualSpacing := lastTime - nFirstBlockTime
  let nActualSpacing :=
    if p.isProtocolV1RetargetingFixed lastTime ∧ nActualSpacing < 0 then nTargetSpacing
    else nActualSpacing
  if p.isProtocolV3 lastTime ∧ nActualSpacing > nTargetSpacing * 10 then nTargetSpacing * 10
  else nActualSpacing

/-- `CalculateNextTargetRequired`.  The factor is an `int64_t` passed to the multiplication by a
`uint32_t`, hence reduced modulo `2 ^ 32`; the divisor is converted to 256 bits. -/
def calculateNextTargetRequired (p : Params) (last : CBlockIndex) (nFirstBlockTime : ℤ)
    (fProofOfStake : Bool) : UInt32 :=
  if (if fProofOfStake then p.fPoSNoRetargeting else p.fPowNoRetargeting) then last.nBits
  else
    let lastTime := last.getBlockTime
    let nTargetSpacing := if p.isProtocolV2 lastTime then p.nTargetSpacing else p.nTargetSpacingV1
    let nActualSpacing := actualSpacing p nTargetSpacing lastTime nFirstBlockTime
    let bnTargetLimit := getTargetLimit p lastTime fProofOfStake
    let nInterval := p.nTargetTimespan.tdiv nTargetSpacing
    let factor := (nInterval - 1) * nTargetSpacing + nActualSpacing + nActualSpacing
    let bnNew := (setCompact last.nBits).target * BitVec.ofInt 256 (factor % 2 ^ 32) /
      BitVec.ofInt 256 (((nInterval + 1) * nTargetSpacing) % 2 ^ 64)
    getCompact (if bnNew = 0 ∨ bnNew > bnTargetLimit then bnTargetLimit else bnNew)

/-- `GetNextTargetRequired` after the first entry of `path`, which is never empty. -/
def getNextTargetRequired (p : Params) (path : List CBlockIndex) (fProofOfStake : Bool) : UInt32 :=
  let lastTime := (path.head?.map CBlockIndex.getBlockTime).getD 0
  let nTargetLimit := getCompact (getTargetLimit p lastTime fProofOfStake)
  match getLastBlockIndex fProofOfStake path with
  | prev :: path'@(_ :: _) =>
    match getLastBlockIndex fProofOfStake path' with
    | prevPrev :: _ :: _ =>
      calculateNextTargetRequired p prev prevPrev.getBlockTime fProofOfStake
    -- second block
    | _ => nTargetLimit
  -- first block
  | _ => nTargetLimit

def checkProofOfWork (p : Params) (hash : Uint256) (nBits : UInt32) : Bool :=
  let c := setCompact nBits
  !(c.fNegative || c.target = 0 || c.fOverflow || c.target > p.powLimit) &&
    !decide (hash > c.target)

end X2XCoin
