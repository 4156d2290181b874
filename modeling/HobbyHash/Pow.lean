import HobbyHash.Chain

/-! # Proof-of-work requirements

`GetNextWorkRequired` and `PermittedDifficultyTransition` of `pow.cpp`, with the
retarget rule each height selects: the original one, the 100-block window, the
one-block window (V2) and the narrower step of V3. Divisions and products that
can be undefined for some parameters are checked, so both functions return a
`Fault` there instead of a number.
-/

namespace HobbyHash.Pow

open Machine Consensus ArithUint256

variable (params : Params)

def powTargetTimespanAtHeight (height : Int) : Int :=
  if params.nPowRetargetV2ActivationHeight > 0 ∧
      height ≥ params.nPowRetargetV2ActivationHeight ∧ params.nPowRetargetV2Timespan > 0 then
    params.nPowRetargetV2Timespan
  else if params.nPowRetargetActivationHeight > 0 ∧
      height ≥ params.nPowRetargetActivationHeight ∧ params.nPowRetargetTimespan > 0 then
    params.nPowRetargetTimespan
  else params.nPowTargetTimespan

def difficultyAdjustmentIntervalAtHeight (height : Int) : Except Fault Int :=
  divInt64 (powTargetTimespanAtHeight params height) params.nPowTargetSpacing

/-- `factor_num` and `factor_den` of `PowAdjustmentTimespanBounds`. -/
def powAdjustmentFactor (height nTargetTimespan : Int) : Int × Int :=
  if params.nPowRetargetV3ActivationHeight > 0 ∧
      height ≥ params.nPowRetargetV3ActivationHeight ∧
      params.nPowRetargetV2ActivationHeight > 0 ∧
      height ≥ params.nPowRetargetV2ActivationHeight ∧
      params.nPowRetargetV2Timespan > 0 ∧
      nTargetTimespan = params.nPowRetargetV2Timespan ∧
      params.nPowRetargetV3MaxFactorNum > 0 ∧
      params.nPowRetargetV3MaxFactorDen > 0 then
    (params.nPowRetargetV3MaxFactorNum, params.nPowRetargetV3MaxFactorDen)
  else (4, 1)

def powAdjustmentTimespanBounds (height nTargetTimespan : Int) :
    Except Fault (Int × Int) := do
  let factor := powAdjustmentFactor params height nTargetTimespan
  let smallest ← divInt64 (← int64 (nTargetTimespan * factor.2)) factor.1
  let largest ← divInt64 (← int64 (nTargetTimespan * factor.1)) factor.2
  return (smallest, largest)

/-- `operator/=` by a 64-bit count of seconds. -/
def divUint256 (a : Nat) (b : Int) : Except Fault Nat :=
  if (b % 2 ^ 64).toNat = 0 then .error .divisionByZero else .ok (a / (b % 2 ^ 64).toNat)

/-- The target of `nBits` times a timespan over the target timespan, capped at
    the limit. The source spells this out at each of its three uses. -/
def scaledTarget (nBits : UInt32) (timespan nTargetTimespan : Int) :
    Except Fault Nat := do
  let bnNew ← divUint256 (mulUInt32 (setCompact nBits) timespan) nTargetTimespan
  return if bnNew > params.powLimit.toNat then params.powLimit.toNat else bnNew

/-- The adjustment limit: elapsed time raised to the smallest timespan, then cut
    at the largest. -/
def limitTimespan (bounds : Int × Int) (elapsed : Int) : Int :=
  let raised := if elapsed < bounds.1 then bounds.1 else elapsed
  if raised > bounds.2 then bounds.2 else raised

def calculateNextWorkRequiredForTimespan (pindexLast : CBlockIndex) (nFirstBlockTime : Int)
    (params : Params) (nTargetTimespan height : Int) : Except Fault UInt32 :=
  if params.fPowNoRetargeting then .ok pindexLast.nBits
  else do
    let bounds ← powAdjustmentTimespanBounds params height nTargetTimespan
    let nActualTimespan ← int64 (pindexLast.getBlockTime - nFirstBlockTime)
    let bnNew ← scaledTarget params pindexLast.nBits (limitTimespan bounds nActualTimespan)
      nTargetTimespan
    return getCompact false bnNew

/-- The walk back over minimum-difficulty blocks, for networks that allow them. -/
def lastRegularBits (interval : Int) (nProofOfWorkLimit : UInt32) : CBlockIndex → UInt32
  | .genesis f => f.nBits
  | .child p f =>
    if (p.nHeight + 1 : Int).tmod interval ≠ 0 ∧ f.nBits = nProofOfWorkLimit then
      lastRegularBits interval nProofOfWorkLimit p
    else f.nBits

/-- `nHeightFirst`: a one-block interval is measured from the previous block. -/
def heightFirst (pindexLast : CBlockIndex) (interval : Int) : Int :=
  match pindexLast.pprev with
  | some pprev => if interval = 1 then pprev.nHeight else pindexLast.nHeight - (interval - 1)
  | none => pindexLast.nHeight - (interval - 1)

/-- `GetNextWorkRequired`. Of the new block only its time is read. -/
def getNextWorkRequired (pindexLast : CBlockIndex) (pblock : HeaderFields) (params : Params) :
    Except Fault UInt32 := do
  let nProofOfWorkLimit := getCompact false params.powLimit.toNat
  let nHeightNext : Int := pindexLast.nHeight + 1
  let nTargetTimespan := powTargetTimespanAtHeight params nHeightNext
  let interval ← difficultyAdjustmentIntervalAtHeight params nHeightNext
  let phase ← modInt64 nHeightNext interval
  if phase ≠ 0 then
    if params.fPowAllowMinDifficultyBlocks then
      let late ← int64 (pindexLast.getBlockTime + (← int64 (params.nPowTargetSpacing * 2)))
      if (pblock.nTime.toNat : Int) > late then return nProofOfWorkLimit
      else return lastRegularBits interval nProofOfWorkLimit pindexLast
    else return pindexLast.nBits
  else
    let nHeightFirst := heightFirst pindexLast interval
    assert (0 ≤ nHeightFirst) "nHeightFirst >= 0"
    match pindexLast.getAncestor nHeightFirst with
    | none => .error (.assertion "pindexFirst")
    | some pindexFirst =>
      calculateNextWorkRequiredForTimespan pindexLast pindexFirst.getBlockTime params
        nTargetTimespan nHeightNext

def permittedDifficultyTransition (height : Int) (oldNBits newNBits : UInt32) :
    Except Fault Bool :=
  if params.fPowAllowMinDifficultyBlocks then .ok true
  else do
    let nTargetTimespan := powTargetTimespanAtHeight params height
    let interval ← difficultyAdjustmentIntervalAtHeight params height
    let phase ← modInt64 height interval
    if phase = 0 then
      let bounds ← powAdjustmentTimespanBounds params height nTargetTimespan
      let observedNewTarget := setCompact newNBits
      let largestDifficultyTarget ← scaledTarget params oldNBits bounds.2 nTargetTimespan
      let maximumNewTarget := setCompact (getCompact false largestDifficultyTarget)
      if maximumNewTarget < observedNewTarget then return false
      else
        let smallestDifficultyTarget ← scaledTarget params oldNBits bounds.1 nTargetTimespan
        let minimumNewTarget := setCompact (getCompact false smallestDifficultyTarget)
        return !decide (minimumNewTarget > observedNewTarget)
    else return oldNBits = newNBits

def checkProofOfWork (hash : Uint256) (nBits : UInt32) (params : Params) : Bool :=
  let bnTarget := setCompact nBits
  if compactNegative nBits || bnTarget = 0 || compactOverflow nBits ||
      bnTarget > params.powLimit.toNat then false
  else !decide (hash.toNat > bnTarget)

end HobbyHash.Pow
