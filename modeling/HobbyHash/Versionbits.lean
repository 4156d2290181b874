import HobbyHash.Chain

/-! # Versionbits deployments

`AbstractThresholdConditionChecker` of `versionbits.cpp`. The state of a block is
asked for by its parent, null for the first block, and is computed once for each
period of blocks; the cache is filled backwards up to a parent whose state is
known and then forwards again. A pointer that the source follows without a check
is followed here only if it is not null.
-/

namespace HobbyHash

open Machine

inductive ThresholdState where
  | defined
  | started
  | lockedIn
  | active
  | failed
  deriving DecidableEq, Repr

namespace Versionbits

def alwaysActive : Int := -1

def neverActive : Int := -2

def versionbitsTopBits : UInt32 := 0x20000000

def versionbitsTopMask : UInt32 := 0xE0000000

/-- The cache gives the state of the blocks on top of a parent. -/
abbrev ThresholdConditionCache := Option CBlockIndex → Option ThresholdState

/-- What a subclass of `AbstractThresholdConditionChecker` defines. -/
structure ConditionChecker where
  condition : CBlockIndex → Bool
  beginTime : Int
  endTime : Int
  minActivationHeight : Int
  period : Nat
  threshold : Int
  period_pos : 0 < period

/-- `VersionBitsConditionChecker::Condition` for a deployment with the given bit. -/
def versionBitsCondition (bit : UInt32) (pindex : CBlockIndex) : Bool :=
  let nVersion := pindex.fields.nVersion.toUInt32
  decide (nVersion &&& versionbitsTopMask = versionbitsTopBits) &&
    decide (nVersion &&& (1 <<< bit) ≠ 0)

namespace ConditionChecker

variable (checker : ConditionChecker)

/-- The loop that counts the blocks of a period that meet the condition. -/
def countCondition : Nat → Option CBlockIndex → Except Fault Nat
  | 0, _ => .ok 0
  | _ + 1, none => .error (.exception "null pindexCount")
  | n + 1, some pindexCount => do
    let count ← countCondition n pindexCount.pprev
    return if checker.condition pindexCount then count + 1 else count

/-- The state of the blocks on top of `pindexPrev`, the last block of a period,
    from the state of its own period. -/
def stateNext (state : ThresholdState) (pindexPrev : CBlockIndex) : Except Fault ThresholdState :=
  match state with
  | .defined =>
    .ok (if pindexPrev.getMedianTimePast ≥ checker.beginTime then .started else .defined)
  | .started => do
    let count ← checker.countCondition checker.period (some pindexPrev)
    return if count ≥ checker.threshold then .lockedIn
      else if pindexPrev.getMedianTimePast ≥ checker.endTime then .failed
      else .started
  | .lockedIn =>
    .ok (if (pindexPrev.nHeight : Int) + 1 ≥ checker.minActivationHeight then .active else .lockedIn)
  | .failed => .ok .failed
  | .active => .ok .active

/-- The last block of the period before the one that a block on top of
    `pindexPrev` belongs to. -/
def periodParent (pindexPrev : CBlockIndex) : Option CBlockIndex :=
  pindexPrev.getAncestor
    ((pindexPrev.nHeight : Int) - (((pindexPrev.nHeight + 1) % checker.period : Nat) : Int))

/-- The loop that walks backwards to a parent whose state is known. -/
def walkBack (cache : ThresholdConditionCache) (pindexPrev : Option CBlockIndex)
    (vToCompute : List CBlockIndex) :
    ThresholdConditionCache × Option CBlockIndex × List CBlockIndex :=
  if (cache pindexPrev).isSome then (cache, pindexPrev, vToCompute)
  else
    match pindexPrev with
    | none => (Function.update cache none (some .defined), none, vToCompute)
    | some b =>
      if b.getMedianTimePast < checker.beginTime then
        (Function.update cache (some b) (some .defined), some b, vToCompute)
      else
        match _found : b.getAncestor ((b.nHeight : Int) - checker.period) with
        | none => walkBack cache none (b :: vToCompute)
        | some a => walkBack cache (some a) (b :: vToCompute)
termination_by pindexPrev.elim 0 fun b => b.nHeight + 1
decreasing_by
  · exact Nat.succ_pos _
  · have height := (CBlockIndex.getAncestor_eq_some.mp _found).2
    have positive := checker.period_pos
    simp only [Option.elim_some]
    omega

/-- The loop that walks forward over the parents whose state is not known. -/
def walkForward (state : ThresholdState) (cache : ThresholdConditionCache) :
    List CBlockIndex → Except Fault (ThresholdState × ThresholdConditionCache)
  | [] => .ok (state, cache)
  | pindexPrev :: vToCompute => do
    let next ← checker.stateNext state pindexPrev
    walkForward next (Function.update cache (some pindexPrev) (some next)) vToCompute

def getStateFor (pindexPrev : Option CBlockIndex) (cache : ThresholdConditionCache) :
    Except Fault (ThresholdState × ThresholdConditionCache) :=
  if checker.beginTime = alwaysActive then .ok (.active, cache)
  else if checker.beginTime = neverActive then .ok (.failed, cache)
  else
    let (cache, pindexPrev, vToCompute) :=
      checker.walkBack cache (pindexPrev.bind checker.periodParent) []
    match cache pindexPrev with
    | none => .error (.assertion "cache.count(pindexPrev)")
    | some state => checker.walkForward state cache vToCompute

/-- The loop of `GetStateSinceHeightFor` over the periods before `pindexPrev`. -/
def walkSince (initialState : ThresholdState) (pindexPrev : CBlockIndex)
    (cache : ThresholdConditionCache) : Except Fault (Int × ThresholdConditionCache) :=
  match found : pindexPrev.getAncestor ((pindexPrev.nHeight : Int) - checker.period) with
  | none => .ok (pindexPrev.nHeight + 1, cache)
  | some previousPeriodParent => do
    let (state, cache) ← checker.getStateFor (some previousPeriodParent) cache
    if state = initialState then walkSince initialState previousPeriodParent cache
    else return (pindexPrev.nHeight + 1, cache)
termination_by pindexPrev.nHeight
decreasing_by
  have height := (CBlockIndex.getAncestor_eq_some.mp found).2
  have positive := checker.period_pos
  omega

def getStateSinceHeightFor (pindexPrev : Option CBlockIndex) (cache : ThresholdConditionCache) :
    Except Fault (Int × ThresholdConditionCache) := do
  if checker.beginTime = alwaysActive ∨ checker.beginTime = neverActive then return (0, cache)
  let (initialState, cache) ← checker.getStateFor pindexPrev cache
  if initialState = .defined then return (0, cache)
  match pindexPrev with
  | none => throw (.exception "null pindexPrev")
  | some b =>
    match checker.periodParent b with
    | none => throw (.assertion "pindexPrev->GetAncestor")
    | some pindexPrev => checker.walkSince initialState pindexPrev cache

end ConditionChecker

end Versionbits

end HobbyHash
