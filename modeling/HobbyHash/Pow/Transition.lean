import HobbyHash.Pow

/-! # The pre-sync tolerance check accepts every validated chain

`GetNextWorkRequired` computes a target exactly and `PermittedDifficultyTransition`
bounds it. Both read the same rule off the height, and the compact rounding is
monotone, so a target that was scaled by a clamped timespan lies between the
targets scaled by the two bounds. The timespan reaches the 256-bit product as a
32-bit factor; parameters whose bounds do not fit there are excluded explicitly.
-/

namespace HobbyHash.Pow.Transition

open Machine Consensus ArithUint256 CBlockIndex Int

variable {parent bits nBits : UInt32} {nTargetTimespan interval : Int}

/-- The largest timespan the retarget rule of a height can return. -/
def largestTimespan (params : Params) (height : Int) : Int :=
  let nTargetTimespan := powTargetTimespanAtHeight params height
  let factor := powAdjustmentFactor params height nTargetTimespan
  nTargetTimespan * factor.1 / factor.2

def smallestTimespan (params : Params) (height : Int) : Int :=
  let nTargetTimespan := powTargetTimespanAtHeight params height
  let factor := powAdjustmentFactor params height nTargetTimespan
  nTargetTimespan * factor.2 / factor.1

/-- Parameters with a positive adjustment interval at every height, a step
    factor of at least one, and a limit that leaves room for the product. -/
structure Retargetable (params : Params) : Prop where
  noMinDifficulty : params.fPowAllowMinDifficultyBlocks = false
  spacing : 0 < params.nPowTargetSpacing
  timespan : ∀ height, params.nPowTargetSpacing ≤ powTargetTimespanAtHeight params height
  factor : 0 < params.nPowRetargetV3ActivationHeight →
    0 < params.nPowRetargetV3MaxFactorDen ∧
      params.nPowRetargetV3MaxFactorDen ≤ params.nPowRetargetV3MaxFactorNum
  product : ∀ height, (params.powLimit.toNat : Int) * largestTimespan params height < 2 ^ 256

/-- The timespan bounds are computed without overflow and survive the narrowing
    to the 32-bit factor of `operator*=`. -/
structure NarrowTimespans (params : Params) : Prop where
  int64 : ∀ height, powTargetTimespanAtHeight params height *
    (powAdjustmentFactor params height (powTargetTimespanAtHeight params height)).1 < 2 ^ 63
  uint32 : ∀ height, largestTimespan params height < 2 ^ 32

/-- A chain whose first target is usable and in which every other block carries
    the bits that its parent requires. -/
inductive RequiredChain (params : Params) : CBlockIndex → Prop where
  | genesis {f} (positive : 0 < setCompact f.nBits)
      (limited : setCompact f.nBits ≤ params.powLimit.toNat) : RequiredChain params (.genesis f)
  | child {p f} (below : RequiredChain params p)
      (required : getNextWorkRequired p f params = .ok f.nBits) : RequiredChain params (.child p f)

def exactTarget (params : Params) (nBits : UInt32) (timespan nTargetTimespan : Int) : Nat :=
  min (setCompact nBits * timespan.toNat / nTargetTimespan.toNat) params.powLimit.toNat

variable {params : Params}

theorem exactTarget_mono (le : s ≤ t) :
    exactTarget params nBits s nTargetTimespan ≤
      exactTarget params nBits t nTargetTimespan := by
  refine min_le_min_right _ (Nat.div_le_div_right (Nat.mul_le_mul_left _ ?_))
  omega

theorem exactTarget_lt (params : Params) (nBits : UInt32) (timespan nTargetTimespan : Int) :
    exactTarget params nBits timespan nTargetTimespan < modulus :=
  lt_of_le_of_lt (min_le_right _ _) params.powLimit.isLt

/-- The target as a later `SetCompact` reads it. -/
def roundedTarget (params : Params) (height : Int) (parent : UInt32) (timespan : Int) : Nat :=
  setCompact (getCompact false
    (exactTarget params parent timespan (powTargetTimespanAtHeight params height)))

theorem roundedTarget_mono (le : s ≤ t) :
    roundedTarget params height parent s ≤ roundedTarget params height parent t :=
  roundsDown.mono (exactTarget_lt _ _ _ _) (exactTarget_lt _ _ _ _) (exactTarget_mono le)

variable {height timespan : Int}

theorem exactTarget_self (pos : 0 < nTargetTimespan)
    (le : setCompact parent ≤ params.powLimit.toNat) :
    exactTarget params parent nTargetTimespan nTargetTimespan = setCompact parent := by
  rw [exactTarget, Nat.mul_div_cancel _ (by omega), Nat.min_eq_left le]

theorem scaledTarget_limited (h : scaledTarget params nBits timespan nTargetTimespan = .ok target) :
    target ≤ params.powLimit.toNat := by
  simp only [scaledTarget, bind, Except.bind, pure, Except.pure] at h
  split at h
  · cases h
  · obtain rfl := Except.ok.inj h
    split <;> omega

variable {p : CBlockIndex}

variable {f : HeaderFields}

theorem adjusted_limited (retargets : params.fPowNoRetargeting = false)
    (atInterval : difficultyAdjustmentIntervalAtHeight params (p.nHeight + 1) = .ok interval)
    (pos : 0 < interval) (phase : (p.nHeight + 1 : Int).tmod interval = 0)
    (required : getNextWorkRequired p f params = .ok bits) :
    setCompact bits ≤ params.powLimit.toNat := by
  simp only [getNextWorkRequired, atInterval, modInt64_ok pos.ne', phase, ne_eq,
    not_true_eq_false, if_false, assert, bind, Except.bind] at required
  split at required
  · cases required
  split at required
  · cases required
  simp only [calculateNextWorkRequiredForTimespan, retargets, Bool.false_eq_true, if_false,
    bind, Except.bind, pure, Except.pure] at required
  split at required
  · cases required
  split at required
  · cases required
  split at required
  · cases required
  · rename_i target scaled
    have capped := scaledTarget_limited scaled
    obtain rfl := Except.ok.inj required
    exact (roundsDown.le (lt_of_le_of_lt capped params.powLimit.isLt)).trans capped

/-- What a required target can be: the parent's, or on an adjustment height the
    parent's scaled by some timespan within the bounds. -/
inductive Requires (params : Params) (height : Int) (parent bits : UInt32) : Prop where
  | kept (phase : ∀ interval, difficultyAdjustmentIntervalAtHeight params height = .ok interval →
      height.tmod interval ≠ 0) (same : bits = parent)
  | noRetargeting (same : bits = parent)
  | scaled (timespan : Int)
      (phase : ∀ interval, difficultyAdjustmentIntervalAtHeight params height = .ok interval →
        height.tmod interval = 0)
      (lower : smallestTimespan params height ≤ timespan)
      (upper : timespan ≤ largestTimespan params height)
      (rounded : bits = getCompact false
        (exactTarget params parent timespan (powTargetTimespanAtHeight params height)))

theorem limitTimespan_inside {lo hi} (le : lo ≤ hi) (elapsed : Int) :
    lo ≤ limitTimespan (lo, hi) elapsed ∧ limitTimespan (lo, hi) elapsed ≤ hi := by
  simp only [limitTimespan]
  split <;> split <;> omega

section Rules

variable {params : Params} (wf : Retargetable params)

include wf

theorem timespan_pos (height : Int) : 0 < powTargetTimespanAtHeight params height :=
  lt_of_lt_of_le wf.spacing (wf.timespan height)

theorem rule_pos (height : Int) : 0 < powTargetTimespanAtHeight params height ∧
    0 < (powAdjustmentFactor params height (powTargetTimespanAtHeight params height)).2 ∧
    (powAdjustmentFactor params height (powTargetTimespanAtHeight params height)).2 ≤
      (powAdjustmentFactor params height (powTargetTimespanAtHeight params height)).1 := by
  refine ⟨timespan_pos wf height, ?_⟩
  simp only [powAdjustmentFactor]
  split
  · rename_i active
    exact wf.factor active.1
  · decide

theorem smallest_nonneg (height : Int) : 0 ≤ smallestTimespan params height := by
  obtain ⟨pos, den, le⟩ := rule_pos wf height
  exact ediv_nonneg (mul_nonneg pos.le den.le) (by omega)

theorem smallest_le (height : Int) :
    smallestTimespan params height ≤ powTargetTimespanAtHeight params height := by
  obtain ⟨pos, den, le⟩ := rule_pos wf height
  exact Int.ediv_le_of_le_mul (by omega) (Int.mul_le_mul_of_nonneg_left le pos.le)

theorem le_largest (height : Int) :
    powTargetTimespanAtHeight params height ≤ largestTimespan params height := by
  obtain ⟨pos, den, le⟩ := rule_pos wf height
  exact Int.le_ediv_of_mul_le den (Int.mul_le_mul_of_nonneg_left le pos.le)

theorem product_lt (limited : setCompact nBits ≤ params.powLimit.toNat) (nonneg : 0 ≤ timespan)
    (le : timespan ≤ largestTimespan params height) :
    setCompact nBits * timespan.toNat < modulus := by
  have scaled : ((setCompact nBits * timespan.toNat : Nat) : Int) ≤
      params.powLimit.toNat * largestTimespan params height := by
    rw [natCast_mul, toNat_of_nonneg nonneg]
    exact mul_le_mul (by exact_mod_cast limited) le nonneg (natCast_nonneg _)
  exact_mod_cast scaled.trans_lt (wf.product height)

theorem required_kept (f : HeaderFields)
    (atInterval : difficultyAdjustmentIntervalAtHeight params (p.nHeight + 1) = .ok interval)
    (pos : 0 < interval) (ne : (p.nHeight + 1 : Int).tmod interval ≠ 0) :
    getNextWorkRequired p f params = .ok p.nBits := by
  simp only [getNextWorkRequired, atInterval, modInt64_ok pos.ne', wf.noMinDifficulty,
    ok_bind, pure, Except.pure, Bool.false_eq_true, if_false, if_pos ne]

variable (narrow : NarrowTimespans params)

include narrow

theorem timespan_lt (height : Int) : powTargetTimespanAtHeight params height < 2 ^ 32 :=
  lt_of_le_of_lt (le_largest wf height) (narrow.uint32 height)

theorem interval_ok (height : Int) : ∃ interval, 0 < interval ∧
    difficultyAdjustmentIntervalAtHeight params height = .ok interval := by
  have pos := timespan_pos wf height
  have bound := timespan_lt wf narrow height
  refine ⟨_, ?_, divInt64_of_nonneg pos.le (by omega) wf.spacing⟩
  exact Int.le_ediv_of_mul_le wf.spacing (by simpa only [zero_add, one_mul] using wf.timespan height)

theorem bounds_ok (height : Int) :
    powAdjustmentTimespanBounds params height (powTargetTimespanAtHeight params height) =
      .ok (smallestTimespan params height, largestTimespan params height) := by
  obtain ⟨pos, den, le⟩ := rule_pos wf height
  have upper := narrow.int64 height
  have ordered := mul_le_mul_of_nonneg_left le pos.le
  have lower := mul_nonneg pos.le den.le
  simp only [powAdjustmentTimespanBounds, smallestTimespan, largestTimespan, bind, Except.bind,
    pure, Except.pure]
  rw [int64_ok ⟨by omega, by omega⟩]
  simp only []
  rw [divInt64_of_nonneg lower (by omega) (by omega), int64_ok ⟨by omega, by omega⟩]
  simp only []
  rw [divInt64_of_nonneg (by omega) (by omega) den]

theorem scaledTarget_ok (limited : setCompact nBits ≤ params.powLimit.toNat) (nonneg : 0 ≤ timespan)
    (le : timespan ≤ largestTimespan params height) :
    scaledTarget params nBits timespan (powTargetTimespanAtHeight params height) =
      .ok (exactTarget params nBits timespan (powTargetTimespanAtHeight params height)) := by
  have small := lt_of_le_of_lt le (narrow.uint32 height)
  have pos := timespan_pos wf height
  have bound := timespan_lt wf narrow height
  have factor : timespan % 2 ^ 32 = timespan := emod_eq_of_lt nonneg small
  have divisor : powTargetTimespanAtHeight params height % 2 ^ 64 =
      powTargetTimespanAtHeight params height := emod_eq_of_lt pos.le (by omega)
  have product := product_lt wf limited nonneg le
  simp only [scaledTarget, mulUInt32, divUint256, factor, divisor, ok_bind, pure,
    Except.pure, Nat.mod_eq_of_lt product,
    if_neg (show ¬ (powTargetTimespanAtHeight params height).toNat = 0 by omega)]
  simp only [exactTarget]
  split
  · rw [Nat.min_eq_right (by omega)]
  · rw [Nat.min_eq_left (by omega)]

theorem required_adjusted (f : HeaderFields) (le : setCompact p.nBits ≤ params.powLimit.toNat)
    (retargets : params.fPowNoRetargeting = false)
    (atInterval : difficultyAdjustmentIntervalAtHeight params (p.nHeight + 1) = .ok interval)
    (pos : 0 < interval) (phase : (p.nHeight + 1 : Int).tmod interval = 0)
    (nonneg : 0 ≤ heightFirst p interval)
    (anchor : p.getAncestor (heightFirst p interval) = some first) :
    getNextWorkRequired p f params = .ok (getCompact false (exactTarget params p.nBits
      (limitTimespan (smallestTimespan params (p.nHeight + 1), largestTimespan params (p.nHeight + 1))
        (p.getBlockTime - first.getBlockTime))
        (powTargetTimespanAtHeight params (p.nHeight + 1)))) := by
  have elapsed : IsInt64 (p.getBlockTime - first.getBlockTime) := by
    have := getBlockTime_nonneg p
    have := getBlockTime_lt p
    have := getBlockTime_nonneg first
    have := getBlockTime_lt first
    exact ⟨by omega, by omega⟩
  have ordered := (smallest_le wf (p.nHeight + 1)).trans (le_largest wf (p.nHeight + 1))
  obtain ⟨above, lt⟩ := limitTimespan_inside ordered (p.getBlockTime - first.getBlockTime)
  have scaled := scaledTarget_ok wf narrow le ((smallest_nonneg wf _).trans above) lt
  simp only [getNextWorkRequired, atInterval, modInt64_ok pos.ne', phase, ok_bind,
    pure, Except.pure, ne_eq, not_true_eq_false, if_false, assert, nonneg, decide_true, if_true,
    anchor, calculateNextWorkRequiredForTimespan, retargets, Bool.false_eq_true,
    bounds_ok wf narrow, int64_ok elapsed, scaled]

theorem requires_of_required (le : setCompact p.nBits ≤ params.powLimit.toNat)
    (required : getNextWorkRequired p f params = .ok bits) :
    Requires params (p.nHeight + 1) p.nBits bits := by
  obtain ⟨interval, pos, atInterval⟩ := interval_ok wf narrow (p.nHeight + 1)
  have ordered := (smallest_le wf (p.nHeight + 1)).trans (le_largest wf (p.nHeight + 1))
  simp only [getNextWorkRequired, atInterval, modInt64_ok pos.ne', wf.noMinDifficulty,
    bind, Except.bind, pure, Except.pure, Bool.false_eq_true, if_false] at required
  split at required
  · rename_i phase
    refine .kept (fun other atOther => ?_) (Except.ok.inj required).symm
    rw [atInterval] at atOther
    exact Except.ok.inj atOther ▸ phase
  rename_i phase
  split at required
  · cases required
  split at required
  · cases required
  simp only [calculateNextWorkRequiredForTimespan, bounds_ok wf narrow, bind, Except.bind,
    pure, Except.pure] at required
  split at required
  · exact .noRetargeting (Except.ok.inj required).symm
  split at required
  · cases required
  rename_i elapsed atElapsed
  have lower := smallest_nonneg wf (p.nHeight + 1)
  obtain ⟨above, lt⟩ := limitTimespan_inside ordered elapsed
  rw [scaledTarget_ok wf narrow le (lower.trans above) lt] at required
  refine .scaled _ (fun other atOther => ?_) above lt (Except.ok.inj required).symm
  rw [atInterval] at atOther
  exact Except.ok.inj atOther ▸ not_not.mp phase

theorem permitted_of_between (le : setCompact parent ≤ params.powLimit.toNat)
    (above : roundedTarget params height parent (smallestTimespan params height) ≤ setCompact bits)
    (lt : setCompact bits ≤ roundedTarget params height parent (largestTimespan params height))
    (kept : ∀ interval, difficultyAdjustmentIntervalAtHeight params height = .ok interval →
      height.tmod interval ≠ 0 → parent = bits) :
    permittedDifficultyTransition params height parent bits = .ok true := by
  simp only [roundedTarget] at above lt
  obtain ⟨interval, pos, atInterval⟩ := interval_ok wf narrow height
  have nonneg := smallest_nonneg wf height
  have ordered := (smallest_le wf height).trans (le_largest wf height)
  have scaledLargest := scaledTarget_ok wf narrow le (nonneg.trans ordered) le_rfl
  have scaledSmallest := scaledTarget_ok wf narrow le nonneg ordered
  simp only [permittedDifficultyTransition, wf.noMinDifficulty, atInterval,
    modInt64_ok pos.ne', bounds_ok wf narrow, scaledLargest, scaledSmallest, bind,
    Except.bind, pure, Except.pure, Bool.false_eq_true, if_false]
  split
  · rw [if_neg (Nat.not_lt.mpr lt)]
    exact congrArg (fun b => Except.ok (!b)) (decide_eq_false (Nat.not_lt.mpr above))
  · rename_i phase
    simp only [kept interval atInterval phase, decide_true]

/-- A target that the parent requires passes the tolerance check and stays
    within the limit. -/
theorem permitted_of_requires (le : setCompact parent ≤ params.powLimit.toNat)
    (h : Requires params height parent bits) :
    permittedDifficultyTransition params height parent bits = .ok true ∧
      setCompact bits ≤ params.powLimit.toNat := by
  have pos := timespan_pos wf height
  have lower := smallest_le wf height
  have upper := le_largest wf height
  have self := exactTarget_self pos le
  have parentAbove := (roundsDown.le (exactTarget_lt _ _ _ _)).trans
    ((exactTarget_mono lower).trans_eq self)
  have parentBelow := roundsDown.le_round (exactTarget_lt _ _ _ _) (setCompact_representable parent)
    (self.symm.trans_le (exactTarget_mono upper))
  cases h with
  | kept _ same | noRetargeting same =>
    subst same
    exact ⟨permitted_of_between wf narrow le parentAbove parentBelow (fun _ _ _ => rfl), le⟩
  | scaled timespan phase above lt rounded =>
    have target : setCompact bits = roundedTarget params height parent timespan := by
      rw [rounded]
      rfl
    refine ⟨permitted_of_between wf narrow le ?_ ?_ ?_, ?_⟩
    · exact target ▸ roundedTarget_mono above
    · exact target ▸ roundedTarget_mono lt
    · intro interval atInterval off
      exact absurd (phase interval atInterval) off
    · exact target ▸ (roundsDown.le (exactTarget_lt _ _ _ _)).trans (min_le_right _ _)

theorem permitted_of_required (le : setCompact p.nBits ≤ params.powLimit.toNat)
    (required : getNextWorkRequired p f params = .ok f.nBits) :
    permittedDifficultyTransition params (p.nHeight + 1) p.nBits f.nBits = .ok true ∧
      setCompact f.nBits ≤ params.powLimit.toNat :=
  permitted_of_requires wf narrow le (requires_of_required wf narrow le required)

theorem RequiredChain.limited {b} (chain : RequiredChain params b) :
    setCompact b.nBits ≤ params.powLimit.toNat := by
  induction chain with
  | genesis _ limited => exact limited
  | child _ required ih => exact (permitted_of_required wf narrow ih required).2

end Rules

/-- Pre-sync accepts, block by block, every chain that carries the required
    bits, whatever its length and timestamps. -/
theorem presync_accepts_required {params : Params} (wf : Retargetable params)
    (narrow : NarrowTimespans params) {b : CBlockIndex} (chain : RequiredChain params b)
    {p : CBlockIndex} {f : HeaderFields} (onChain : Ancestor (.child p f) b) :
    permittedDifficultyTransition params (p.nHeight + 1) p.nBits f.nBits = .ok true := by
  induction chain with
  | genesis _ _ => cases onChain
  | child below required ih =>
    cases onChain with
    | refl => exact (permitted_of_required wf narrow (below.limited wf narrow) required).1
    | step deeper => exact ih deeper

theorem main_timespan_eq (height : Int) : powTargetTimespanAtHeight mainParams height =
    if 800 ≤ height then 150 else if 300 ≤ height then 15000 else 1209600 := by
  have oneBlock : (mainParams.nPowRetargetV2ActivationHeight > 0 ∧
      height ≥ mainParams.nPowRetargetV2ActivationHeight ∧ mainParams.nPowRetargetV2Timespan > 0) ↔
      800 ≤ height := ⟨fun h => h.2.1, fun h => ⟨by decide, h, by decide⟩⟩
  have window : (mainParams.nPowRetargetActivationHeight > 0 ∧
      height ≥ mainParams.nPowRetargetActivationHeight ∧ mainParams.nPowRetargetTimespan > 0) ↔
      300 ≤ height := ⟨fun h => h.2.1, fun h => ⟨by decide, h, by decide⟩⟩
  exact if_congr oneBlock rfl (if_congr window rfl rfl)

theorem main_timespan (height : Int) :
    powTargetTimespanAtHeight mainParams height ∈ [150, 15000, 1209600] := by
  rw [main_timespan_eq]
  split
  · decide
  · split <;> decide

/-- What holds of each timespan and step of the main network holds at every height. -/
theorem main_rule {P : Int → Int × Int → Prop}
    (each : ∀ t ∈ [150, 15000, 1209600], P t (5, 4) ∧ P t (4, 1)) (height : Int) :
    P (powTargetTimespanAtHeight mainParams height)
      (powAdjustmentFactor mainParams height (powTargetTimespanAtHeight mainParams height)) := by
  have rule := each _ (main_timespan height)
  simp only [powAdjustmentFactor]
  split
  · exact rule.1
  · exact rule.2

theorem main_largest (height : Int) : largestTimespan mainParams height ≤ 4838400 :=
  main_rule (P := fun t f => t * f.1 / f.2 ≤ 4838400) (by decide) height

theorem main_retargetable : Retargetable mainParams where
  noMinDifficulty := rfl
  spacing := by decide
  timespan := main_rule (P := fun t _ => 150 ≤ t) (by decide)
  factor := by decide
  product := by
    intro height
    have largest := main_largest height
    have limit : (mainParams.powLimit.toNat : Int) = 2 ^ 224 - 1 := by decide
    rw [limit]
    omega

theorem main_narrow : NarrowTimespans mainParams where
  int64 := main_rule (P := fun t f => t * f.1 < 2 ^ 63) (by decide)
  uint32 height := lt_of_le_of_lt (main_largest height) (by decide)

def mainGenesis : HeaderFields where
  nVersion := 1
  hashMerkleRoot := 0xbe535086a84506c2fb39f8e77a3065d5005d3a9b2ebcc9c1e3aa3162103b3f12
  nTime := 1780208106
  nBits := 0x1d00ffff
  nNonce := 3854237270

/-- A successor of the genesis block that arrives after ten seconds. -/
def secondBlock : HeaderFields where
  nVersion := 4
  hashMerkleRoot := 1
  nTime := 1780208116
  nBits := 0x1d00ffff
  nNonce := 0

/-- A network that adjusts after every block and expects one every `2 ^ 30`
    seconds: four times that is zero in 32 bits. -/
def wideParams : Params :=
  { mainParams with
    nPowTargetSpacing := 2 ^ 30
    nPowTargetTimespan := 2 ^ 30
    nPowRetargetActivationHeight := 0
    nPowRetargetV2ActivationHeight := 0
    nPowRetargetV3ActivationHeight := 0 }

/-- The block that full validation requires after ten seconds, at four times the
    difficulty. -/
def wideBlock : HeaderFields :=
  { secondBlock with nBits := 0x1c3fffc0 }

theorem wide_timespan (height : Int) : powTargetTimespanAtHeight wideParams height = 2 ^ 30 := by
  simp [powTargetTimespanAtHeight, wideParams]

theorem wide_factor (height nTargetTimespan : Int) :
    powAdjustmentFactor wideParams height nTargetTimespan = (4, 1) := by
  simp [powAdjustmentFactor, wideParams]

theorem presync_rejects_wide :
    Retargetable wideParams ∧
      RequiredChain wideParams (.child (.genesis mainGenesis) wideBlock) ∧
        permittedDifficultyTransition wideParams 1 mainGenesis.nBits wideBlock.nBits
        = .ok false := by
  refine ⟨⟨rfl, by decide, ?_, by decide, ?_⟩, .child (.genesis (by decide) (by decide)) ?_,
    by decide⟩
  · intro height
    rw [wide_timespan]
    decide
  · intro height
    simp only [largestTimespan, wide_timespan, wide_factor]
    decide
  · decide +kernel

end HobbyHash.Pow.Transition
