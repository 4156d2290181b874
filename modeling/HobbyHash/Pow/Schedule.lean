import HobbyHash.Library.Mean
import HobbyHash.Pow.Transition

/-! # Elapsed time and the target after a run of blocks

From the V3 height on, the main network scales the target after every block by
the time that block took, limited to between 120 and 187 seconds, over 150. What
bounds the target over a run is therefore the sum of the limited times. The plain
difference of the first and last timestamp does not: a block that took no time is
still counted as 120 seconds, and two blocks of 187 seconds outweigh it.
-/

namespace HobbyHash.Pow.Schedule

open Consensus ArithUint256 CBlockIndex Transition Library List Nat

variable {g : HeaderFields} {height : Int} {n : Nat}

/-- The blocks of a run on top of `b`, oldest first. -/
def extend (b : CBlockIndex) : List HeaderFields → CBlockIndex
  | [] => b
  | f :: rest => extend (.child b f) rest

/-- Every block of the run carries the bits its parent requires. -/
def RequiredRun (params : Params) : CBlockIndex → List HeaderFields → Prop
  | _, [] => True
  | b, f :: rest => getNextWorkRequired b f params = .ok f.nBits ∧
    RequiredRun params (.child b f) rest

/-- Every block is later than the median time of its parent, as
    `ContextualCheckBlockHeader` demands. -/
def AfterMedian : CBlockIndex → Prop
  | .genesis _ => True
  | .child p f => AfterMedian p ∧ p.getMedianTimePast < f.nTime.toNat

/-- Seconds from each block of the run back to its parent. -/
def elapsedTimes : CBlockIndex → List HeaderFields → List Int
  | _, [] => []
  | b, f :: rest => (f.nTime.toNat - b.getBlockTime) :: elapsedTimes (.child b f) rest

/-- Elapsed seconds as the V3 rule counts them. -/
def countedTime (elapsed : Int) : Int :=
  limitTimespan (120, 187) elapsed

theorem length_elapsedTimes (b : CBlockIndex) (run : List HeaderFields) :
    (elapsedTimes b run).length = run.length := by
  induction run generalizing b with
  | nil => rfl
  | cons f rest ih => simp only [elapsedTimes, length_cons, ih]

theorem countedTime_inside (elapsed : Int) :
    120 ≤ countedTime elapsed ∧ countedTime elapsed ≤ 187 :=
  limitTimespan_inside (by decide) elapsed

theorem v3_timespan (le : 1900 ≤ height) :
    powTargetTimespanAtHeight mainParams height = 150 := by
  rw [main_timespan_eq, if_pos (by omega)]

theorem v3_factor (le : 1900 ≤ height) :
    powAdjustmentFactor mainParams height 150 = (5, 4) := by
  exact if_pos ⟨by decide, le, by decide, le_trans (by decide) le, by decide, rfl,
    by decide, by decide⟩

theorem v3_bounds (le : 1900 ≤ height) :
    smallestTimespan mainParams height = 120 ∧ largestTimespan mainParams height = 187 := by
  simp only [smallestTimespan, largestTimespan, v3_timespan le, v3_factor le]
  decide

theorem v3_required {q} (le : 1900 ≤ (q.nHeight : Int) + 2)
    (limited : setCompact g.nBits ≤ mainParams.powLimit.toNat) (f : HeaderFields) :
    getNextWorkRequired (.child q g) f mainParams = .ok (getCompact false
      (exactTarget mainParams g.nBits (countedTime (g.nTime.toNat - q.getBlockTime)) 150)) := by
  have height : ((child q g).nHeight : Int) + 1 = q.nHeight + 2 := by
    simp only [nHeight_child]
    omega
  have interval :
      difficultyAdjustmentIntervalAtHeight mainParams ((child q g).nHeight + 1) = .ok 1 := by
    rw [difficultyAdjustmentIntervalAtHeight, height, v3_timespan le]
    rfl
  have first : heightFirst (.child q g) 1 = q.nHeight := by simp [heightFirst, pprev]
  have anchor : (child q g).getAncestor (heightFirst (.child q g) 1) = some q := by
    exact getAncestor_of_ancestor (.step .refl)
  have required := required_adjusted (p := .child q g) main_retargetable main_narrow f limited rfl
    interval one_pos
    (Int.tmod_one _) (by rw [first]; exact Int.natCast_nonneg _) anchor
  rw [height, v3_timespan le, (v3_bounds le).1, (v3_bounds le).2] at required
  exact required

theorem v3_limited {p f bits} (le : 1900 ≤ (p.nHeight : Int) + 1)
    (required : getNextWorkRequired p f mainParams = .ok bits) :
    setCompact bits ≤ mainParams.powLimit.toNat := by
  have interval : difficultyAdjustmentIntervalAtHeight mainParams (p.nHeight + 1) = .ok 1 := by
    rw [difficultyAdjustmentIntervalAtHeight, v3_timespan le]
    rfl
  exact adjusted_limited rfl interval one_pos (Int.tmod_one _) required

theorem v3_step {bits elapsed}
    (rounded : bits = getCompact false (exactTarget mainParams g.nBits (countedTime elapsed) 150)) :
    setCompact bits * 150 ≤ setCompact g.nBits * (countedTime elapsed).toNat := by
  have lt : setCompact bits ≤ setCompact g.nBits * (countedTime elapsed).toNat / 150 := by
    rw [rounded]
    exact (roundsDown.le (exactTarget_lt _ _ _ _)).trans (min_le_left _ _)
  exact (mul_le_mul_right 150 lt).trans (div_mul_le_self _ _)

def Rising : CBlockIndex → Prop
  | .genesis _ => True
  | .child p f => Rising p ∧ p.getBlockTime < f.nTime.toNat

theorem Rising.time_le (rising : Rising b) (h : Ancestor a b) :
    a.getBlockTime ≤ b.getBlockTime := by
  induction h with
  | refl => exact le_rfl
  | step _ ih => exact (ih rising.1).trans rising.2.le

theorem Rising.afterMedian (rising : Rising b) : AfterMedian b := by
  induction b with
  | genesis f => trivial
  | child p f ih =>
    obtain ⟨a, lt, time⟩ := getMedianTimePast_ancestor p
    exact ⟨ih rising.1, time ▸ lt_of_le_of_lt (rising.1.time_le lt) rising.2⟩

/-- Blocks that take 200 seconds each: the target stays at the limit. -/
def slowBlock (height : Nat) : HeaderFields :=
  { secondBlock with nTime := mainGenesis.nTime + 200 * height.toUInt32 }

def slowChain : Nat → CBlockIndex
  | 0 => .genesis mainGenesis
  | n + 1 => .child (slowChain n) (slowBlock (n + 1))

theorem nHeight_slowChain (n : Nat) : (slowChain n).nHeight = n := by
  induction n with
  | zero => rfl
  | succ n ih => rw [slowChain, nHeight_child, ih]

theorem nBits_slowChain (n : Nat) : (slowChain n).nBits = 0x1d00ffff := by
  cases n <;> rfl

theorem ancestor_slowChain (le : m ≤ n) : Ancestor (slowChain m) (slowChain n) := by
  induction n with
  | zero =>
    obtain rfl := le_zero.mp le
    exact .refl
  | succ n ih =>
    obtain rfl | lower := eq_or_lt_of_le le
    · exact .refl
    · exact .step (ih (Nat.lt_succ_iff.mp lower))

theorem getBlockTime_slowChain (le : n ≤ 2000) :
    (slowChain n).getBlockTime = 1780208106 + 200 * n := by
  cases n with
  | zero => rfl
  | succ n =>
    have start : (1780208106 : UInt32).toNat = 1780208106 := rfl
    have gap : (200 : UInt32).toNat = 200 := rfl
    simp only [slowChain, getBlockTime, fields, slowBlock, mainGenesis, UInt32.toNat_add,
      UInt32.toNat_mul, toUInt32, UInt32.toNat_ofNat', start, gap]
    omega

theorem limit_stays (pos : 0 < nTargetTimespan) (long : 6 * nTargetTimespan ≤ 5 * timespan) :
    getCompact false (exactTarget mainParams 0x1d00ffff timespan nTargetTimespan) = 0x1d00ffff := by
  have capped : exactTarget mainParams 0x1d00ffff timespan nTargetTimespan =
      mainParams.powLimit.toNat := by
    refine min_eq_right ((le_div_iff_mul_le (by omega)).mpr ?_)
    have le : mainParams.powLimit.toNat * 5 ≤ setCompact 0x1d00ffff * 6 := by decide
    have times : nTargetTimespan.toNat * 6 ≤ timespan.toNat * 5 := by omega
    nlinarith
  rw [capped]
  decide

theorem main_stretch (height : Int) :
    6 * powTargetTimespanAtHeight mainParams height ≤ 5 * largestTimespan mainParams height :=
  main_rule (P := fun t f => 6 * t ≤ 5 * (t * f.1 / f.2)) (by decide) height

theorem slow_adjusted (small : n ≤ 2000) (f : HeaderFields)
    (atInterval : difficultyAdjustmentIntervalAtHeight mainParams (n + 1) = .ok interval)
    (pos : 0 < interval) (phase : (n + 1 : Int).tmod interval = 0) (le : m ≤ n)
    (first : heightFirst (slowChain n) interval = m)
    (long : 6 * powTargetTimespanAtHeight mainParams (n + 1) ≤ 1000 * (n - m)) :
    getNextWorkRequired (slowChain n) f mainParams = .ok 0x1d00ffff := by
  have height := nHeight_slowChain n
  have bound := main_stretch (n + 1)
  have anchor : (slowChain n).getAncestor (heightFirst (slowChain n) interval) =
      some (slowChain m) := by
    have found := getAncestor_of_ancestor (ancestor_slowChain le)
    rwa [nHeight_slowChain, ← first] at found
  have limited : setCompact (slowChain n).nBits ≤ mainParams.powLimit.toNat := by
    rw [nBits_slowChain]
    decide
  rw [required_adjusted main_retargetable main_narrow f limited rfl (by rw [height]; exact atInterval)
    pos (by rw [height]; exact phase) (by omega) anchor, nBits_slowChain, height,
    getBlockTime_slowChain small, getBlockTime_slowChain (le.trans small)]
  refine congrArg Except.ok (limit_stays (timespan_pos main_retargetable _) ?_)
  simp only [limitTimespan]
  split <;> split <;> omega

theorem slow_required (le : n ≤ 2000) (f : HeaderFields) :
    getNextWorkRequired (slowChain n) f mainParams = .ok 0x1d00ffff := by
  have height := nHeight_slowChain n
  obtain early | ⟨from300, below800⟩ | single : n < 299 ∨ (299 ≤ n ∧ n < 799) ∨ 799 ≤ n := by omega
  · have timespan : powTargetTimespanAtHeight mainParams (n + 1) = 1209600 := by
      rw [main_timespan_eq, if_neg (by omega), if_neg (by omega)]
    have interval : difficultyAdjustmentIntervalAtHeight mainParams (n + 1) = .ok 8064 := by
      rw [difficultyAdjustmentIntervalAtHeight, timespan]
      rfl
    rw [required_kept main_retargetable f (by rw [height]; exact interval) (by decide)
      (by rw [height, Int.tmod_eq_emod_of_nonneg (by omega)]; omega), nBits_slowChain]
  · have timespan : powTargetTimespanAtHeight mainParams (n + 1) = 15000 := by
      rw [main_timespan_eq, if_neg (by omega), if_pos (by omega)]
    have interval : difficultyAdjustmentIntervalAtHeight mainParams (n + 1) = .ok 100 := by
      rw [difficultyAdjustmentIntervalAtHeight, timespan]
      rfl
    by_cases phase : (n + 1 : Int).tmod 100 = 0
    · refine slow_adjusted (m := n - 99) le f interval (by decide) phase (by omega) ?_ (by omega)
      have window : heightFirst (slowChain n) 100 = (n : Int) - 99 := by
        simp only [heightFirst, height]
        split <;> rfl
      omega
    · rw [required_kept main_retargetable f (by rw [height]; exact interval) (by decide)
        (by rw [height]; exact phase), nBits_slowChain]
  · have timespan : powTargetTimespanAtHeight mainParams (n + 1) = 150 := by
      rw [main_timespan_eq, if_pos (by omega)]
    have interval : difficultyAdjustmentIntervalAtHeight mainParams (n + 1) = .ok 1 := by
      rw [difficultyAdjustmentIntervalAtHeight, timespan]
      rfl
    refine slow_adjusted (m := n - 1) le f interval one_pos (Int.tmod_one _)
      (by omega) ?_ (by omega)
    obtain ⟨k, rfl⟩ : ∃ k, n = k + 1 := ⟨n - 1, by omega⟩
    simp only [heightFirst, slowChain, pprev, if_true, nHeight_slowChain, Nat.add_sub_cancel]

theorem slow_chain (le : n ≤ 2000) :
    RequiredChain mainParams (slowChain n) ∧ Rising (slowChain n) := by
  induction n with
  | zero => exact ⟨.genesis (by decide) (by decide), trivial⟩
  | succ n ih =>
    obtain ⟨required, rising⟩ := ih (by omega)
    refine ⟨.child required (slow_required (by omega) _), rising, ?_⟩
    have now := getBlockTime_slowChain le
    rw [getBlockTime_slowChain (by omega)]
    change ((slowBlock (n + 1)).nTime.toNat : Int) = _ at now
    omega

/-- A block some seconds after the slow chain has reached the V3 height. -/
def laterBlock (seconds bits : UInt32) : HeaderFields :=
  { secondBlock with nTime := 1780588106 + seconds, nBits := bits }

/-- The target after a run, cleared of denominators, is at most the first target
    times all counted times. -/
theorem target_le_product {q run} (active : 1900 ≤ (q.nHeight : Int) + 2)
    (le : setCompact g.nBits ≤ mainParams.powLimit.toNat)
    (required : RequiredRun mainParams (.child q g) run) (next : HeaderFields) :
    ∃ bits, getNextWorkRequired (extend (.child q g) run) next mainParams = .ok bits ∧
      setCompact bits * 150 ^ (run.length + 1) ≤ setCompact g.nBits *
        ((elapsedTimes q (g :: run)).map (fun e => (countedTime e).toNat)).prod := by
  induction run generalizing q g with
  | nil =>
    refine ⟨_, v3_required active le next, ?_⟩
    simpa only [length_nil, zero_add, pow_one, elapsedTimes, map_cons, map_nil,
      prod_cons, prod_nil, mul_one] using v3_step rfl
  | cons f rest ih =>
    obtain ⟨now, later⟩ := required
    have here := v3_required active le f
    rw [here] at now
    have step := v3_step (Except.ok.inj now).symm
    have limitedNext := v3_limited (p := .child q g) (f := f)
      (by simp only [nHeight_child]; omega) here
    rw [Except.ok.inj now] at limitedNext
    obtain ⟨bits, found, bound⟩ := ih (by simp only [nHeight_child]; omega) limitedNext later
    refine ⟨bits, found, ?_⟩
    simp only [elapsedTimes, map_cons, prod_cons, length_cons] at bound ⊢
    generalize ((elapsedTimes (child (child q g) f) rest).map
      (fun e => (countedTime e).toNat)).prod = later at bound ⊢
    calc
      setCompact bits * 150 ^ (rest.length + 1 + 1) =
          setCompact bits * 150 ^ (rest.length + 1) * 150 := by ring
      _ ≤ setCompact f.nBits *
          ((countedTime (f.nTime.toNat - (child q g).getBlockTime)).toNat * later) * 150 :=
        mul_le_mul_right 150 bound
      _ = setCompact f.nBits * 150 *
          ((countedTime (f.nTime.toNat - (child q g).getBlockTime)).toNat * later) := by ring
      _ ≤ setCompact g.nBits * (countedTime (g.nTime.toNat - q.getBlockTime)).toNat *
          ((countedTime (f.nTime.toNat - (child q g).getBlockTime)).toNat * later) :=
        mul_le_mul_right _ step
      _ = _ := by ring

private theorem sum_toNat {times : List Int} (nonneg : ∀ t ∈ times, 0 ≤ t) :
    (((times.map Int.toNat).sum : Nat) : Int) = times.sum := by
  induction times with
  | nil => rfl
  | cons t rest ih =>
    have head := nonneg t mem_cons_self
    have tail := ih (forall_mem_cons.mp nonneg).2
    simp only [map_cons, sum_cons, Int.natCast_add, tail]
    omega

/-- Blocks whose counted times average at most the target spacing do not raise
    the target, whatever order their timestamps come in. -/
theorem target_not_raised {b : CBlockIndex} {first : HeaderFields} {run : List HeaderFields}
    (active : mainParams.nPowRetargetV3ActivationHeight ≤ b.nHeight)
    (required : RequiredRun mainParams b (first :: run))
    (onSchedule : ((elapsedTimes b (first :: run)).map countedTime).sum ≤
      (first :: run).length * mainParams.nPowTargetSpacing)
    (next : HeaderFields) :
    ∃ bits, getNextWorkRequired (extend b (first :: run)) next mainParams = .ok bits ∧
      setCompact bits ≤ setCompact first.nBits := by
  have high : 1900 ≤ (b.nHeight : Int) := active
  obtain ⟨now, later⟩ := required
  have limited := v3_limited (by omega) now
  obtain ⟨bits, found, bound⟩ := target_le_product (by omega) limited later next
  refine ⟨bits, found, ?_⟩
  have nonneg : ∀ t ∈ (elapsedTimes b (first :: run)).map countedTime, 0 ≤ t := by
    intro t member
    obtain ⟨e, -, rfl⟩ := mem_map.mp member
    have := countedTime_inside e
    omega
  have mean := Mean.prod_le_pow ((elapsedTimes b (first :: run)).map (fun e => (countedTime e).toNat))
    (m := 150) (by
      have total := sum_toNat nonneg
      rw [map_map] at total
      have schedule : ((elapsedTimes b (first :: run)).map countedTime).sum ≤
        (first :: run).length * 150 := onSchedule
      rw [length_map, length_elapsedTimes]
      simp only [Function.comp_def] at total
      omega)
  rw [length_map, length_elapsedTimes, length_cons] at mean
  have scaled := bound.trans (mul_le_mul_left _ mean)
  exact le_of_mul_le_mul_right scaled (by positivity)

/-- Two blocks of 100 seconds, each counted as 120. -/
def quickChain : CBlockIndex :=
  .child (.child (slowChain 1900) (laterBlock 100 0x1d00ffff)) (laterBlock 200 0x1d00cccc)

theorem quick_required (f : HeaderFields) :
    getNextWorkRequired (.child (slowChain 1900) (laterBlock 100 0x1d00ffff)) f mainParams =
      .ok 0x1d00cccc := by
  have start : (slowChain 1900).getBlockTime = 1780588106 := getBlockTime_slowChain (by decide)
  rw [v3_required (by rw [nHeight_slowChain]; decide) (by decide), start]
  decide

theorem quick_chain : RequiredChain mainParams quickChain ∧ Rising quickChain := by
  obtain ⟨required, rising⟩ := slow_chain (n := 1900) (by decide)
  exact ⟨.child (.child required (slow_required (by decide) _)) (quick_required _),
    ⟨rising, by decide⟩, by decide⟩

theorem presync_accepts_quick : RequiredChain mainParams quickChain ∧
    permittedDifficultyTransition mainParams 1902 0x1d00ffff 0x1d00cccc = .ok true := by
  refine ⟨quick_chain.1, ?_⟩
  have accepted := presync_accepts_required main_retargetable main_narrow quick_chain.1 .refl
  rwa [nHeight_child, nHeight_slowChain] at accepted

theorem target_not_raised_quick :
    ∃ bits, getNextWorkRequired quickChain secondBlock mainParams = .ok bits ∧
      setCompact bits ≤ setCompact 0x1d00ffff := by
  have start : (slowChain 1900).getBlockTime = 1780588106 := getBlockTime_slowChain (by decide)
  refine @target_not_raised (slowChain 1900) (laterBlock 100 0x1d00ffff) [laterBlock 200 0x1d00cccc]
    ?_ ⟨slow_required (by decide) _, quick_required _, trivial⟩ ?_ secondBlock
  · rw [nHeight_slowChain]
    decide
  · rw [elapsedTimes, start]
    decide

theorem nHeight_quickChain : quickChain.nHeight = 1902 := by
  simp only [quickChain, nHeight_child, nHeight_slowChain]

/-- Two blocks of 187 seconds and one of a single second: 375 seconds for three
    blocks, and a target a quarter above the one the run began with. -/
theorem on_schedule_raises : ∃ b first run next bits,
    RequiredChain mainParams (extend b (first :: run)) ∧ AfterMedian (extend b (first :: run)) ∧
      mainParams.nPowRetargetV3ActivationHeight ≤ b.nHeight ∧
      (extend b (first :: run)).getBlockTime - b.getBlockTime ≤
        (first :: run).length * mainParams.nPowTargetSpacing ∧
      getNextWorkRequired (extend b (first :: run)) next mainParams = .ok bits ∧
      setCompact first.nBits < setCompact bits := by
  obtain ⟨required, rising⟩ := quick_chain
  have start : (child (slowChain 1900) (laterBlock 100 0x1d00ffff)).getBlockTime = 1780588206 := rfl
  have height := nHeight_quickChain
  refine ⟨quickChain, laterBlock 387 0x1d00a3d6,
    [laterBlock 574 0x1d00cc3f, laterBlock 575 0x1d00fea0], secondBlock, 0x1d00cbb3,
    .child (.child (.child required ?_) ?_) ?_, Rising.afterMedian ⟨⟨⟨rising, ?_⟩, ?_⟩, ?_⟩, ?_, ?_,
    ?_, by decide⟩
  · rw [quickChain,
      v3_required (by rw [nHeight_child, nHeight_slowChain]; decide) (by decide), start]
    decide
  · rw [v3_required (by rw [height]; decide) (by decide)]
    decide
  · rw [v3_required (by rw [nHeight_child, height]; decide) (by decide)]
    decide
  · decide
  · decide
  · decide
  · rw [height]
    decide
  · decide
  · simp only [extend]
    rw [v3_required (by simp only [nHeight_child, height]; decide) (by decide)]
    decide

end HobbyHash.Pow.Schedule
