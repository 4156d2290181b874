import HobbyHash.Pow.CompactCode
import HobbyHash.Pow.Schedule

/-! # Every retarget of the main network

From the genesis block of the main network on, `GetNextWorkRequired` always finds the block
its window starts at, its products stay within 256 bits, and each word it returns is one
that `GetCompact` returns. From the V3 height on the target moves after every block, and
its mantissa is long enough that no rounding takes the adjustment back.
-/

namespace HobbyHash.Pow.Retarget

open Consensus ArithUint256 CBlockIndex Transition Schedule Library.Rounding

variable {b : CBlockIndex}

/-- What the V3 rule requires after a block of the given bits and elapsed time. -/
def v3Bits (nBits : UInt32) (elapsed : Int) : UInt32 :=
  getCompact false (exactTarget mainParams nBits (countedTime elapsed) 150)

theorem v3Bits_between {nBits} (limited : setCompact nBits ≤ mainParams.powLimit.toNat)
    (elapsed : Int) :
    setCompact (getCompact false (setCompact nBits * 120 / 150))
      ≤ setCompact (v3Bits nBits elapsed) ∧
      setCompact (v3Bits nBits elapsed) ≤ setCompact nBits * 187 / 150 := by
  obtain ⟨above, lt⟩ := countedTime_inside elapsed
  have le : setCompact nBits * 120 / 150
    ≤ exactTarget mainParams nBits (countedTime elapsed) 150 := by
    refine le_min (Nat.div_le_div_right (Nat.mul_le_mul_left _ (by omega))) ?_
    omega
  have upper : exactTarget mainParams nBits (countedTime elapsed) 150
    ≤ setCompact nBits * 187 / 150 :=
    (min_le_left _ _).trans (Nat.div_le_div_right (Nat.mul_le_mul_left _ (by omega)))
  exact ⟨roundsDown.mono (le.trans_lt (exactTarget_lt _ _ _ _)) (exactTarget_lt _ _ _ _) le,
    (roundsDown.le (exactTarget_lt _ _ _ _)).trans upper⟩

/-- A word that `GetCompact` returns for some target. -/
def Canonical (nBits : UInt32) : Prop :=
  ∃ target < modulus, getCompact false target = nBits

theorem anchor_found (phase : (b.nHeight + 1 : Int).tmod interval = 0)
    (atInterval : difficultyAdjustmentIntervalAtHeight mainParams (b.nHeight + 1) = .ok interval) :
    ∃ first, 0 ≤ heightFirst b interval ∧ b.getAncestor (heightFirst b interval) = some first := by
  have lt : 0 ≤ heightFirst b interval ∧ heightFirst b interval ≤ b.nHeight := by
    rw [difficultyAdjustmentIntervalAtHeight, main_timespan_eq] at atInterval
    cases b with
    | genesis f =>
      cases Except.ok.inj atInterval
      cases phase
    | child p f =>
      obtain late | ⟨later, early⟩ | first : 800 ≤ ((child p f).nHeight : Int) + 1 ∨
          (300 ≤ ((child p f).nHeight : Int) + 1 ∧ ((child p f).nHeight : Int) + 1 < 800) ∨
          ((child p f).nHeight : Int) + 1 < 300 := by omega
      · rw [if_pos late] at atInterval
        cases Except.ok.inj atInterval
        change 0 ≤ (p.nHeight : Int) ∧ (p.nHeight : Int) ≤ (child p f).nHeight
        rw [nHeight_child]
        omega
      · rw [if_neg (by omega), if_pos later] at atInterval
        cases Except.ok.inj atInterval
        change 0 ≤ ((child p f).nHeight : Int) - (100 - 1) ∧ _ - (100 - 1) ≤ _
        omega
      rw [if_neg (by omega), if_neg (by omega)] at atInterval
      cases Except.ok.inj atInterval
      rw [Int.tmod_eq_emod_of_nonneg (by omega)] at phase
      change _ % 8064 = 0 at phase
      omega
  obtain ⟨first, found, -⟩ := getAncestor_isSome lt.1 lt.2
  exact ⟨first, lt.1, found⟩

theorem next_required (le : setCompact b.nBits ≤ mainParams.powLimit.toNat)
    (f : HeaderFields) :
    ∃ bits, getNextWorkRequired b f mainParams = .ok bits ∧ (bits = b.nBits ∨ Canonical bits) := by
  obtain ⟨interval, pos, atInterval⟩ := interval_ok main_retargetable main_narrow (b.nHeight + 1)
  by_cases phase : (b.nHeight + 1 : Int).tmod interval = 0
  · obtain ⟨first, nonneg, anchor⟩ := anchor_found phase atInterval
    exact ⟨_, required_adjusted main_retargetable main_narrow f le rfl atInterval pos phase
      nonneg anchor, .inr ⟨_, exactTarget_lt _ _ _ _, rfl⟩⟩
  · exact ⟨_, required_kept main_retargetable f atInterval pos phase, .inl rfl⟩

theorem canonical_of_chain (chain : RequiredChain mainParams b)
    (root : Ancestor (.genesis mainGenesis) b) : Canonical b.nBits := by
  induction chain with
  | genesis _ _ =>
    cases root
    exact ⟨setCompact 0x1d00ffff, by decide, by decide⟩
  | @child p f lt required ih =>
    cases root with
    | step deeper =>
      obtain ⟨bits, found, origin⟩ := next_required (lt.limited main_retargetable main_narrow) f
      obtain rfl : bits = f.nBits := Except.ok.inj (found.symm.trans required)
      obtain same | canonical := origin
      · exact (congrArg Canonical same).mpr (ih deeper)
      · exact canonical

/-- No retarget on a chain from the genesis block fails, its product does not wrap, and its
    result is the exact one, rounded: canonical, without flags and within the limits. -/
theorem retarget_bounded (chain : RequiredChain mainParams b)
    (root : Ancestor (.genesis mainGenesis) b) (f : HeaderFields) :
    (∃ bounds, powAdjustmentTimespanBounds mainParams (b.nHeight + 1)
        (powTargetTimespanAtHeight mainParams (b.nHeight + 1)) = .ok bounds ∧
      (∀ elapsed, 0 ≤ limitTimespan bounds elapsed ∧ limitTimespan bounds elapsed < 2 ^ 32 ∧
        setCompact b.nBits * (limitTimespan bounds elapsed).toNat < 2 ^ 256) ∧
      ∀ interval, difficultyAdjustmentIntervalAtHeight mainParams (b.nHeight + 1) = .ok interval →
        (b.nHeight + 1 : Int).tmod interval = 0 →
        ∃ first, b.getAncestor (heightFirst b interval) = some first ∧
          getNextWorkRequired b f mainParams = .ok (getCompact false (exactTarget mainParams b.nBits
            (limitTimespan bounds (b.getBlockTime - first.getBlockTime))
            (powTargetTimespanAtHeight mainParams (b.nHeight + 1))))) ∧
    ∃ bits, getNextWorkRequired b f mainParams = .ok bits ∧
      getCompact false (setCompact bits) = bits ∧
      compactNegative bits = false ∧ compactOverflow bits = false ∧
      setCompact bits ≤ mainParams.powLimit.toNat ∧
      (1900 ≤ b.nHeight + 1 →
        setCompact (getCompact false (setCompact b.nBits * 120 / 150)) ≤ setCompact bits ∧
        setCompact bits ≤ setCompact b.nBits * 187 / 150) := by
  have limited := chain.limited main_retargetable main_narrow
  constructor
  · refine ⟨_, bounds_ok main_retargetable main_narrow _, fun elapsed => ?_,
      fun interval atInterval phase => ?_⟩
    · have nonneg := smallest_nonneg main_retargetable (b.nHeight + 1)
      have ordered := (smallest_le main_retargetable (b.nHeight + 1)).trans
        (le_largest main_retargetable (b.nHeight + 1))
      obtain ⟨above, below⟩ := limitTimespan_inside ordered elapsed
      exact ⟨nonneg.trans above, below.trans_lt (main_narrow.uint32 _),
        product_lt main_retargetable limited (nonneg.trans above) below⟩
    · obtain ⟨first, nonneg, anchor⟩ := anchor_found phase atInterval
      obtain ⟨_, pos, same⟩ := interval_ok main_retargetable main_narrow (b.nHeight + 1)
      cases atInterval.symm.trans same
      exact ⟨first, anchor, required_adjusted main_retargetable main_narrow f limited rfl atInterval
        pos phase nonneg anchor⟩
  · obtain ⟨bits, required, -⟩ := next_required limited f
    have next : RequiredChain mainParams (.child b { f with nBits := bits }) := by
      refine .child chain ?_
      rw [← required]
      rfl
    obtain ⟨target, range, isTarget⟩ := canonical_of_chain next (.step root)
    have isTarget : getCompact false target = bits := isTarget
    refine ⟨bits, required, ?_, ?_, ?_, ?_, fun active => ?_⟩
    · rw [← isTarget, getCompact_rounded range]
    · exact isTarget ▸ (getCompact_unflagged range).1
    · exact isTarget ▸ (getCompact_unflagged range).2
    · exact next.limited main_retargetable main_narrow
    cases b with
    | genesis g => simp at active
    | child q g =>
      rw [nHeight_child] at active
      rw [v3_required (g := g) (by omega) limited] at required
      obtain rfl := Except.ok.inj required
      exact v3Bits_between limited _

theorem retarget_bounded_quick :
    ∃ bounds first bits, quickChain.getAncestor (heightFirst quickChain 1) = some first ∧
      setCompact 0x1d00cccc * (limitTimespan bounds
        (quickChain.getBlockTime - first.getBlockTime)).toNat < 2 ^ 256 ∧
      getNextWorkRequired quickChain secondBlock mainParams = .ok bits ∧
      bits = getCompact false (exactTarget mainParams 0x1d00cccc (limitTimespan bounds
        (quickChain.getBlockTime - first.getBlockTime)) 150) ∧
      getCompact false (setCompact bits) = bits ∧
      setCompact bits ≤ setCompact 0x1d00cccc * 187 / 150 := by
  obtain ⟨⟨bounds, -, bounded, exact⟩, bits, required, canonical, -, -, -, step⟩ :=
    retarget_bounded quick_chain.1 (.step (.step (ancestor_slowChain (Nat.zero_le _)))) secondBlock
  rw [nHeight_quickChain] at exact step
  obtain ⟨first, anchor, result⟩ := exact 1 (by decide) (by decide)
  exact ⟨bounds, first, bits, anchor, (bounded _).2.2, required,
    Except.ok.inj (required.symm.trans result), canonical, (step (by decide)).2⟩

/-- A target of at least five has a next one within the largest step. -/
theorem exists_representable_above (mem : t ∈ Representable) (low : 5 ≤ t) :
    ∃ y ∈ Representable, t < y ∧ y ≤ t * 187 / 150 := by
  obtain ⟨m, e, small, rfl⟩ := mem
  induction e generalizing m with
  | zero =>
    rw [pow_zero, mul_one] at low ⊢
    refine ⟨m + 1, ?_, Nat.lt_succ_self m, by omega⟩
    by_cases room : m + 1 < 2 ^ 23
    · exact Floating.of_lt room
    · exact ⟨2 ^ 15, 1, by norm_num, by omega⟩
  | succ e ih =>
    by_cases long : 5 ≤ m
    · refine ⟨(m + 1) * 256 ^ (e + 1), ?_, ?_, ?_⟩
      · by_cases room : m + 1 < 2 ^ 23
        · exact Floating.mul_pow room _
        · refine ⟨2 ^ 15, e + 2, by norm_num, ?_⟩
          rw [show m + 1 = 2 ^ 15 * 256 by omega]
          ring
      · exact Nat.mul_lt_mul_of_pos_right (Nat.lt_succ_self m) (by positivity)
      rw [Nat.le_div_iff_mul_le (by norm_num)]
      calc
        (m + 1) * 256 ^ (e + 1) * 150 = (m + 1) * 150 * 256 ^ (e + 1) := by ring
        _ ≤ m * 187 * 256 ^ (e + 1) := Nat.mul_le_mul_right _ (by omega)
        _ = m * 256 ^ (e + 1) * 187 := by ring
    · have shorter : m * 256 ^ (e + 1) = m * 256 * 256 ^ e := by ring
      rw [shorter] at low ⊢
      exact ih (m * 256) (by omega) low

/-- Whatever the mantissa and the size of the parent's target, the next one follows the
    elapsed time, and a block at either end of the range changes it. -/
theorem adjustment_kept {n : UInt32} (low : 5 ≤ setCompact n)
    (limited : setCompact n ≤ mainParams.powLimit.toNat) :
    ∃ next : Int → UInt32,
      (∀ q g f, g.nBits = n → 1900 ≤ (q.nHeight : Int) + 2 →
        getNextWorkRequired (.child q g) f mainParams
        = .ok (next (g.nTime.toNat - q.getBlockTime))) ∧
      (∀ elapsed elapsed', elapsed ≤ elapsed' →
        setCompact (next elapsed) ≤ setCompact (next elapsed')) ∧
      (∀ elapsed, 187 ≤ elapsed → setCompact n < setCompact (next elapsed) ∨
        setCompact (next elapsed) = setCompact (getCompact false mainParams.powLimit.toNat)) ∧
      ∀ elapsed ≤ 120, setCompact (next elapsed) < setCompact n := by
  refine ⟨v3Bits n, ?_, fun elapsed elapsed' le => ?_, fun elapsed long => ?_,
    fun elapsed short => ?_⟩
  · rintro q g f rfl active
    exact v3_required active limited f
  · refine roundsDown.mono (exactTarget_lt _ _ _ _) (exactTarget_lt _ _ _ _) (exactTarget_mono ?_)
    simp only [countedTime, limitTimespan]
    split_ifs <;> omega
  · have longest : countedTime elapsed = 187 := by
      simp only [countedTime, limitTimespan]
      split <;> split <;> omega
    rw [v3Bits, longest]
    by_cases capped : mainParams.powLimit.toNat ≤ setCompact n * 187 / 150
    · have limit : exactTarget mainParams n 187 150 = mainParams.powLimit.toNat :=
        min_eq_right capped
      exact .inr (by rw [limit])
    · obtain ⟨y, onGrid, above, below⟩ :=
        exists_representable_above (setCompact_representable n) low
      refine .inl (above.trans_le (roundsDown.le_round (exactTarget_lt _ _ _ _) onGrid ?_))
      exact le_min below (below.trans (not_le.mp capped).le)
  · have shortest : countedTime elapsed = 120 := by
      simp only [countedTime, limitTimespan]
      split <;> split <;> omega
    rw [v3Bits, shortest]
    refine (roundsDown.le (exactTarget_lt _ _ _ _)).trans_lt ((min_le_left _ _).trans_lt ?_)
    change setCompact n * 120 / 150 < _
    omega

theorem adjustment_kept_quick : ∃ next : Int → UInt32,
    getNextWorkRequired quickChain secondBlock mainParams = .ok (next 100) ∧
      setCompact (next 100) < setCompact 0x1d00cccc := by
  obtain ⟨next, required, -, -, shorter⟩ := @adjustment_kept 0x1d00cccc (by decide) (by decide)
  refine ⟨next, ?_, shorter 100 (by decide)⟩
  exact required _ _ secondBlock rfl (by rw [nHeight_child, nHeight_slowChain]; decide)

end HobbyHash.Pow.Retarget
