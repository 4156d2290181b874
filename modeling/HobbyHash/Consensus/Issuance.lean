import HobbyHash.Consensus.Params
import Mathlib.Algebra.BigOperators.Intervals
import Mathlib.Tactic.Linarith

/-! # Amounts and issuance

The subsidy schedule of `GetBlockSubsidy` and the range check of `amount.h`. The
schedule pays 8,400,000 coins in block 1 and 45 coins, halved every 840,000
blocks, from block 2 on; the range check still carries the limit of a schedule
that issues a quarter of that. All amounts are mathematical integers here; what
fits `int64_t` is a matter for the functions that add them.
-/

namespace HobbyHash.Consensus

/-- `COIN`: amounts (`CAmount`) count hundred-millionths. -/
def coin : Int := 100000000

def maxMoney : Int := 21000000 * coin

def moneyRange (nValue : Int) : Prop :=
  nValue ≥ 0 ∧ nValue ≤ maxMoney

instance (nValue : Int) : Decidable (moneyRange nValue) :=
  inferInstanceAs (Decidable (_ ∧ _))

theorem moneyRange_iff : moneyRange x ↔ 0 ≤ x ∧ x ≤ 2100000000000000 :=
  Iff.rfl

/-- `GetBlockSubsidy`. The halving interval is positive on every network. -/
def getBlockSubsidy (nHeight : Int) (params : Params) : Int :=
  if nHeight = 1 then 8400000 * coin
  else if nHeight < 2 then 0
  else
    let halvings := (nHeight - 2).tdiv params.nSubsidyHalvingInterval
    if halvings ≥ 64 then 0 else (45 * coin) >>> halvings.toNat

/-- Everything the schedule pays up to and including a height. -/
def issued (params : Params) : Nat → Int
  | 0 => getBlockSubsidy 0 params
  | n + 1 => issued params n + getBlockSubsidy (n + 1) params

theorem issued_eq_sum (params : Params) (n : Nat) :
    issued params n = ∑ h ∈ Finset.Icc 1 n, getBlockSubsidy h params := by
  induction n with
  | zero => rfl
  | succ n ih =>
    rw [issued, ih, Finset.sum_Icc_succ_top (Nat.le_add_left 1 n)]
    rfl

def subsidyAfter (halvings : Nat) : Int :=
  if halvings ≥ 64 then 0 else (45 * coin) >>> halvings

theorem subsidyAfter_nonneg (halvings : Nat) : 0 ≤ subsidyAfter halvings := by
  simp only [subsidyAfter]
  split
  · exact le_rfl
  · exact Int.le_shiftRight_of_nonneg (by decide)

theorem subsidyAfter_le (halvings : Nat) : subsidyAfter halvings ≤ 45 * coin := by
  simp only [subsidyAfter]
  split
  · decide
  · exact Int.shiftRight_le_of_nonneg (by decide)

theorem main_subsidy (k : Nat) :
    getBlockSubsidy (k + 2 : Nat) mainParams = subsidyAfter (k / 840000) := by
  have interval : mainParams.nSubsidyHalvingInterval = 840000 := rfl
  have halvings : ((k + 2 : Nat) - 2 : Int).tdiv 840000 = (k / 840000 : Nat) := by
    rw [Int.tdiv_eq_ediv_of_nonneg (by omega)]
    omega
  simp only [getBlockSubsidy, interval, halvings, subsidyAfter, Int.toNat_natCast]
  norm_cast

/-- Subsidies of one block from each of the first epochs. -/
def epochTotal : Nat → Int
  | 0 => 0
  | e + 1 => epochTotal e + subsidyAfter e

theorem epochTotal_mono (le : d ≤ e) : epochTotal d ≤ epochTotal e := by
  induction le with
  | refl => exact le_rfl
  | step _ ih => exact ih.trans (Int.le_add_of_nonneg_right (subsidyAfter_nonneg _))

theorem epochTotal_le (e : Nat) : epochTotal e ≤ epochTotal 64 := by
  induction e with
  | zero => exact epochTotal_mono (Nat.zero_le 64)
  | succ e ih =>
    by_cases early : e < 64
    · exact epochTotal_mono early
    · have nothing : subsidyAfter e = 0 := if_pos (by omega)
      rw [epochTotal, nothing, Int.add_zero]
      exact ih

theorem issued_eq (k : Nat) :
    issued mainParams (k + 1) = 8400000 * coin + 840000 * epochTotal (k / 840000) +
      (k % 840000 : Nat) * subsidyAfter (k / 840000) := by
  induction k with
  | zero => rfl
  | succ k ih =>
    rw [issued, ih]
    change _ + getBlockSubsidy (k + 2 : Nat) mainParams = _
    rw [main_subsidy]
    by_cases last : k % 840000 = 839999
    · have epoch : (k + 1) / 840000 = k / 840000 + 1 := by omega
      have start : (k + 1) % 840000 = 0 := by omega
      rw [epoch, start, last, epochTotal]
      ring
    have epoch : (k + 1) / 840000 = k / 840000 := by omega
    have next : (k + 1) % 840000 = k % 840000 + 1 := by omega
    rw [epoch, next]
    push_cast
    ring

theorem issued_mono (le : m ≤ n) : issued mainParams m ≤ issued mainParams n := by
  induction le with
  | refl => exact le_rfl
  | @step n _ ih =>
    refine ih.trans (Int.le_add_of_nonneg_right ?_)
    cases n with
    | zero => decide
    | succ k => exact (subsidyAfter_nonneg _).trans_eq (main_subsidy k).symm

theorem issued_nonneg (n : Nat) : 0 ≤ issued mainParams n :=
  issued_mono (Nat.zero_le n)

/-- The whole schedule stays below 84,000,000 coins. -/
theorem issued_lt (n : Nat) : issued mainParams n < 84000000 * coin := by
  have all : epochTotal 64 < 90 * coin := by decide
  refine lt_of_le_of_lt (issued_mono (Nat.le_succ n)) ?_
  rw [issued_eq]
  have done := epochTotal_le (n / 840000 + 1)
  rw [epochTotal] at done
  have paid := subsidyAfter_nonneg (n / 840000)
  have le : ((n % 840000 : Nat) : Int) * subsidyAfter (n / 840000) ≤
      840000 * subsidyAfter (n / 840000) :=
    Int.mul_le_mul_of_nonneg_right (by omega) paid
  linarith

theorem issued_first_epoch (lt : k < 840000) :
    issued mainParams (k + 1) = (8400000 + 45 * k) * coin := by
  have first : subsidyAfter 0 = 45 * coin := rfl
  rw [issued_eq, Nat.div_eq_of_lt lt, Nat.mod_eq_of_lt lt, first, epochTotal]
  ring

/-- Total issuance passes the range check up to height 280,001 and at no later
    height: there it has reached the limit exactly. -/
theorem issued_moneyRange_iff (n : Nat) : moneyRange (issued mainParams n) ↔ n ≤ 280001 := by
  constructor
  · intro range
    by_contra late
    have exceeded := issued_mono (show 280002 ≤ n by omega)
    rw [issued_first_epoch (k := 280001) (by decide)] at exceeded
    have limit : maxMoney < (8400000 + 45 * (280001 : Nat)) * coin := by decide
    exact absurd (exceeded.trans range.2) (not_le.mpr limit)
  · intro early
    refine ⟨issued_nonneg n, (issued_mono early).trans ?_⟩
    rw [issued_first_epoch (k := 280000) (by decide)]
    decide

theorem issued_exceeds_range : ¬ moneyRange (issued mainParams 280002) := by
  intro range
  have reached := issued_first_epoch (k := 280001) (by decide)
  rw [reached] at range
  exact absurd range.2 (by decide)

end HobbyHash.Consensus
