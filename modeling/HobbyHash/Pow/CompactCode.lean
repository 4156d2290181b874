import HobbyHash.Pow
import Mathlib.Algebra.Order.Floor.Semifield
import Mathlib.Data.Rat.Floor

/-! # What a compact word stands for

A compact word has a sign, a size and a mantissa of 23 bits, and encodes the number
`mantissa * 256 ^ (size - 3)` with that sign. `SetCompact` shifts the mantissa of a small
size down, so it reads the number without its fraction, and it drops what does not fit in
256 bits. The two flags tell exactly when the value it stores is not the number read.
-/

namespace HobbyHash.ArithUint256

open Library.Rounding Nat

section Word

variable (n : UInt32)

def signed : Bool := n.toNat / 2 ^ 23 % 2 = 1

def encodedNumber : ℚ :=
  (if signed n then -1 else 1) * (mantissa n * 256 ^ ((compactSize n : ℤ) - 3))

/-- The number that a compact word encodes, without its fraction. -/
def encoded : Int :=
  (if signed n then -1 else 1) * ⌊|encodedNumber n|⌋₊

theorem encoded_eq : encoded n = (if signed n then -1 else 1) * magnitude n := by
  have absolute : |encodedNumber n| =
      ((mantissa n * 256 ^ compactSize n : Nat) : ℚ) / ((256 ^ 3 : Nat) : ℚ) := by
    have shifted : (256 : ℚ) ^ ((compactSize n : ℤ) - 3) = 256 ^ compactSize n / 256 ^ 3 := by
      rw [zpow_sub₀ (by norm_num), zpow_natCast]
      rfl
    have sign : |(if signed n then -1 else 1 : ℚ)| = 1 := by split <;> simp
    rw [encodedNumber, abs_mul, sign, one_mul, shifted, abs_of_nonneg (by positivity)]
    push_cast
    exact (mul_div_assoc _ _ _).symm
  rw [encoded, absolute, floor_div_eq_div, magnitude]

variable {n}

theorem magnitude_pos : 0 < magnitude n ↔ compactWord n ≠ 0 := by
  rw [magnitude_eq, pos_iff_ne_zero]
  split <;> simp

theorem compactNegative_iff : compactNegative n = true ↔ encoded n < 0 := by
  have sign : n.toNat &&& 0x00800000 ≠ 0 ↔ signed n = true := by
    rw [sign_bit, signed, decide_eq_true_iff]
  rw [compactNegative, Bool.and_eq_true, decide_eq_true_iff, decide_eq_true_iff, sign,
    ← magnitude_pos, encoded_eq]
  cases signed n <;> simp

/-- The sizes that the source names are those at which a byte of the mantissa leaves the
    256 bits. -/
theorem compactOverflow_iff : compactOverflow n = true ↔ modulus ≤ magnitude n := by
  have word := compactWord_lt n
  have whole : modulus = 256 ^ 32 := by norm_num [modulus]
  have leaves {k : Nat} (le : k ≤ 32) (size : compactSize n + k = 35) :
      modulus ≤ compactWord n * 256 ^ (compactSize n - 3) ↔ 256 ^ k ≤ compactWord n := by
    have split : modulus = 256 ^ k * 256 ^ (compactSize n - 3) := by
      rw [← pow_add, whole]
      congr 1
      omega
    rw [split]
    exact Nat.mul_le_mul_right_iff (by positivity)
  rw [magnitude_eq]
  simp only [compactOverflow, Bool.and_eq_true, Bool.or_eq_true, decide_eq_true_iff]
  obtain small | ⟨large, low⟩ | size | size | size : compactSize n ≤ 3 ∨
      (3 < compactSize n ∧ compactSize n ≤ 32) ∨ compactSize n = 33 ∨ compactSize n = 34 ∨
        35 ≤ compactSize n := by omega
  · rw [if_pos small]
    omega
  · have lt : compactWord n * 256 ^ (compactSize n - 3) < modulus := by
      calc
        _ < 256 ^ 3 * 256 ^ (compactSize n - 3) :=
          mul_lt_mul_of_pos_right (word.trans (by norm_num)) (by positivity)
        _ ≤ 256 ^ 32 := by
          rw [← pow_add]
          exact Nat.pow_le_pow_right (by norm_num) (by omega)
        _ = modulus := whole.symm
    rw [if_neg (by omega)]
    omega
  · rw [if_neg (by omega), leaves (k := 2) (by omega) (by omega), size]
    omega
  · rw [if_neg (by omega), leaves (k := 1) (by omega) (by omega), size]
    omega
  · rw [if_neg (by omega)]
    by_cases none : compactWord n = 0
    · simp [none, modulus]
    have beyond : modulus ≤ compactWord n * 256 ^ (compactSize n - 3) := by
      calc
        modulus = 256 ^ 32 := whole
        _ ≤ 256 ^ (compactSize n - 3) := Nat.pow_le_pow_right (by norm_num) (by omega)
        _ ≤ _ := Nat.le_mul_of_pos_left _ (Nat.pos_of_ne_zero none)
    exact iff_of_true ⟨none, .inl (.inl (by omega))⟩ beyond

theorem compactOverflow_iff_encoded : compactOverflow n = true ↔ 2 ^ 256 ≤ |encoded n| := by
  have absolute : |encoded n| = magnitude n := by
    rw [encoded_eq]
    split <;> simp
  rw [compactOverflow_iff, absolute, modulus]
  exact_mod_cast Iff.rfl

/-- The value stored is the number read unless a flag is raised. -/
theorem setCompact_of_unflagged (pos : compactNegative n = false)
    (fits : compactOverflow n = false) : (setCompact n : Int) = encoded n := by
  rw [Bool.eq_false_iff, ne_eq, compactNegative_iff] at pos
  rw [Bool.eq_false_iff, ne_eq, compactOverflow_iff, not_le] at fits
  rw [setCompact_eq, mod_eq_of_lt fits]
  rw [encoded_eq] at pos ⊢
  cases isSigned : signed n <;>
    simp only [isSigned, if_true, Bool.false_eq_true, if_false] at pos ⊢ <;> omega

end Word

section Canonical

variable {x : Nat} (range : x < modulus)
include range

theorem getCompact_unflagged :
    compactNegative (getCompact false x) = false ∧
    compactOverflow (getCompact false x) = false := by
  have unsigned : signed (getCompact false x) = false := by
    have small := (compactParts_cut range).mantissa
    rw [signed, getCompact_toNat range]
    exact decide_eq_false (by omega)
  have lt : magnitude (getCompact false x) < modulus :=
    (magnitude_getCompact range).trans_le (div_mul_le_self _ _) |>.trans_lt range
  constructor
  · rw [Bool.eq_false_iff, ne_eq, compactNegative_iff, encoded_eq, unsigned]
    simp
  · rw [Bool.eq_false_iff, ne_eq, compactOverflow_iff]
    omega

theorem getCompact_rounded :
    getCompact false (setCompact (getCompact false x)) = getCompact false x := by
  have cut := compactParts_cut range
  have value : setCompact (getCompact false x) =
      x / 256 ^ ((compactParts x).2 - 3) * 256 ^ ((compactParts x).2 - 3) := by
    rw [setCompact_eq, magnitude_getCompact range]
    exact mod_eq_of_lt ((div_mul_le_self _ _).trans_lt range)
  obtain exact_ | ⟨e, isSize⟩ : (compactParts x).2 - 3 = 0 ∨ ∃ e, (compactParts x).2 = e + 4 := by
    by_cases short : (compactParts x).2 ≤ 3
    · exact .inl (by omega)
    · exact .inr ⟨(compactParts x).2 - 4, by omega⟩
  · rw [value, exact_, pow_zero, Nat.div_one, mul_one]
  have lt : setCompact (getCompact false x) ≤ x := roundsDown.le range
  have least : 2 ^ 23 * 256 ^ e ≤ setCompact (getCompact false x) := by
    have grid : 2 ^ 23 * 256 ^ e = 2 ^ 15 * 256 ^ (e + 1) := by ring
    refine roundsDown.le_round range (grid ▸ Floating.mul_pow (by norm_num) _) ?_
    have least := cut.least
    rw [isSize] at least
    exact least.resolve_left (by omega)
  have upper : x < 2 ^ 23 * 256 ^ (e + 1) := by
    have fits := cut.fits
    rw [isSize] at fits
    exact (div_lt_iff_lt_mul (by positivity)).mp fits
  have kept := cut.kept
  rw [isSize] at kept value
  rw [show e + 4 - 3 = e + 1 by omega] at kept value
  generalize setCompact (getCompact false x) = y at value lt least ⊢
  have cut' := compactParts_cut (lt.trans_lt range)
  have same : (compactParts y).2 = e + 4 := by
    obtain short | same | long : (compactParts y).2 - 3 < e + 1 ∨ (compactParts y).2 = e + 4 ∨
        e + 1 ≤ (compactParts y).2 - 3 - 1 := by omega
    · have small := (div_lt_iff_lt_mul (by positivity)).mp cut'.fits
      have : 256 ^ ((compactParts y).2 - 3) ≤ 256 ^ e :=
        Nat.pow_le_pow_right (by norm_num) (Nat.lt_succ_iff.mp short)
      omega
    · exact same
    · have large := cut'.least.resolve_left (by omega)
      have : 256 ^ (e + 1) ≤ 256 ^ ((compactParts y).2 - 3 - 1) :=
        Nat.pow_le_pow_right (by norm_num) long
      omega
  have kept' := cut'.kept
  have quotient : y / 256 ^ (e + 1) = x / 256 ^ (e + 1) := by
    rw [value, Nat.mul_div_cancel _ (by positivity)]
  rw [same, if_neg (by omega), show e + 4 - 3 = e + 1 by omega, quotient, ← kept] at kept'
  have parts : compactParts y = compactParts x := by
    refine Prod.ext (eq_of_mul_eq_mul_right (show 0 < 256 ^ (e + 1) by positivity) kept') ?_
    rw [same, isSize]
  rw [getCompact, getCompact, parts]

end Canonical

section ProofOfWork

variable {n : UInt32}

theorem checkProofOfWork_iff (hash : Uint256) (params : Consensus.Params) :
    Pow.checkProofOfWork hash n params = true ↔
      0 < encoded n ∧ encoded n ≤ params.powLimit.toNat ∧ hash.toNat ≤ encoded n := by
  rw [Pow.checkProofOfWork]
  split
  · rename_i refused
    simp only [Bool.or_eq_true, decide_eq_true_iff] at refused
    refine iff_of_false Bool.false_ne_true ?_
    rintro ⟨pos, limited, -⟩
    have unsigned : compactNegative n = false := by
      rw [Bool.eq_false_iff, ne_eq, compactNegative_iff]
      omega
    have fits : compactOverflow n = false := by
      rw [Bool.eq_false_iff, ne_eq, compactOverflow_iff_encoded, abs_of_pos pos]
      omega
    have value := setCompact_of_unflagged unsigned fits
    simp only [unsigned, fits, Bool.false_eq_true, false_or, or_false] at refused
    omega
  · rename_i taken
    simp only [Bool.or_eq_true, decide_eq_true_iff, not_or, Bool.not_eq_true] at taken
    obtain ⟨⟨⟨unsigned, pos⟩, fits⟩, limited⟩ := taken
    have value := setCompact_of_unflagged unsigned fits
    simp only [Bool.not_eq_true', decide_eq_false_iff_not]
    omega

end ProofOfWork

/-- The compact code is a monotone rounding to the numbers that a word without flags can
    store, its flags say how the number it encodes is out of range, and a proof of work
    is checked against that number. -/
theorem compact_code :
    (∀ x < 2 ^ 256,
      IsGreatest {y | (∃ n, compactNegative n = false ∧ compactOverflow n = false ∧
        setCompact n = y) ∧ y ≤ x} (setCompact (getCompact false x)) ∧
      compactNegative (getCompact false x) = false ∧ compactOverflow (getCompact false x) = false ∧
      getCompact false (setCompact (getCompact false x)) = getCompact false x) ∧
    (∀ x y, x ≤ y → y < 2 ^ 256 →
      setCompact (getCompact false x) ≤ setCompact (getCompact false y)) ∧
    ∀ n : UInt32, (compactNegative n = true ↔ encoded n < 0) ∧
      (compactOverflow n = true ↔ 2 ^ 256 ≤ |encoded n|) ∧
      ∀ hash params, Pow.checkProofOfWork hash n params = true ↔
        0 < encoded n ∧ encoded n ≤ params.powLimit.toNat ∧ hash.toNat ≤ encoded n := by
  refine ⟨fun x range => ?_, fun x y le range => ?_, fun n => ?_⟩
  · obtain ⟨unsigned, fits⟩ := getCompact_unflagged range
    refine ⟨⟨⟨⟨_, unsigned, fits, rfl⟩, roundsDown.le range⟩, ?_⟩, unsigned, fits,
      getCompact_rounded range⟩
    rintro _ ⟨⟨n, -, -, rfl⟩, below⟩
    exact roundsDown.le_round range (setCompact_representable n) below
  · exact roundsDown.mono (le.trans_lt range) range le
  · exact ⟨compactNegative_iff, compactOverflow_iff_encoded, checkProofOfWork_iff⟩

/-- A word of size one whose mantissa is shifted out: the number it encodes is not zero, but
    neither flag is raised and no proof of work is accepted, not even the hash zero. -/
theorem compact_code_fraction :
    (encodedNumber 0x01800001 < 0 ∧ compactNegative 0x01800001 = false) ∧
    (0 < encodedNumber 0x01000001 ∧
      encodedNumber 0x01000001 ≤ (Consensus.mainParams.powLimit.toNat : ℚ) ∧
      ((0 : Uint256).toNat : ℚ) ≤ encodedNumber 0x01000001 ∧
      Pow.checkProofOfWork 0 0x01000001 Consensus.mainParams = false) := by
  have below : encodedNumber 0x01800001 = -1 / 65536 := by
    have parts : signed 0x01800001 = true ∧ mantissa 0x01800001 = 1 ∧
      compactSize 0x01800001 = 1 := by decide
    rw [encodedNumber, parts.1, parts.2.1, parts.2.2]
    norm_num
  have above : encodedNumber 0x01000001 = 1 / 65536 := by
    have parts : signed 0x01000001 = false ∧ mantissa 0x01000001 = 1 ∧
      compactSize 0x01000001 = 1 := by decide
    rw [encodedNumber, parts.1, parts.2.1, parts.2.2]
    norm_num
  have limit : (1 : ℚ) ≤ (Consensus.mainParams.powLimit.toNat : ℚ) := by
    exact_mod_cast (show 1 ≤ Consensus.mainParams.powLimit.toNat by decide)
  rw [below, above]
  refine ⟨⟨by norm_num, by decide⟩, by norm_num, le_trans (by norm_num) limit, ?_, by decide⟩
  change ((0 : ℕ) : ℚ) ≤ _
  norm_num

end HobbyHash.ArithUint256
