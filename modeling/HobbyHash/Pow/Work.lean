import HobbyHash.Pow.CompactCode

/-! # The work of blocks and chains

`GetBlockProof` wants `2 ^ 256 / (target + 1)`, whose dividend does not fit in 256 bits. It
divides the complement of the target instead and adds one. The division is the loop of
`operator/=`, which shifts the divisor up to the dividend and subtracts it on its way back.
-/

namespace HobbyHash

open Machine ArithUint256 Nat

namespace ArithUint256

/-- The loop of `operator/=`. The divisor is shifted by one less than the passes left. -/
def divideFrom : Nat → (num div quotient : Nat) → Nat
  | 0, _, _, quotient => quotient
  | shift + 1, num, div, quotient =>
    if num ≥ div then divideFrom shift (num - div) (div >>> 1) (quotient ||| 1 <<< shift)
    else divideFrom shift num (div >>> 1) quotient

def divide (num div : Nat) : Except Fault Nat :=
  if bits div = 0 then .error .divisionByZero
  else if bits div > bits num then .ok 0
  else
    let shift := bits num - bits div
    .ok (divideFrom (shift + 1) num (div <<< shift % modulus) 0)

/-- What is left of the dividend is below the next multiple of the divisor, and the
    quotient so far ends in as many zeros as there are passes left. -/
theorem divideFrom_eq {d} (pos : 0 < d) {passes num quotient} (left : num < d * 2 ^ passes) :
    divideFrom passes num (d * 2 ^ passes / 2) (quotient * 2 ^ passes) =
      quotient * 2 ^ passes + num / d := by
  induction passes generalizing num quotient with
  | zero => simp [divideFrom, div_eq_of_lt (by simpa using left)]
  | succ shift ih =>
    have double : d * 2 ^ (shift + 1) = d * 2 ^ shift * 2 := by ring
    have even : quotient * 2 ^ (shift + 1) = 2 * quotient * 2 ^ shift := by ring
    rw [divideFrom, double, Nat.mul_div_cancel _ (by norm_num), Nat.shiftRight_one]
    split
    · have bit : quotient * 2 ^ (shift + 1) ||| 1 <<< shift = (2 * quotient + 1) * 2 ^ shift := by
        rw [one_shiftLeft, ← Nat.shiftLeft_eq, ← shiftLeft_add_eq_or_of_lt
          (Nat.pow_lt_pow_right (by norm_num) (Nat.lt_succ_self shift)), Nat.shiftLeft_eq,
          succ_eq_add_one]
        ring
      have le : 2 ^ shift ≤ num / d := (le_div_iff_mul_le pos).mpr (by linarith)
      rw [bit, ih (by omega), sub_mul_div, even]
      have : (2 * quotient + 1) * 2 ^ shift = 2 * quotient * 2 ^ shift + 2 ^ shift := by ring
      omega
    · rename_i lt
      rw [even, ih (not_le.mp lt)]

theorem two_pow_bits_le (pos : bits a ≠ 0) : 2 ^ (bits a - 1) ≤ a := by
  by_contra small
  have := bits_le.mpr (not_le.mp small)
  omega

theorem divide_eq (range : num < modulus) (pos : 0 < div) :
    divide num div = .ok (num / div) := by
  have ne : bits div ≠ 0 := by
    intro none
    have := bits_le.mp none.le
    omega
  have low := two_pow_bits_le ne
  have numBits : num < 2 ^ bits num := bits_le.mp le_rfl
  have lt : div < 2 ^ bits div := bits_le.mp le_rfl
  have le : bits num ≤ 256 := bits_le.mpr range
  rw [divide, if_neg ne]
  split
  · have : 2 ^ bits num ≤ 2 ^ (bits div - 1) := Nat.pow_le_pow_right (by norm_num) (by omega)
    rw [Nat.div_eq_of_lt (by omega)]
  rename_i longer
  obtain ⟨shift, isShift⟩ := Nat.exists_eq_add_of_le (not_lt.mp longer)
  simp only [isShift, Nat.add_sub_cancel_left]
  have aligned : div <<< shift % modulus = div * 2 ^ (shift + 1) / 2 := by
    have fits : div * 2 ^ shift < modulus := by
      calc
        div * 2 ^ shift < 2 ^ bits div * 2 ^ shift :=
          Nat.mul_lt_mul_of_pos_right lt (by positivity)
        _ = 2 ^ bits num := by rw [← pow_add, isShift]
        _ ≤ modulus := Nat.pow_le_pow_right (by norm_num) le
    rw [Nat.shiftLeft_eq, Nat.mod_eq_of_lt fits, pow_succ, ← mul_assoc,
      Nat.mul_div_cancel _ (by norm_num)]
  have left : num < div * 2 ^ (shift + 1) := by
    calc
      num < 2 ^ (bits div - 1) * 2 ^ (shift + 1) := by
        rw [← pow_add, show bits div - 1 + (shift + 1) = bits num by omega]
        exact numBits
      _ ≤ div * 2 ^ (shift + 1) := Nat.mul_le_mul_right _ low
  have run := @divideFrom_eq _ pos _ _ 0 left
  rw [zero_mul, zero_add] at run
  rw [aligned, run]

/-- The largest number is no target: a compact word has 23 significant bits. -/
theorem setCompact_succ_lt (n : UInt32) : setCompact n + 1 < modulus := by
  have lt : setCompact n < modulus := by
    rw [setCompact_eq]
    exact mod_lt _ (by norm_num [modulus])
  obtain ⟨m, e, small, value⟩ := setCompact_representable n
  rcases Nat.eq_zero_or_pos e with rfl | shifted
  · rw [value, pow_zero, mul_one]
    exact (succ_le_of_lt small).trans_lt (by norm_num [modulus])
  · have even : 2 ∣ setCompact n :=
      value ▸ ((by norm_num : 2 ∣ 256).trans (dvd_pow_self 256 shifted.ne')).mul_left m
    have : modulus = 2 * 2 ^ 255 := by norm_num [modulus]
    omega

end ArithUint256

namespace CBlockIndex

/-- `GetBlockProof`, with the division of the source. -/
def getBlockProofDivided (nBits : UInt32) : Except Fault Nat := do
  let bnTarget := setCompact nBits
  if compactNegative nBits || compactOverflow nBits || bnTarget = 0 then return 0
  let quotient ← divide (modulus - 1 - bnTarget) ((bnTarget + 1) % modulus)
  return (quotient + 1) % modulus

def HasTarget (nBits : UInt32) : Prop :=
  compactNegative nBits = false ∧ compactOverflow nBits = false ∧ 0 < setCompact nBits

instance (nBits : UInt32) : Decidable (HasTarget nBits) :=
  inferInstanceAs (Decidable (_ ∧ _))

/-- The work of a chain as a number of any size. -/
def exactWork : CBlockIndex → Nat
  | .genesis f => getBlockProof f.nBits
  | .child p f => p.exactWork + getBlockProof f.nBits

variable {nBits : UInt32}

theorem getBlockProof_of_target (target : HasTarget nBits) :
    getBlockProof nBits = 2 ^ 256 / (setCompact nBits + 1) := by
  obtain ⟨unsigned, fits, pos⟩ := target
  have small := setCompact_succ_lt nBits
  have dividend : 2 ^ 256 = modulus - 1 - setCompact nBits + (setCompact nBits + 1) := by
    rw [show 2 ^ 256 = modulus from rfl]
    omega
  have lt : 2 ^ 256 / (setCompact nBits + 1) < modulus :=
    div_lt_self (by norm_num) (by omega)
  simp only [getBlockProof, unsigned, fits, Bool.or_false, Bool.false_or, decide_eq_true_iff,
    if_neg pos.ne', mod_eq_of_lt small]
  rw [dividend, add_div_right _ (succ_pos _)] at lt ⊢
  exact mod_eq_of_lt lt

theorem getBlockProof_of_none (none : ¬ HasTarget nBits) : getBlockProof nBits = 0 := by
  rw [getBlockProof, if_pos]
  rw [HasTarget] at none
  cases unsigned : compactNegative nBits <;> cases fits : compactOverflow nBits <;> simp_all

theorem getBlockProofDivided_eq (nBits : UInt32) :
    getBlockProofDivided nBits = .ok (getBlockProof nBits) := by
  have small := setCompact_succ_lt nBits
  rw [getBlockProofDivided, getBlockProof]
  split
  · rfl
  · rw [divide_eq (by omega) (by rw [mod_eq_of_lt small]; omega)]
    rfl

theorem getBlockProof_pos (target : HasTarget nBits) : 1 ≤ getBlockProof nBits := by
  rw [getBlockProof_of_target target]
  exact (one_le_div_iff (succ_pos _)).mpr (setCompact_succ_lt nBits).le

theorem hasTarget_of_checkProofOfWork {hash params}
    (checked : Pow.checkProofOfWork hash nBits params = true) : HasTarget nBits := by
  rw [Pow.checkProofOfWork] at checked
  split at checked
  · cases checked
  · rename_i taken
    simp only [Bool.or_eq_true, decide_eq_true_iff, not_or, Bool.not_eq_true] at taken
    exact ⟨taken.1.1.1, taken.1.2, pos_of_ne_zero taken.1.1.2⟩

theorem nChainWork_eq_exactWork {b : CBlockIndex} (lt : b.exactWork < 2 ^ 256) :
    b.nChainWork = b.exactWork := by
  induction b with
  | genesis f => rfl
  | child p f ih =>
    rw [exactWork] at lt
    rw [nChainWork, ih (by omega), exactWork]
    exact mod_eq_of_lt lt

theorem exactWork_le {a b} (h : Ancestor a b) : a.exactWork ≤ b.exactWork := by
  induction h with
  | refl => exact le_rfl
  | step _ ih => exact ih.trans (le_add_right _ _)

/-- The work of a block is the exact quotient, and along a chain of blocks with a proof of
    work the sum grows with every block until it leaves the 256 bits. -/
theorem block_work :
    (∀ n, HasTarget n → getBlockProofDivided n = .ok (2 ^ 256 / (setCompact n + 1)) ∧
      1 ≤ 2 ^ 256 / (setCompact n + 1)) ∧
    (∀ n, ¬ HasTarget n → getBlockProofDivided n = .ok 0) ∧
    (∀ n, getBlockProofDivided n = .ok (getBlockProof n)) ∧
    (∀ n n', HasTarget n → HasTarget n' → setCompact n ≤ setCompact n' →
      getBlockProof n' ≤ getBlockProof n) ∧
    ∀ (hash : CBlockHeader → Uint256) (params : Consensus.Params) (b : CBlockIndex),
      (∀ x, Ancestor x b → Pow.checkProofOfWork (x.getBlockHash hash) x.nBits params = true) →
      b.exactWork < 2 ^ 256 → ∀ a, Ancestor a b → a ≠ b → a.nChainWork < b.nChainWork := by
  refine ⟨fun n target => ?_, fun n none => ?_, getBlockProofDivided_eq,
    fun n n' target target' le => ?_,
    fun hash params b checked fits a below ne => ?_⟩
  · rw [getBlockProofDivided_eq, ← getBlockProof_of_target target]
    exact ⟨rfl, getBlockProof_pos target⟩
  · rw [getBlockProofDivided_eq, getBlockProof_of_none none]
  · rw [getBlockProof_of_target target, getBlockProof_of_target target']
    exact div_le_div_left (succ_le_succ le) (succ_pos _)
  rw [nChainWork_eq_exactWork fits,
    nChainWork_eq_exactWork ((exactWork_le below).trans_lt fits)]
  cases below with
  | refl => exact absurd rfl ne
  | @step p f below =>
    have work := getBlockProof_pos (hasTarget_of_checkProofOfWork (checked _ .refl))
    exact (exactWork_le below).trans_lt (Nat.lt_add_of_pos_right work)

end CBlockIndex

end HobbyHash
