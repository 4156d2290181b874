import HobbyHash.Library.Rounding
import Mathlib.Data.Nat.Bitwise
import Mathlib.Tactic.IntervalCases

/-! # 256-bit targets and their compact encoding

`arith_uint256` values are natural numbers below `2 ^ 256`; every operation that
can leave that range reduces its result explicitly. The compact form `nBits` is
kept as the 32-bit word of the source, with its sign bit and with sizes that
shift the mantissa out of range, because callers read such words from headers.
-/

namespace HobbyHash.ArithUint256

open Library.Rounding Nat

variable (n : UInt32) {a : Nat}

/-- One more than the largest `arith_uint256`. -/
def modulus : Nat := 2 ^ 256

/-- `operator*=(uint32_t)`. The factor is a 64-bit signed count of seconds at
    every call in `pow.cpp` and is narrowed to the operator's 32 bits. -/
def mulUInt32 (a : Nat) (b : Int) : Nat :=
  a * (b % 2 ^ 32).toNat % modulus

def getLow64 (a : Nat) : Nat :=
  a % 2 ^ 64

/-- `bits`: the position of the highest set bit plus one, or zero. -/
def bits (a : Nat) : Nat :=
  if a = 0 then 0 else a.log2 + 1

variable (nCompact : UInt32)

/-- `nSize` of a compact word. -/
def compactSize : Nat :=
  nCompact.toNat >>> 24

/-- `nWord` of a compact word, already shifted down when the size is below three. -/
def compactWord : Nat :=
  let nWord := nCompact.toNat &&& 0x007fffff
  if compactSize nCompact ≤ 3 then nWord >>> (8 * (3 - compactSize nCompact)) else nWord

/-- The value `SetCompact` stores. -/
def setCompact : Nat :=
  if compactSize nCompact ≤ 3 then compactWord nCompact
  else compactWord nCompact <<< (8 * (compactSize nCompact - 3)) % modulus

/-- `*pfNegative` after `SetCompact`. -/
def compactNegative : Bool :=
  compactWord nCompact ≠ 0 && nCompact.toNat &&& 0x00800000 ≠ 0

/-- `*pfOverflow` after `SetCompact`. -/
def compactOverflow : Bool :=
  compactWord nCompact ≠ 0 &&
    (compactSize nCompact > 34 ||
      (compactWord nCompact > 0xff && compactSize nCompact > 33) ||
      (compactWord nCompact > 0xffff && compactSize nCompact > 32))

/-- Mantissa and size of `GetCompact` once a mantissa that would read as a sign
    has been shifted down by one byte. -/
def compactParts (a : Nat) : Nat × Nat :=
  let nSize := (bits a + 7) / 8
  let nCompact :=
    if nSize ≤ 3 then getLow64 a <<< (8 * (3 - nSize)) % 2 ^ 32
    else getLow64 (a >>> (8 * (nSize - 3))) % 2 ^ 32
  if nCompact &&& 0x00800000 ≠ 0 then (nCompact >>> 8, nSize + 1) else (nCompact, nSize)

def getCompact (fNegative : Bool) (a : Nat) : UInt32 :=
  let nCompact := (compactParts a).1 ||| ((compactParts a).2 <<< 24)
  .ofNat (nCompact ||| if fNegative && nCompact &&& 0x007fffff ≠ 0 then 0x00800000 else 0)

/-- The mantissa, the lower 23 bits of a compact word. -/
def mantissa : Nat := nCompact.toNat % 2 ^ 23

/-- The number that a compact word encodes, without its sign and its fraction. -/
def magnitude : Nat :=
  mantissa nCompact * 256 ^ compactSize nCompact / 256 ^ 3

/-- What a 32-bit compact word can stand for: three mantissa bytes without the
    sign bit, shifted by whole bytes. -/
def Representable : Set Nat :=
  Floating 256 (2 ^ 23)

theorem bits_le {n : Nat} : bits a ≤ n ↔ a < 2 ^ n := by
  by_cases zero : a = 0
  · simp [bits, zero]
  · simp only [bits, if_neg zero, succ_le_iff]
    exact log2_lt zero

private theorem pow_bytes (k : Nat) : 2 ^ (8 * k) = 256 ^ k := by
  rw [pow_mul]
  norm_num

theorem byteSize_le {n : Nat} : (bits a + 7) / 8 ≤ n ↔ a < 256 ^ n := by
  rw [← pow_bytes, ← bits_le]
  omega

theorem masked_word : n.toNat &&& 0x007fffff = n.toNat % 2 ^ 23 :=
  and_two_pow_sub_one_eq_mod n.toNat 23

theorem sign_bit (m : Nat) : m &&& 0x00800000 ≠ 0 ↔ m / 2 ^ 23 % 2 = 1 := by
  rw [show (0x00800000 : Nat) = 2 ^ 23 from rfl, and_two_pow, testBit_eq_decide_div_mod_eq]
  by_cases odd : m / 2 ^ 23 % 2 = 1 <;> simp

private theorem sign_clear (lt : m < 2 ^ 24) : m &&& 0x00800000 ≠ 0 ↔ 2 ^ 23 ≤ m := by
  rw [sign_bit]
  omega

theorem compactWord_lt : compactWord n < 2 ^ 23 := by
  have lt : n.toNat &&& 0x007fffff < 2 ^ 23 := by
    rw [masked_word]
    exact mod_lt _ (by norm_num)
  simp only [compactWord]
  split
  · exact lt_of_le_of_lt (shiftRight_le _ _) lt
  · exact lt

theorem compactWord_eq : compactWord n =
    if compactSize n ≤ 3 then mantissa n / 256 ^ (3 - compactSize n) else mantissa n := by
  rw [compactWord, masked_word, shiftRight_eq_div_pow, pow_bytes, mantissa]

theorem magnitude_eq : magnitude n =
    if compactSize n ≤ 3 then compactWord n else compactWord n * 256 ^ (compactSize n - 3) := by
  rw [magnitude, compactWord_eq]
  split
  · rename_i small
    conv_lhs => rw [← Nat.sub_add_cancel small, pow_add]
    exact Nat.mul_div_mul_right _ _ (by positivity)
  · rename_i large
    conv_lhs => rw [← Nat.sub_add_cancel (Nat.le_of_not_le large), pow_add, ← mul_assoc]
    exact Nat.mul_div_cancel _ (by positivity)

theorem setCompact_eq : setCompact n = magnitude n % modulus := by
  have word := compactWord_lt n
  rw [setCompact, magnitude_eq, shiftLeft_eq, pow_bytes]
  split
  · exact (mod_eq_of_lt (word.trans (by norm_num [modulus]))).symm
  · rfl

/-- Whatever word arrives, its value is on the compact grid: bits shifted out of
    the 256 only shorten the mantissa. -/
theorem setCompact_representable : setCompact n ∈ Representable := by
  have word := compactWord_lt n
  simp only [setCompact]
  split
  · exact Floating.of_lt word
  generalize compactSize n - 3 = k at *
  rw [shiftLeft_eq, pow_bytes]
  by_cases lt : k ≤ 32
  · obtain ⟨d, total⟩ := Nat.exists_eq_add_of_le lt
    have split : modulus = 256 ^ d * 256 ^ k := by
      rw [← pow_add, add_comm d k, ← total]
      norm_num [modulus]
    rw [split, mul_mod_mul_right]
    exact Floating.mul_pow (lt_of_le_of_lt (mod_le _ _) word) k
  have gone : modulus ∣ compactWord n * 256 ^ k := by
    have shift : modulus = 256 ^ 32 := by norm_num [modulus]
    rw [shift]
    exact Dvd.dvd.mul_left (pow_dvd_pow 256 (by omega)) _
  rw [mod_eq_zero_of_dvd gone]
  exact Floating.of_lt (by norm_num)

theorem pack_toNat (lt : m < 2 ^ 23) (size : s < 256) :
    (UInt32.ofNat (m ||| s <<< 24)).toNat = s * 2 ^ 24 + m := by
  have join : m ||| s <<< 24 = s * 2 ^ 24 + m := by
    rw [lor_comm, ← shiftLeft_add_eq_or_of_lt (by omega), shiftLeft_eq]
  rw [join, UInt32.toNat_ofNat']
  omega

theorem magnitude_of_toNat {n : UInt32} (packed : n.toNat = s * 2 ^ 24 + m) (lt : m < 2 ^ 23) :
    magnitude n = if s ≤ 3 then m / 256 ^ (3 - s) else m * 256 ^ (s - 3) := by
  have sizeOf : compactSize n = s := by
    rw [compactSize, packed, shiftRight_eq_div_pow]
    omega
  have wordOf : mantissa n = m := by
    rw [mantissa, packed]
    omega
  rw [magnitude_eq, compactWord_eq, sizeOf, wordOf]
  split <;> rfl

/-- How `GetCompact` cuts a target: what it keeps and how far it was shifted. -/
structure CompactCut (a m s : Nat) : Prop where
  mantissa : m < 2 ^ 23
  size : s < 256
  kept : (if s ≤ 3 then m / 256 ^ (3 - s) else m * 256 ^ (s - 3)) =
    a / 256 ^ (s - 3) * 256 ^ (s - 3)
  fits : a / 256 ^ (s - 3) < 2 ^ 23
  least : s - 3 = 0 ∨ 2 ^ 23 * 256 ^ (s - 3 - 1) ≤ a

private theorem cut_long (large : 3 < s) (size : s ≤ 32) (lt : a < 256 ^ s)
    (le : 256 ^ (s - 1) ≤ a) :
    CompactCut a
      (if 2 ^ 23 ≤ a / 256 ^ (s - 3) then (a / 256 ^ (s - 3)) / 256 else a / 256 ^ (s - 3))
      (if 2 ^ 23 ≤ a / 256 ^ (s - 3) then s + 1 else s) := by
  obtain ⟨k, rfl⟩ : ∃ k, s = k + 4 := ⟨s - 4, by omega⟩
  simp only [show k + 4 - 3 = k + 1 by omega, show k + 4 - 1 = k + 3 by omega]
    at le ⊢
  have pos : 0 < 256 ^ (k + 1) := by positivity
  have threeBytes : a / 256 ^ (k + 1) < 2 ^ 24 := by
    rw [div_lt_iff_lt_mul pos]
    calc
      a < 256 ^ (k + 4) := lt
      _ = 2 ^ 24 * 256 ^ (k + 1) := by ring
  by_cases high : 2 ^ 23 ≤ a / 256 ^ (k + 1)
  · have shifted : a / 256 ^ (k + 1) / 256 = a / 256 ^ (k + 2) := by
      rw [Nat.div_div_eq_div_mul, ← pow_succ]
    simp only [if_pos high, shifted]
    refine ⟨by omega, by omega, ?_, ?_, .inr ?_⟩
    · rfl
    · rw [show k + 4 + 1 - 3 = k + 2 by omega]
      omega
    · exact (le_div_iff_mul_le pos).mp high
  simp only [if_neg high]
  refine ⟨by omega, by omega, ?_, by rw [show k + 4 - 3 = k + 1 by omega]; omega, .inr ?_⟩
  · rfl
  · calc
      2 ^ 23 * 256 ^ k ≤ 2 ^ 24 * 256 ^ k := mul_le_mul_right _ (by norm_num)
      _ = 256 ^ (k + 3) := by ring
      _ ≤ a := le

private theorem compactParts_of_word (atSize : (bits a + 7) / 8 = s)
    (isWord : (if s ≤ 3 then getLow64 a <<< (8 * (3 - s)) % 2 ^ 32
      else getLow64 (a >>> (8 * (s - 3))) % 2 ^ 32) = w) (lt : w < 2 ^ 24) :
    compactParts a =
      (if 2 ^ 23 ≤ w then w / 256 else w, if 2 ^ 23 ≤ w then s + 1 else s) := by
  simp only [compactParts, atSize, isWord, sign_clear lt]
  split
  · rw [shiftRight_eq_div_pow]
  · rfl

/-- The parts `GetCompact` computes are that cut; in particular the mantissa
    never reaches the sign bit and the size never leaves its byte, as the two
    assertions of the source demand. -/
theorem compactParts_cut (range : a < modulus) :
    CompactCut a (compactParts a).1 (compactParts a).2 := by
  generalize atSize : (bits a + 7) / 8 = s
  have lt : a < 256 ^ s := byteSize_le.mp atSize.le
  have size : s ≤ 32 := by
    rw [← atSize, byteSize_le]
    exact range.trans_eq (by norm_num [modulus])
  by_cases small : s ≤ 3
  · have word : a * 256 ^ (3 - s) < 2 ^ 24 := by
      calc
        a * 256 ^ (3 - s) < 256 ^ s * 256 ^ (3 - s) := mul_lt_mul_of_pos_right lt (by positivity)
        _ = 2 ^ 24 := by rw [← pow_add, Nat.add_sub_cancel' small]; norm_num
    have exact64 : getLow64 a = a := by
      refine mod_eq_of_lt (lt_of_le_of_lt ?_ (word.trans (by norm_num)))
      exact Nat.le_mul_of_pos_right a (by positivity)
    have mantissa : getLow64 a <<< (8 * (3 - s)) % 2 ^ 32 = a * 256 ^ (3 - s) := by
      rw [exact64, shiftLeft_eq, pow_mul, mod_eq_of_lt (by norm_num; omega)]
      norm_num
    rw [compactParts_of_word atSize (by rw [if_pos small, mantissa]) word]
    interval_cases s <;> simp only [reducePow, reduceSub] at lt ⊢ <;>
      split <;> constructor <;> simp <;> omega
  · have le : 256 ^ (s - 1) ≤ a := by
      by_contra short
      have := byteSize_le.mpr (Nat.lt_of_not_le short)
      omega
    have word : a / 256 ^ (s - 3) < 2 ^ 24 := by
      rw [div_lt_iff_lt_mul (by positivity)]
      calc
        a < 256 ^ (3 + (s - 3)) := by rwa [Nat.add_sub_cancel' (by omega)]
        _ = 2 ^ 24 * 256 ^ (s - 3) := by rw [pow_add]; norm_num
    have mantissa : getLow64 (a >>> (8 * (s - 3))) % 2 ^ 32 = a / 256 ^ (s - 3) := by
      rw [getLow64, shiftRight_eq_div_pow, pow_mul]
      norm_num
      omega
    rw [compactParts_of_word atSize (by rw [if_neg small, mantissa]) word]
    exact cut_long (by omega) size lt le

theorem getCompact_toNat (lt : a < modulus) :
    (getCompact false a).toNat = (compactParts a).2 * 2 ^ 24 + (compactParts a).1 := by
  have cut := compactParts_cut lt
  simp only [getCompact, Bool.false_and, if_false, Bool.false_eq_true, or_zero]
  exact pack_toNat cut.mantissa cut.size

theorem magnitude_getCompact (lt : a < modulus) : magnitude (getCompact false a) =
    a / 256 ^ ((compactParts a).2 - 3) * 256 ^ ((compactParts a).2 - 3) := by
  have cut := compactParts_cut lt
  rw [magnitude_of_toNat (getCompact_toNat lt) cut.mantissa, cut.kept]

/-- Encoding and decoding a target returns the greatest compact value below it. -/
theorem roundsDown :
    RoundsDown Representable {a | a < modulus} (fun a => setCompact (getCompact false a)) := by
  intro a range
  have cut := compactParts_cut range
  have decoded : setCompact (getCompact false a) =
      a / 256 ^ ((compactParts a).2 - 3) * 256 ^ ((compactParts a).2 - 3) := by
    rw [setCompact_eq, magnitude_getCompact range]
    exact mod_eq_of_lt (lt_of_le_of_lt (div_mul_le_self _ _) range)
  simp only [decoded]
  exact Floating.truncate (by norm_num) (by norm_num) cut.fits cut.least

end HobbyHash.ArithUint256
