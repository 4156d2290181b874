import Mathlib.Data.Nat.Digits.Lemmas

/-! # Numbers in a radix

A number kept as a fixed count of digits, the lowest first, can be multiplied by a
factor and added to in place, visiting only the digits in use and those the carry
reaches.
-/

namespace HobbyHash.Library.Radix

open List Nat

section Value

variable {base : Nat}

/-- The number with the given digits, the highest first. -/
def value (base : Nat) (digits : List Nat) : Nat :=
  digits.foldl (fun v digit => base * v + digit) 0

@[simp] theorem value_nil : value base [] = 0 := rfl

@[simp] theorem value_concat (digits : List Nat) (digit : Nat) :
    value base (digits ++ [digit]) = base * value base digits + digit := by
  simp [value]

theorem value_eq_ofDigits (digits : List Nat) :
    value base digits = ofDigits base digits.reverse := by
  induction digits using reverseRecOn with
  | nil => rfl
  | append_singleton digits digit ih =>
    rw [value_concat, reverse_append, reverse_singleton, singleton_append,
      ofDigits_cons, ih, add_comm]

theorem value_append (front back : List Nat) :
    value base (front ++ back) = value base front * base ^ back.length + value base back := by
  simp only [value_eq_ofDigits, reverse_append, ofDigits_append, length_reverse]
  ring

theorem value_cons (digit : Nat) (digits : List Nat) :
    value base (digit :: digits) = digit * base ^ digits.length + value base digits := by
  rw [← singleton_append, value_append]
  simp [value]

theorem value_lt {digits} (lt : 1 < base) (small : ∀ digit ∈ digits, digit < base) :
    value base digits < base ^ digits.length := by
  rw [value_eq_ofDigits, ← length_reverse]
  exact ofDigits_lt_base_pow_length lt fun digit mem =>
    small digit (mem_reverse.mp mem)

theorem value_injective {digits digits'} (lt : 1 < base) (small : ∀ digit ∈ digits, digit < base)
    (small' : ∀ digit ∈ digits', digit < base) (length : digits.length = digits'.length)
    (eq : value base digits = value base digits') :
    digits = digits' := by
  rw [value_eq_ofDigits, value_eq_ofDigits] at eq
  apply reverse_injective
  apply ofDigits_inj_of_len_eq lt
  case len => simpa using length
  case w1 => simpa using small
  case w2 => simpa using small'
  case h => exact eq

theorem digits_value {digits} (lt : 1 < base) (small : ∀ digit ∈ digits, digit < base)
    (lead : ∀ digit ∈ digits.head?, digit ≠ 0) :
    (Nat.digits base (value base digits)).reverse = digits := by
  rw [value_eq_ofDigits, digits_ofDigits base lt, reverse_reverse]
  · intro digit mem
    exact small digit (mem_reverse.mp mem)
  · intro ne
    rw [getLast_reverse]
    exact lead _ (head?_eq_some_head _)

theorem value_digits (n : Nat) : value base (digits base n).reverse = n := by
  rw [value_eq_ofDigits, reverse_reverse, ofDigits_digits]

end Value

section MulAdd

variable {base mul : Nat}

/-- Multiplies a number and adds the carry to it, visiting digits from the lowest on
    while there is a carry or the digit is in use. Gives the digits, the carry left
    and the place after the last digit visited. -/
def mulAdd (base mul : Nat) (length : Nat) : (carry i : Nat) → List Nat → List Nat × Nat × Nat
  | carry, i, [] => ([], carry, i)
  | carry, i, digit :: rest =>
    if carry ≠ 0 ∨ i < length then
      let carry := carry + mul * digit
      let (rest, left, stop) := mulAdd base mul length (carry / base) (i + 1) rest
      (carry % base :: rest, left, stop)
    else (digit :: rest, carry, i)

theorem digitsAppend_succ (lt : 1 < base) (size n : Nat) :
    digitsAppend base (size + 1) n = n % base :: digitsAppend base size (n / base) := by
  rcases Nat.eq_zero_or_pos n with rfl | pos
  · simp [digitsAppend, replicate_succ]
  · simp [digitsAppend, digits_def' lt pos]

theorem mulAdd_digits (lt : 1 < base) (pos : 0 < mul) {size n carry i length}
    (used : length - i = (Nat.digits base n).length) (room : mul * n + carry < base ^ size) :
    mulAdd base mul length carry i (Nat.digitsAppend base size n) =
      (Nat.digitsAppend base size (mul * n + carry), 0,
        i + (Nat.digits base (mul * n + carry)).length) := by
  induction size generalizing n carry i with
  | zero =>
    rw [pow_zero, Nat.lt_one_iff, Nat.add_eq_zero_iff, Nat.mul_eq_zero] at room
    obtain ⟨none | rfl, rfl⟩ := room
    · omega
    · simp [mulAdd, Nat.digitsAppend]
  | succ size ih =>
    rw [digitsAppend_succ lt, digitsAppend_succ lt, mulAdd]
    have whole := Nat.div_add_mod n base
    have split : mul * n + carry = base * (mul * (n / base)) + (carry + mul * (n % base)) := by
      conv_lhs => rw [← whole]
      ring
    have low : (mul * n + carry) % base = (carry + mul * (n % base)) % base := by
      rw [split, Nat.mul_add_mod]
    have high : (mul * n + carry) / base =
        mul * (n / base) + (carry + mul * (n % base)) / base := by
      rw [split, Nat.mul_add_div (by omega)]
    split
    · rename_i visited
      have ne : 0 < mul * n + carry := by
        rcases visited with carried | inUse
        · omega
        have : 0 < n := by
          by_contra zero
          obtain rfl : n = 0 := by omega
          rw [Nat.digits_zero, length_nil] at used
          omega
        have := Nat.mul_pos pos this
        omega
      have usedRest : length - (i + 1) = (Nat.digits base (n / base)).length := by
        rcases Nat.eq_zero_or_pos n with rfl | inUse
        · simp only [Nat.digits_zero, length_nil, Nat.zero_div] at used ⊢
          omega
        · rw [Nat.digits_def' lt inUse, length_cons] at used
          omega
      have roomRest : mul * (n / base) + (carry + mul * (n % base)) / base < base ^ size := by
        rw [← high]
        exact Nat.div_lt_of_lt_mul (by rwa [pow_succ'] at room)
      simp only [ih usedRest roomRest, low, high, Nat.digits_def' lt ne, length_cons]
      rw [Nat.add_assoc, Nat.add_comm 1]
    · rename_i stopped
      obtain ⟨none, unused⟩ : carry = 0 ∧ ¬ i < length := by
        simpa [not_or] using stopped
      have zero : n = 0 := by
        rw [← @Nat.digits_eq_nil_iff_eq_zero base n, ← length_eq_zero_iff]
        omega
      simp [zero, none]

end MulAdd

end HobbyHash.Library.Radix
