import HobbyHash.Serialize
import HobbyHash.StrEncodings
import Mathlib.Data.List.TakeWhile

/-! # Base58

`EncodeBase58` and `DecodeBase58` of `base58.cpp` convert between bytes and the digits
of an alphabet of 58 characters, both by the same loop: the number read so far is
multiplied in place and the next digit is added, in a vector whose size is estimated
from the length of the input. Leading zero bytes are kept as leading ones. The
vectors are held here from their last element on, as the loops walk them.
-/

namespace HobbyHash.Base58

open Machine StrEncodings Library.Radix List UInt8 Nat

variable {input : List UInt8} {max_ret_len : Int}

abbrev Bytes (n : Nat) := {data : List UInt8 // data.length = n}

def pszBase58 : List UInt8 :=
  str ['1', '2', '3', '4', '5', '6', '7', '8', '9', 'A', 'B', 'C', 'D', 'E',
    'F', 'G', 'H', 'J', 'K', 'L', 'M', 'N', 'P', 'Q', 'R', 'S', 'T', 'U',
    'V', 'W', 'X', 'Y', 'Z', 'a', 'b', 'c', 'd', 'e', 'f', 'g', 'h', 'i',
    'j', 'k', 'm', 'n', 'o', 'p', 'q', 'r', 's', 't', 'u', 'v', 'w', 'x',
    'y', 'z']

def mapBase58 : List Int :=
  [-1, -1, -1, -1, -1, -1, -1, -1, -1, -1, -1, -1, -1, -1, -1, -1,
   -1, -1, -1, -1, -1, -1, -1, -1, -1, -1, -1, -1, -1, -1, -1, -1,
   -1, -1, -1, -1, -1, -1, -1, -1, -1, -1, -1, -1, -1, -1, -1, -1,
   -1, 0, 1, 2, 3, 4, 5, 6, 7, 8, -1, -1, -1, -1, -1, -1,
   -1, 9, 10, 11, 12, 13, 14, 15, 16, -1, 17, 18, 19, 20, 21, -1,
   22, 23, 24, 25, 26, 27, 28, 29, 30, 31, 32, -1, -1, -1, -1, -1,
   -1, 33, 34, 35, 36, 37, 38, 39, 40, 41, 42, 43, -1, 44, 45, 46,
   47, 48, 49, 50, 51, 52, 53, 54, 55, 56, 57, -1, -1, -1, -1, -1,
   -1, -1, -1, -1, -1, -1, -1, -1, -1, -1, -1, -1, -1, -1, -1, -1,
   -1, -1, -1, -1, -1, -1, -1, -1, -1, -1, -1, -1, -1, -1, -1, -1,
   -1, -1, -1, -1, -1, -1, -1, -1, -1, -1, -1, -1, -1, -1, -1, -1,
   -1, -1, -1, -1, -1, -1, -1, -1, -1, -1, -1, -1, -1, -1, -1, -1,
   -1, -1, -1, -1, -1, -1, -1, -1, -1, -1, -1, -1, -1, -1, -1, -1,
   -1, -1, -1, -1, -1, -1, -1, -1, -1, -1, -1, -1, -1, -1, -1, -1,
   -1, -1, -1, -1, -1, -1, -1, -1, -1, -1, -1, -1, -1, -1, -1, -1,
   -1, -1, -1, -1, -1, -1, -1, -1, -1, -1, -1, -1, -1, -1, -1, -1]

/-- The size of a vector after a conversion to `int`; a negative one is refused. -/
def intSize (n : Nat) : Except Fault Nat :=
  if n % 2 ^ 32 < 2 ^ 31 then .ok (n % 2 ^ 32) else .error (.exception "std::length_error")

/-- The loop of `EncodeBase58` over the bytes. -/
def encodeLoop (b58 : List Nat) (length : Nat) : List UInt8 → Except Fault (List Nat × Nat)
  | [] => .ok (b58, length)
  | byte :: input => do
    let (b58, carry, i) := mulAdd 58 256 length byte.toNat 0 b58
    assert (carry == 0) "carry == 0"
    encodeLoop b58 i input

def encodeBase58 (input : List UInt8) : Except Fault (List UInt8) := do
  let zeroes := (input.takeWhile (· = 0)).length
  let input := input.dropWhile (· = 0)
  let size ← intSize (input.length * 138 / 100 + 1)
  let (b58, length) ← encodeLoop (replicate size 0) 0 input
  let digits := (b58.reverse.drop (size - length)).dropWhile (· = 0)
  return replicate zeroes (ch '1') ++ digits.map fun digit => pszBase58.getD digit 0

/-- The loop of `DecodeBase58` over the characters up to a space. -/
def decodeLoop (max_ret_len : Int) (zeroes : Nat) (b256 : List Nat) (length : Nat) :
    List UInt8 → Except Fault (Option (List Nat × Nat × List UInt8))
  | [] => .ok (some (b256, length, []))
  | c :: psz =>
    if isSpace c then .ok (some (b256, length, c :: psz))
    else
      let carry := mapBase58.getD c.toNat (-1)
      if carry = -1 then .ok none
      else do
        let (b256, carry, i) := mulAdd 256 58 length carry.toNat 0 b256
        assert (carry == 0) "carry == 0"
        if i + zeroes > max_ret_len then return none
        else decodeLoop max_ret_len zeroes b256 i psz

def decodeBase58 (s : List UInt8) (max_ret_len : Int) : Except Fault (Option (List UInt8)) :=
  if !containsNoNUL s then .ok none
  else
    let psz := s.dropWhile isSpace
    let zeroes := (psz.takeWhile (· = ch '1')).length
    let psz := psz.dropWhile (· = ch '1')
    -- the limit is compared when a one has been read
    if zeroes ≠ 0 ∧ zeroes > max_ret_len then .ok none
    else do
      let size ← intSize (psz.length * 733 / 1000 + 1)
      match ← decodeLoop max_ret_len zeroes (replicate size 0) 0 psz with
      | none => return none
      | some (b256, length, psz) =>
        if psz.dropWhile isSpace ≠ [] then return none
        else
          return some (replicate zeroes 0 ++
            (b256.reverse.drop (size - length)).map ofNat)

section Check

variable (hash : List UInt8 → Bytes 32)

def encodeBase58Check (input : List UInt8) : Except Fault (List UInt8) :=
  encodeBase58 (input ++ (hash input).1.take 4)

def decodeBase58Check (s : List UInt8) (max_ret_len : Int) :
    Except Fault (Option (List UInt8)) := do
  if !containsNoNUL s then return none
  let max : Int := if max_ret_len > Serialize.intMax - 4 then Serialize.intMax else max_ret_len + 4
  match ← decodeBase58 s max with
  | none => return none
  | some vch =>
    if vch.length < 4 then return none
    else
      let data := vch.take (vch.length - 4)
      if (hash data).1.take 4 ≠ vch.drop (vch.length - 4) then return none
      else return some data

end Check

theorem pow_lt_pow_of_ratio (lt : 1 < c) (pos : 0 < q) (le : b ^ q ≤ c ^ p) :
    b ^ n < c ^ (n * p / q + 1) := by
  refine lt_of_pow_lt_pow_left₀ q (zero_le _) ?_
  calc
    (b ^ n) ^ q = (b ^ q) ^ n := by rw [← pow_mul, ← pow_mul, Nat.mul_comm]
    _ ≤ (c ^ p) ^ n := Nat.pow_le_pow_left le n
    _ = c ^ (n * p) := by rw [← pow_mul, Nat.mul_comm]
    _ < c ^ ((n * p / q + 1) * q) := by
        apply Nat.pow_lt_pow_right lt
        have split := Nat.div_add_mod (n * p) q
        have rest := mod_lt (n * p) pos
        rw [Nat.add_mul, Nat.one_mul, Nat.mul_comm (n * p / q)]
        omega
    _ = (c ^ (n * p / q + 1)) ^ q := by rw [← pow_mul]

theorem encode_size (n : Nat) : 256 ^ n < 58 ^ (n * 138 / 100 + 1) :=
  pow_lt_pow_of_ratio (by decide) (by decide) (by decide +kernel)

theorem decode_size (n : Nat) : 58 ^ n < 256 ^ (n * 733 / 1000 + 1) :=
  pow_lt_pow_of_ratio (by decide) (by decide) (by decide +kernel)

theorem intSize_ok {n} (lt : n < 2 ^ 31) : intSize n = .ok n := by
  rw [intSize, mod_eq_of_lt (by omega), if_pos lt]

def spell (digits : List Nat) : List UInt8 := digits.map fun digit => pszBase58.getD digit 0

theorem mapBase58_pszBase58 :
    ∀ digit < 58, mapBase58.getD (pszBase58.getD digit 0).toNat (-1) = digit := by
  decide +kernel

theorem pszBase58_plain :
    ∀ digit < 58, isSpace (pszBase58.getD digit 0) = false ∧ pszBase58.getD digit 0 ≠ 0 := by
  decide +kernel

theorem pszBase58_one : ∀ digit < 58, digit ≠ 0 → pszBase58.getD digit 0 ≠ ch '1' := by
  decide +kernel

theorem mapBase58_only (c : UInt8) (ne : mapBase58.getD c.toNat (-1) ≠ -1) :
    ∃ digit < 58, pszBase58.getD digit 0 = c := by
  obtain ⟨⟨g⟩⟩ := c
  revert g
  decide +kernel

theorem value_step (base n digit : Nat) (rest : List Nat) :
    (base * n + digit) * base ^ rest.length + value base rest =
      n * base ^ (digit :: rest).length + value base (digit :: rest) := by
  rw [value_cons, length_cons]
  ring

theorem encodeLoop_spec {size n}
    (lt : n * 256 ^ (input.map toNat).length + value 256 (input.map toNat) < 58 ^ size) :
    ∃ m, m = n * 256 ^ (input.map toNat).length + value 256 (input.map toNat) ∧
      encodeLoop (digitsAppend 58 size n) (digits 58 n).length input =
        .ok (digitsAppend 58 size m, (digits 58 m).length) := by
  induction input generalizing n with
  | nil => exact ⟨n, by simp, rfl⟩
  | cons byte input ih =>
    rw [map_cons, ← value_step] at lt ⊢
    have first : 256 * n + byte.toNat < 58 ^ size := by
      refine lt_of_le_of_lt ?_ lt
      exact Nat.le_add_right_of_le (Nat.le_mul_of_pos_right _ (by positivity))
    obtain ⟨m, total, ran⟩ := ih lt
    refine ⟨m, total, ?_⟩
    rw [encodeLoop, mulAdd_digits (by decide) (by decide) (Nat.sub_zero _) first]
    simp only [zero_add]
    exact ran

section Decode

variable {zeroes size n m digit : Nat} {digits : List Nat} {psz : List UInt8}

theorem decodeLoop_digit (low : digit < 58) (lt : 58 * n + digit < 256 ^ size) :
    decodeLoop max_ret_len zeroes (Nat.digitsAppend 256 size n) (Nat.digits 256 n).length
        (pszBase58.getD digit 0 :: psz) =
      if (((Nat.digits 256 (58 * n + digit)).length + zeroes : Nat) : Int) > max_ret_len then
        .ok none
      else decodeLoop max_ret_len zeroes (Nat.digitsAppend 256 size (58 * n + digit))
        (Nat.digits 256 (58 * n + digit)).length psz := by
  have valid : ¬ (digit : Int) = -1 := by omega
  rw [decodeLoop, (pszBase58_plain digit low).1, mapBase58_pszBase58 digit low]
  simp only [Bool.false_eq_true, if_false, if_neg valid, Int.toNat_natCast]
  rw [mulAdd_digits (by decide) (by decide) (Nat.sub_zero _) lt]
  simp [assert, ok_bind, pure, Except.pure]

theorem decodeLoop_spec
    (small : ∀ digit ∈ digits, digit < 58) (total : m = n * 58 ^ digits.length + value 58 digits)
    (lt : m < 256 ^ size)
    (allowed : (((Nat.digits 256 m).length + zeroes : Nat) : Int) ≤ max_ret_len) :
    decodeLoop max_ret_len zeroes (Nat.digitsAppend 256 size n) (Nat.digits 256 n).length
        (spell digits) =
      .ok (some (Nat.digitsAppend 256 size m, (Nat.digits 256 m).length, [])) := by
  induction digits generalizing n with
  | nil =>
    obtain rfl : m = n := by simpa using total
    rfl
  | cons digit digits ih =>
    rw [← value_step] at total
    have le : 58 * n + digit ≤ m := by
      rw [total]
      exact Nat.le_add_right_of_le (Nat.le_mul_of_pos_right _ (by positivity))
    have shorter := le_length_digits_le 256 _ _ le
    rw [spell, map_cons, decodeLoop_digit (small digit mem_cons_self) (lt_of_le_of_lt le lt),
      if_neg (by omega)]
    exact ih (forall_mem_cons.mp small).2 total

theorem decodeLoop_only (room : (n + 1) * 58 ^ psz.length ≤ 256 ^ size) :
    decodeLoop max_ret_len zeroes (Nat.digitsAppend 256 size n) (Nat.digits 256 n).length psz =
        .ok none ∨
      ∃ digits rest m, (∀ digit ∈ digits, digit < 58) ∧ psz = spell digits ++ rest ∧
        m = n * 58 ^ digits.length + value 58 digits ∧
        (digits = [] ∨ (((Nat.digits 256 m).length + zeroes : Nat) : Int) ≤ max_ret_len) ∧
        decodeLoop max_ret_len zeroes (Nat.digitsAppend 256 size n) (Nat.digits 256 n).length psz =
          .ok (some (Nat.digitsAppend 256 size m, (Nat.digits 256 m).length, rest)) := by
  induction psz generalizing n with
  | nil => exact .inr ⟨[], [], n, nofun, rfl, by simp, .inl rfl, rfl⟩
  | cons c psz ih =>
    by_cases space : isSpace c
    · refine .inr ⟨[], c :: psz, n, nofun, rfl, by simp, .inl rfl, ?_⟩
      rw [decodeLoop, if_pos space]
    by_cases bad : mapBase58.getD c.toNat (-1) = -1
    · rw [decodeLoop, if_neg space, if_pos bad]
      exact .inl rfl
    obtain ⟨digit, low, rfl⟩ := mapBase58_only c bad
    have le : (58 * n + digit + 1) * 58 ^ psz.length ≤ 256 ^ size := by
      refine le_trans ?_ room
      rw [length_cons, pow_succ', ← mul_assoc]
      exact Nat.mul_le_mul_right _ (by omega)
    have fits := (Nat.le_mul_of_pos_right _ (by positivity)).trans le
    rw [decodeLoop_digit low fits]
    split
    · exact .inl rfl
    rename_i allowed
    rcases ih le with refused | ⟨digits, rest, m, small, rfl, total, within, ran⟩
    · exact .inl refused
    refine .inr ⟨digit :: digits, rest, m, ?_, rfl, ?_, .inr ?_, ran⟩
    · exact forall_mem_cons.mpr ⟨low, small⟩
    · rw [total, value_step]
    · rcases within with rfl | within
      · obtain rfl : m = 58 * n + digit := by simpa using total
        exact not_lt.mp allowed
      · exact within

end Decode

theorem drop_unused {base size n} :
    (digitsAppend base size n).reverse.drop (size - (digits base n).length) =
      (digits base n).reverse := by
  rw [digitsAppend, reverse_append, reverse_replicate]
  exact drop_left' (length_replicate ..)

section Lead

variable {α : Type} {p : α → Bool} {a : α} {l : List α}

theorem dropWhile_lead (n : Nat) (skipped : p a) (lead : ∀ x ∈ l.head?, p x = false) :
    (replicate n a ++ l).dropWhile p = l := by
  induction n with
  | zero =>
    cases l with
    | nil => rfl
    | cons x l => simp [lead x rfl]
  | succ n ih => simpa [replicate_succ, skipped] using ih

theorem takeWhile_lead (n : Nat) (skipped : p a) (lead : ∀ x ∈ l.head?, p x = false) :
    (replicate n a ++ l).takeWhile p = replicate n a := by
  induction n with
  | zero =>
    cases l with
    | nil => rfl
    | cons x l => simp [lead x rfl]
  | succ n ih => simpa [replicate_succ, skipped] using ih

end Lead

theorem digits_lead {base n} : ∀ digit ∈ (digits base n).reverse.head?, digit ≠ 0 := by
  intro digit first
  rw [head?_reverse] at first
  obtain ⟨ne, rfl⟩ := mem_getLast?_eq_getLast first
  exact getLast_digit_ne_zero base (digits_ne_nil_iff_ne_zero.mp ne)

theorem encodeBase58_eq (zeroes : Nat) (lead : ∀ byte ∈ input.head?, byte ≠ 0)
    (lt : input.length * 138 / 100 + 1 < 2 ^ 31) :
    encodeBase58 (replicate zeroes 0 ++ input) =
      .ok (replicate zeroes (ch '1') ++
        spell (Nat.digits 58 (value 256 (input.map toNat))).reverse) := by
  have plain : ∀ byte ∈ input.head?, decide (byte = 0) = false :=
    fun byte first => decide_eq_false (lead byte first)
  have room : 0 * 256 ^ (input.map toNat).length + value 256 (input.map toNat) <
      58 ^ (input.length * 138 / 100 + 1) := by
    rw [Nat.zero_mul, Nat.zero_add]
    refine lt_trans (value_lt (by decide) ?_) ?_
    · intro digit mem
      obtain ⟨byte, -, rfl⟩ := mem_map.mp mem
      exact byte.toNat_lt
    · rw [length_map]
      exact encode_size input.length
  obtain ⟨m, total, ran⟩ := encodeLoop_spec room
  rw [Nat.zero_mul, Nat.zero_add] at total
  subst total
  have start : digitsAppend 58 (input.length * 138 / 100 + 1) 0 =
      replicate (input.length * 138 / 100 + 1) 0 := by
    simp [digitsAppend]
  rw [start, digits_zero, length_nil] at ran
  have whole : (Nat.digits 58 (value 256 (input.map toNat))).reverse.dropWhile (· = 0) =
      (Nat.digits 58 (value 256 (input.map toNat))).reverse :=
    dropWhile_lead 0 (a := 0) (by decide)
      fun digit first => decide_eq_false (digits_lead digit first)
  rw [encodeBase58, takeWhile_lead zeroes (by decide) plain,
    dropWhile_lead zeroes (by decide) plain]
  simp only [intSize_ok lt, ran, ok_bind, drop_unused, whole, length_replicate]
  rfl

theorem spell_plain (zeroes : Nat) {digits} (small : ∀ digit ∈ digits, digit < 58) :
    ∀ c ∈ replicate zeroes (ch '1') ++ spell digits, isSpace c = false ∧ c ≠ 0 := by
  intro c mem
  rcases mem_append.mp mem with one | spelled
  · rw [eq_of_mem_replicate one]
    decide
  · obtain ⟨digit, isDigit, rfl⟩ := mem_map.mp spelled
    exact pszBase58_plain digit (small digit isDigit)

theorem dropWhile_spell (zeroes : Nat) {digits} (small : ∀ digit ∈ digits, digit < 58) :
    (replicate zeroes (ch '1') ++ spell digits).dropWhile isSpace =
      replicate zeroes (ch '1') ++ spell digits :=
  dropWhile_lead 0 (a := 32) (by decide) fun c first =>
    (spell_plain zeroes small c (mem_of_mem_head? first)).1

section Whole

variable {s psz : List UInt8} {zeroes : Nat} {found : Option (List Nat × Nat × List UInt8)}

theorem decodeBase58_eq (noNul : containsNoNUL s = true)
    (ones : s.dropWhile isSpace = replicate zeroes (ch '1') ++ psz)
    (lead : ∀ c ∈ psz.head?, c ≠ ch '1') (lt : psz.length < 2 ^ 31)
    (few : ¬ (zeroes ≠ 0 ∧ (zeroes : Int) > max_ret_len))
    (ran : decodeLoop max_ret_len zeroes (digitsAppend 256 (psz.length * 733 / 1000 + 1) 0)
      (digits 256 0).length psz = .ok found) :
    decodeBase58 s max_ret_len = .ok (found.bind fun (b256, length, left) =>
      if left.dropWhile isSpace ≠ [] then none
      else some (replicate zeroes 0 ++
        (b256.reverse.drop (psz.length * 733 / 1000 + 1 - length)).map ofNat)) := by
  have noOne : ∀ c ∈ psz.head?, decide (c = ch '1') = false :=
    fun c first => decide_eq_false (lead c first)
  have counted := @takeWhile_lead _ _ (ch '1') _ zeroes (by decide) noOne
  have skipped := @dropWhile_lead _ _ (ch '1') _ zeroes (by decide) noOne
  have sized := intSize_ok (n := psz.length * 733 / 1000 + 1) (by omega)
  rw [digits_zero, length_nil, digitsAppend, digits_zero, nil_append, length_nil,
    Nat.sub_zero] at ran
  simp only [decodeBase58, noNul, ones, counted, skipped, length_replicate, if_neg few, sized, ran,
    ok_bind, Bool.not_true, Bool.false_eq_true, if_false]
  cases found with
  | none => rfl
  | some out =>
    dsimp only [Option.bind]
    split <;> rfl

end Whole

theorem decodeBase58_spell {zeroes n}
    (le : (((digits 256 n).length + zeroes : Nat) : Int) ≤ max_ret_len)
    (lt : (digits 58 n).length < 2 ^ 31) :
    decodeBase58 (replicate zeroes (ch '1') ++ spell (digits 58 n).reverse) max_ret_len =
      .ok (some (replicate zeroes 0 ++ (digits 256 n).reverse.map ofNat)) := by
  have first := @digits_lead 58 n
  have small : ∀ digit ∈ (digits 58 n).reverse, digit < 58 :=
    fun digit mem => digits_lt_base (by decide) (mem_reverse.mp mem)
  have total : n = value 58 (digits 58 n).reverse := by rw [value_digits]
  have plain := spell_plain zeroes small
  have spelled := dropWhile_spell zeroes small
  rw [← length_reverse] at lt
  generalize (digits 58 n).reverse = digits at *
  have length : (spell digits).length = digits.length := length_map _
  rw [decodeBase58_eq ?noNul spelled ?lead (by omega) (by omega)
    (decodeLoop_spec small (by simpa using total) ?room le)]
  case noNul =>
    rw [containsNoNUL, all_eq_true]
    exact fun c mem => decide_eq_true (plain c mem).2
  case lead =>
    intro c isFirst
    rw [spell, head?_map] at isFirst
    obtain ⟨digit, isHead, rfl⟩ := Option.map_eq_some_iff.mp isFirst
    exact pszBase58_one digit (small digit (mem_of_mem_head? isHead)) (first digit isHead)
  case room =>
    rw [length, total]
    exact (value_lt (by decide) small).trans (decode_size digits.length)
  simp only [Option.bind, dropWhile_nil, ne_eq, not_true_eq_false, if_false, drop_unused]

theorem decodeBase58_encodeBase58 (le : input.length ≤ max_ret_len)
    (short : (input.dropWhile (· = 0)).length ≤ 1556147570) :
    ∃ s, encodeBase58 input = .ok s ∧ decodeBase58 s max_ret_len = .ok (some input) ∧
      ((s.dropWhile isSpace).dropWhile (· = ch '1')).length < 2 ^ 31 := by
  obtain ⟨zeroes, rest, rfl, lead⟩ := split_lead 0 input
  rw [length_append, length_replicate] at le
  rw [dropWhile_lead zeroes (by decide) fun byte first => decide_eq_false (lead byte first)]
    at short
  have small : ∀ digit ∈ rest.map toNat, digit < 256 := by
    intro digit mem
    obtain ⟨byte, -, rfl⟩ := mem_map.mp mem
    exact byte.toNat_lt
  have back : (digits 256 (value 256 (rest.map toNat))).reverse = rest.map toNat := by
    apply digits_value (by decide) small
    intro digit first
    rw [head?_map] at first
    obtain ⟨byte, isFirst, rfl⟩ := Option.map_eq_some_iff.mp first
    intro zero
    exact lead byte isFirst (UInt8.toNat_inj.mp zero)
  have few : (digits 58 (value 256 (rest.map toNat))).length ≤ rest.length * 138 / 100 + 1 := by
    rw [digits_length_le_iff (by decide)]
    have lt := value_lt (by decide) small
    rw [length_map] at lt
    exact lt.trans (encode_size rest.length)
  refine ⟨_, encodeBase58_eq zeroes lead (by omega), ?_, ?_⟩
  · rw [decodeBase58_spell _ (by omega), back, map_toNat_ofNat]
    rw [← length_reverse, back, length_map]
    omega
  · have drops := length_dropWhile_le (· = ch '1')
      (spell (digits 58 (value 256 (rest.map toNat))).reverse)
    rw [spell, length_map, length_reverse] at drops
    rw [dropWhile_spell zeroes fun digit mem => digits_lt_base (by decide) (mem_reverse.mp mem),
      dropWhile_append_of_pos fun c one => by rw [eq_of_mem_replicate one]; decide]
    exact drops.trans_lt (by omega)

/-- A string without the white space around it. -/
def trim (s : List UInt8) : List UInt8 :=
  ((s.dropWhile isSpace).reverse.dropWhile isSpace).reverse

theorem decodeBase58_only {s}
    (short : ((s.dropWhile isSpace).dropWhile (· = ch '1')).length < 2 ^ 31) :
    decodeBase58 s max_ret_len = .ok none ∨
      ∃ zeroes n, trim s = replicate zeroes (ch '1') ++ spell (digits 58 n).reverse ∧
        (digits 58 n).length < 2 ^ 31 ∧
        (zeroes + (digits 256 n).length = 0 ∨
          (((digits 256 n).length + zeroes : Nat) : Int) ≤ max_ret_len) ∧
        decodeBase58 s max_ret_len =
          .ok (some (replicate zeroes 0 ++ (digits 256 n).reverse.map ofNat)) := by
  by_cases noNul : containsNoNUL s = true
  swap
  · simp [decodeBase58, noNul]
  obtain ⟨zeroes, psz, isOnes, lead⟩ := split_lead (ch '1') (s.dropWhile isSpace)
  have noOne : ∀ c ∈ psz.head?, decide (c = ch '1') = false :=
    fun c first => decide_eq_false (lead c first)
  by_cases many : zeroes ≠ 0 ∧ (zeroes : Int) > max_ret_len
  · have counted := @takeWhile_lead _ _ (ch '1') _ zeroes (by decide) noOne
    simp only [decodeBase58, noNul, isOnes, counted, length_replicate, if_pos many]
    exact .inl rfl
  rw [isOnes, dropWhile_lead zeroes (by decide) noOne] at short
  have whole := fun found => @decodeBase58_eq max_ret_len s psz zeroes found noNul isOnes lead
    short many
  rcases @decodeLoop_only max_ret_len zeroes (psz.length * 733 / 1000 + 1) 0 psz
    (by simpa using (decode_size psz.length).le) with
    refused | ⟨digits, rest, m, small, rfl, total, within, ran⟩
  · exact .inl (whole _ refused)
  have ended := whole _ ran
  dsimp only [Option.bind] at ended
  by_cases trailing : rest.dropWhile isSpace ≠ []
  · rw [if_pos trailing] at ended
    exact .inl ended
  rw [if_neg trailing, drop_unused] at ended
  rw [Nat.zero_mul, Nat.zero_add] at total
  have isDigits : (Nat.digits 58 m).reverse = digits := by
    rw [total]
    refine digits_value (by decide) small fun digit first zero => ?_
    obtain ⟨later, rfl⟩ := head?_eq_some_iff.mp first
    exact lead (pszBase58.getD digit 0) rfl (by rw [zero]; rfl)
  refine .inr ⟨zeroes, m, ?_, ?_, ?_, ended⟩
  · have spaces : ∀ c ∈ rest.reverse, isSpace c := by
      simpa [dropWhile_eq_nil_iff] using trailing
    have spelled := dropWhile_lead (p := isSpace) (a := 32) 0 (by decide) fun c first =>
      (spell_plain zeroes small c (mem_reverse.mp (mem_of_mem_head? first))).1
    rw [replicate_zero, nil_append] at spelled
    rw [isDigits, trim, isOnes, ← append_assoc, reverse_append, dropWhile_append_of_pos spaces,
      spelled, reverse_reverse]
  · rw [length_append, spell, length_map] at short
    rw [← length_reverse, isDigits]
    omega
  · rcases within with rfl | within
    · rw [show m = 0 from total, digits_zero, length_nil]
      omega
    · exact .inr within

theorem decodeBase58_spec
    (lt : ((s.dropWhile isSpace).dropWhile (· = ch '1')).length < 2 ^ 31)
    (decoded : decodeBase58 s max_ret_len = .ok (some v)) :
    (v = [] ∨ (v.length : Int) ≤ max_ret_len) ∧
      (∀ limit : Int, v.length ≤ limit → decodeBase58 (trim s) limit = .ok (some v)) ∧
      ((v.dropWhile (· = 0)).length ≤ 1556147570 → encodeBase58 v = .ok (trim s)) := by
  rcases decodeBase58_only lt with refused | ⟨zeroes, n, trimmed, short, within, ran⟩
  · cases refused.symm.trans decoded
  cases ran.symm.trans decoded
  have lead : ∀ byte ∈ ((digits 256 n).reverse.map ofNat).head?, byte ≠ 0 := by
    intro byte first zero
    rw [head?_map] at first
    obtain ⟨digit, isFirst, rfl⟩ := Option.map_eq_some_iff.mp first
    have small := digits_lt_base (by decide) (mem_reverse.mp (mem_of_mem_head? isFirst))
    refine digits_lead digit isFirst ?_
    rw [← UInt8.toNat_ofNat_of_lt' small, zero]
    rfl
  have back : ((digits 256 n).reverse.map ofNat).map toNat = (digits 256 n).reverse :=
    map_ofNat_toNat fun digit mem => digits_lt_base (by decide) (mem_reverse.mp mem)
  refine ⟨?_, fun limit le => ?_, ?_⟩
  · rw [← length_eq_zero_iff]
    simpa [Nat.add_comm] using within
  · rw [trimmed]
    exact decodeBase58_spell (by simpa [Nat.add_comm] using le) short
  · intro few
    rw [dropWhile_lead zeroes (by decide) fun byte first => decide_eq_false (lead byte first)] at few
    rw [encodeBase58_eq zeroes lead (by omega), back, value_digits, trimmed]

/-- Encoding and decoding are inverse as long as their sizes fit into an `int`: the length,
    and the size of the vector that the bytes after the leading zeros are written to. -/
theorem base58_exact_inverse :
    (∀ v : List UInt8, v.length < 2 ^ 31 → (v.dropWhile (· = 0)).length ≤ 1556147570 →
      ∃ s, encodeBase58 v = .ok s ∧
        (∀ max_ret_len : Int, v.length ≤ max_ret_len →
          decodeBase58 s max_ret_len = .ok (some v)) ∧
        (v ≠ [] → ∀ max_ret_len : Int, max_ret_len < v.length →
          decodeBase58 s max_ret_len = .ok none)) ∧
    ∀ (s : List UInt8) (max_ret_len : Int), s.length < 2 ^ 31 →
      ∃ result, decodeBase58 s max_ret_len = .ok result ∧
        ∀ v, result = some v → (v.dropWhile (· = 0)).length ≤ 1556147570 →
          encodeBase58 v = .ok (trim s) := by
  refine ⟨fun v _ few => ?_, fun s max_ret_len short => ?_⟩
  · obtain ⟨s, encoded, decoded, short⟩ := decodeBase58_encodeBase58 (le_refl (v.length : Int)) few
    refine ⟨s, encoded, fun max_ret_len allowed => ?_, fun nonempty max_ret_len less => ?_⟩
    · obtain ⟨s', same, decoded, -⟩ := decodeBase58_encodeBase58 allowed few
      cases same.symm.trans encoded
      exact decoded
    rcases decodeBase58_only short with refused | ⟨zeroes, n, -, -, -, ran⟩
    · exact refused
    -- what a smaller limit lets through is decoded under the larger one too, and so is `v` itself
    obtain ⟨within, again, -⟩ := decodeBase58_spec short ran
    generalize replicate zeroes 0 ++ (digits 256 n).reverse.map ofNat = w at *
    have shorter : w.length < v.length := by
      rcases within with rfl | within
      · exact length_pos_iff.mpr nonempty
      · omega
    have larger := (decodeBase58_spec short decoded).2.1 v.length le_rfl
    cases (again v.length (by omega)).symm.trans larger
    exact absurd shorter (lt_irrefl _)
  · have short : ((s.dropWhile isSpace).dropWhile (· = ch '1')).length < 2 ^ 31 :=
      ((length_dropWhile_le _ _).trans (length_dropWhile_le _ _)).trans_lt short
    rcases decodeBase58_only short with refused | ⟨zeroes, n, -, -, -, ran⟩
    · exact ⟨none, refused, nofun⟩
    · refine ⟨_, ran, fun v same few => ?_⟩
      exact (decodeBase58_spec short (ran.trans (congrArg _ same))).2.2 few

theorem encodeBase58_overflow (wrapped : intSize ((n + 1) * 138 / 100 + 1) = .ok 0) :
    encodeBase58 (replicate (n + 1) 255) = .error (.assertion "carry == 0") := by
  rw [encodeBase58, takeWhile_replicate, dropWhile_replicate]
  simp [wrapped, bind, Except.bind, replicate_succ, encodeLoop, mulAdd, assert]

theorem decodeBase58_overflow (wrapped : intSize ((n + 1) * 733 / 1000 + 1) = .ok 0) :
    decodeBase58 (replicate (n + 1) (ch 'z')) max_ret_len = .error (.assertion "carry == 0") := by
  have noNul : containsNoNUL (ch 'z' :: replicate n (ch 'z')) = true := by
    simp [containsNoNUL, ch]
  have plain : isSpace (ch 'z') = false := by decide
  have notOne : ¬ ch 'z' = ch '1' := by decide
  have fails : ∀ zeroes, decodeLoop max_ret_len zeroes [] 0 (ch 'z' :: replicate n (ch 'z')) =
      .error (.assertion "carry == 0") := by
    intro zeroes
    rfl
  simp [decodeBase58, noNul, plain, notOne, wrapped, bind, Except.bind, replicate_succ, fails]

/-- Where the sizes do not fit the assertions fail, and the empty string is decoded under
    every limit. -/
theorem base58_sizes_overflow :
    encodeBase58 (replicate (3112295141 + 1) 255) = .error (.assertion "carry == 0") ∧
    (∀ max_ret_len, decodeBase58 (replicate (5859436964 + 1) (ch 'z')) max_ret_len =
      .error (.assertion "carry == 0")) ∧
    encodeBase58 [] = .ok [] ∧ decodeBase58 [] (-1) = .ok (some []) :=
  ⟨encodeBase58_overflow rfl, fun _ => decodeBase58_overflow rfl, by decide, by decide⟩

theorem decodeBase58Check_encodeBase58Check (hash : List UInt8 → Bytes 32)
    (le : input.length ≤ max_ret_len) (fits : max_ret_len ≤ Serialize.intMax - 4)
    (short : input.length ≤ 1556147566) :
    ∃ s, encodeBase58Check hash input = .ok s ∧
      decodeBase58Check hash s max_ret_len = .ok (some input) := by
  have four : ((hash input).1.take 4).length = 4 := by
    rw [length_take, (hash input).2]
    rfl
  obtain ⟨s, encoded, decoded, -⟩ :=
    @decodeBase58_encodeBase58 (input ++ (hash input).1.take 4) (max_ret_len + 4)
      (by rw [length_append, four]; omega)
      ((length_dropWhile_le _ _).trans (by rw [length_append, four]; omega))
  refine ⟨s, encoded, ?_⟩
  have noNul : containsNoNUL s = true := by
    by_contra nul
    rw [Bool.not_eq_true] at nul
    rw [decodeBase58, nul] at decoded
    cases decoded
  rw [decodeBase58Check, noNul]
  simp only [Bool.not_true, Bool.false_eq_true, if_false]
  rw [if_neg (by omega)]
  simp [decoded, ok_bind, pure, Except.pure, four]

end HobbyHash.Base58
