import HobbyHash.Library.Radix
import Mathlib.Data.Nat.Bitwise

/-! # Strings and groups of bits

From `util/strencodings.h` and `util/string.h`. Strings are lists of bytes.
`EncodeBase64`, `EncodeBase32` and their decoders write groups of bits as characters.
`ConvertBits` regroups a sequence of digits of one width into digits of another; it
keeps the last bits of what it has read in an accumulator that is cut to the bits
still needed. Read as one number, the digits it has written and the bits it has
still to write are what it has read.
-/

namespace HobbyHash.StrEncodings

open Library.Radix List Nat

variable {values : List Nat}

def ch (c : Char) : UInt8 := UInt8.ofNat c.toNat

def str (cs : List Char) : List UInt8 := cs.map ch

def isSpace (c : UInt8) : Bool :=
  c = 32 || c = 12 || c = 10 || c = 13 || c = 9 || c = 11

def toLower (c : UInt8) : UInt8 :=
  if c ≥ ch 'A' ∧ c ≤ ch 'Z' then (c - ch 'A') + ch 'a' else c

def containsNoNUL (s : List UInt8) : Bool := s.all (· ≠ 0)

theorem map_ofNat_toNat (small : ∀ v ∈ values, v < 256) :
    (values.map UInt8.ofNat).map UInt8.toNat = values := by
  induction values with
  | nil => rfl
  | cons v values ih =>
    have first := small v mem_cons_self
    rw [map_cons, map_cons, UInt8.toNat_ofNat_of_lt' first,
      ih (forall_mem_cons.mp small).2]

theorem map_toNat_ofNat (bytes : List UInt8) : (bytes.map UInt8.toNat).map UInt8.ofNat = bytes := by
  induction bytes with
  | nil => rfl
  | cons byte bytes ih => rw [map_cons, map_cons, UInt8.ofNat_toNat, ih]

theorem split_lead (b : UInt8) (input : List UInt8) :
    ∃ zeroes rest, input = replicate zeroes b ++ rest ∧ ∀ byte ∈ rest.head?, byte ≠ b := by
  induction input with
  | nil => exact ⟨0, [], rfl, by simp⟩
  | cons byte input ih =>
    by_cases zero : byte = b
    · obtain ⟨zeroes, rest, rfl, lead⟩ := ih
      exact ⟨zeroes + 1, rest, by rw [zero, replicate_succ, cons_append], lead⟩
    · exact ⟨0, byte :: input, rfl, by simpa using zero⟩

/-- The inner loop of `ConvertBits`: what it writes, and the bits left. -/
def emitBits (tobits acc bits : Nat) : List Nat × Nat :=
  if 0 < tobits ∧ tobits ≤ bits then
    let (out, left) := emitBits tobits acc (bits - tobits)
    (((acc >>> (bits - tobits)) &&& (2 ^ tobits - 1)) :: out, left)
  else ([], bits)
termination_by bits
decreasing_by omega

/-- The outer loop of `ConvertBits`: what it writes, and its accumulator and bits. -/
def convertLoop (frombits tobits : Nat) (acc bits : Nat) : List Nat → List Nat × Nat × Nat
  | [] => ([], acc, bits)
  | v :: rest =>
    let acc := ((acc <<< frombits) ||| v) &&& (2 ^ (frombits + tobits - 1) - 1)
    let (out, bits) := emitBits tobits acc (bits + frombits)
    let (later, acc, bits) := convertLoop frombits tobits acc bits rest
    (out ++ later, acc, bits)

/-- `ConvertBits`: what it writes, and whether it succeeds. The values are not
    negative, so `infn` does not fail. -/
def convertBits (frombits tobits : Nat) (pad : Bool) (values : List Nat) : List Nat × Bool :=
  let (out, acc, bits) := convertLoop frombits tobits 0 0 values
  let last := (acc <<< (tobits - bits)) &&& (2 ^ tobits - 1)
  if pad then (if bits ≠ 0 then out ++ [last] else out, true)
  else (out, !(decide (bits ≥ frombits) || decide (last ≠ 0)))

theorem emitBits_spec {tobits acc bits left out} (pos : 0 < tobits)
    (emitted : emitBits tobits acc bits = (out, left)) :
    left < tobits ∧ bits = tobits * out.length + left ∧ (∀ v ∈ out, v < 2 ^ tobits) ∧
      value (2 ^ tobits) out * 2 ^ left + acc % 2 ^ left = acc % 2 ^ bits := by
  induction bits using Nat.strong_induction_on generalizing out with
  | _ bits ih =>
    rw [emitBits] at emitted
    split at emitted
    · rcases isRest : emitBits tobits acc (bits - tobits) with ⟨rest, last⟩
      rw [isRest] at emitted
      cases emitted
      obtain ⟨lt, count, small, same⟩ := ih (bits - tobits) (by omega) isRest
      refine ⟨lt, ?_, ?_, ?_⟩
      · rw [length_cons, mul_succ]
        omega
      · intro v mem
        cases mem with
        | head =>
          rw [and_two_pow_sub_one_eq_mod]
          exact Nat.mod_lt _ (Nat.two_pow_pos _)
        | tail _ later => exact small v later
      have eq : 2 ^ (bits - tobits) = (2 ^ tobits) ^ rest.length * 2 ^ left := by
        rw [← pow_mul, ← pow_add, ← count]
      rw [value_cons, and_two_pow_sub_one_eq_mod, shiftRight_eq_div_pow]
      have split : acc % 2 ^ bits =
          acc / 2 ^ (bits - tobits) % 2 ^ tobits * 2 ^ (bits - tobits) +
            acc % 2 ^ (bits - tobits) := by
        have le : tobits ≤ bits := by omega
        rw [← pow_sub_mul_pow 2 le, mod_mul, add_comm, mul_comm (2 ^ (bits - tobits))]
      rw [split, ← same, eq]
      ring
    · cases emitted
      exact ⟨by omega, by simp, by simp, by simp⟩

/-- What has been written and the bits still to be written are what has been read. -/
theorem convertLoop_spec {frombits tobits acc bits acc' bits' out} (pos : 0 < tobits)
    (short : bits < tobits) (small : ∀ v ∈ values, v < 2 ^ frombits)
    (ran : convertLoop frombits tobits acc bits values = (out, acc', bits')) :
    bits' < tobits ∧ bits + frombits * values.length = tobits * out.length + bits' ∧
      (∀ v ∈ out, v < 2 ^ tobits) ∧
      value (2 ^ tobits) out * 2 ^ bits' + acc' % 2 ^ bits' =
        acc % 2 ^ bits * (2 ^ frombits) ^ values.length + value (2 ^ frombits) values := by
  induction values generalizing acc bits out with
  | nil =>
    cases ran
    exact ⟨short, by simp, by simp, by simp⟩
  | cons v rest ih =>
    rw [convertLoop] at ran
    generalize isNext :
        ((acc <<< frombits) ||| v) &&& (2 ^ (frombits + tobits - 1) - 1) = next at ran
    rcases isFirst : emitBits tobits next (bits + frombits) with ⟨first, left⟩
    rcases isLater : convertLoop frombits tobits next left rest with ⟨later, last, final⟩
    simp only [isFirst, isLater] at ran
    cases ran
    obtain ⟨lt, count, smallFirst, sameFirst⟩ := emitBits_spec pos isFirst
    obtain ⟨belowToo, countToo, smallLater, sameLater⟩ :=
      ih lt (forall_mem_cons.mp small).2 isLater
    have kept : next % 2 ^ (bits + frombits) = acc % 2 ^ bits * 2 ^ frombits + v := by
      have low := small v mem_cons_self
      rw [← isNext, and_two_pow_sub_one_eq_mod,
        mod_mod_of_dvd _ (pow_dvd_pow 2 (by omega)),
        ← shiftLeft_add_eq_or_of_lt low, shiftLeft_eq, pow_add, mul_comm (2 ^ bits),
        mod_mul, mul_add_mod_self_right, mod_eq_of_lt low]
      rw [Nat.add_comm (acc * 2 ^ frombits), Nat.add_mul_div_right _ _ (Nat.two_pow_pos _),
        div_eq_of_lt low, zero_add]
      ring
    refine ⟨belowToo, ?_, ?_, ?_⟩
    · rw [length_cons, mul_succ, length_append, mul_add]
      omega
    · exact forall_mem_append.mpr ⟨smallFirst, smallLater⟩
    have eq : (2 ^ tobits) ^ later.length * 2 ^ bits' =
        2 ^ left * (2 ^ frombits) ^ rest.length := by
      rw [← pow_mul, ← pow_mul, ← pow_add, ← pow_add, ← countToo]
    rw [value_append, value_cons, length_cons, add_mul, add_assoc, sameLater,
      mul_assoc, eq, ← mul_assoc, ← add_assoc, ← add_mul, sameFirst, kept]
    ring

theorem last_bits {acc bits tobits} (le : bits ≤ tobits) :
    (acc <<< (tobits - bits)) &&& (2 ^ tobits - 1) = acc % 2 ^ bits * 2 ^ (tobits - bits) := by
  rw [and_two_pow_sub_one_eq_mod, shiftLeft_eq, ← pow_mul_pow_sub 2 le, mul_mod_mul_right]

theorem eq_of_mul_add_eq {base m n x y : Nat} (left : x < base) (right : y < base)
    (eq : base * m + x = base * n + y) : m = n := by
  have quotient := congrArg (· / base) eq
  rwa [mul_add_div (by omega), mul_add_div (by omega), div_eq_of_lt left, div_eq_of_lt right,
    add_zero, add_zero] at quotient

theorem convertBits_pad {frombits tobits} (pos : 0 < tobits)
    (small : ∀ v ∈ values, v < 2 ^ frombits) :
    ∃ out padding, convertBits frombits tobits true values = (out, true) ∧
      padding < tobits ∧ tobits * out.length = frombits * values.length + padding ∧
      (∀ v ∈ out, v < 2 ^ tobits) ∧
      value (2 ^ tobits) out = value (2 ^ frombits) values * 2 ^ padding := by
  rcases ran : convertLoop frombits tobits 0 0 values with ⟨out, acc, bits⟩
  obtain ⟨lt, count, smallOut, same⟩ := convertLoop_spec pos pos small ran
  simp only [zero_mod, zero_mul, zero_add] at count same
  simp only [convertBits, ran]
  by_cases none : bits = 0
  · subst none
    refine ⟨out, 0, by simp, pos, count.symm, smallOut, ?_⟩
    rw [pow_zero, mul_one, mod_one, add_zero] at same
    rw [same, pow_zero, mul_one]
  have room := pow_mul_pow_sub 2 lt.le
  refine ⟨out ++ [acc % 2 ^ bits * 2 ^ (tobits - bits)], tobits - bits, ?_, by omega, ?_, ?_, ?_⟩
  · simp [none, last_bits lt.le]
  · rw [length_append, length_singleton, mul_succ]
    omega
  · intro v mem
    rcases mem_append.mp mem with early | late
    · exact smallOut v early
    · rw [mem_singleton.mp late, ← room]
      exact Nat.mul_lt_mul_of_pos_right (Nat.mod_lt _ (Nat.two_pow_pos _)) (Nat.two_pow_pos _)
  · rw [value_concat, ← same, ← room]
    ring

theorem convertBits_back (pos : 0 < tobits) (le : tobits ≤ frombits)
    (small : ∀ v ∈ values, v < 2 ^ frombits) :
    ∃ out, convertBits frombits tobits true values = (out, true) ∧
      (∀ v ∈ out, v < 2 ^ tobits) ∧ tobits * out.length < frombits * values.length + tobits ∧
      convertBits tobits frombits false out = (values, true) := by
  obtain ⟨out, padding, padded, fewer, count, smallOut, same⟩ :=
    convertBits_pad pos small
  refine ⟨out, padded, smallOut, by omega, ?_⟩
  rcases ran : convertLoop tobits frombits 0 0 out with ⟨back, acc, bits⟩
  obtain ⟨lt, countBack, smallBack, sameBack⟩ :=
    convertLoop_spec (by omega) (by omega) smallOut ran
  simp only [zero_mod, zero_mul, zero_add] at countBack sameBack
  have eq : values.length = back.length :=
    eq_of_mul_add_eq (by omega) lt (count.symm.trans countBack)
  have left : bits = padding := by
    rw [← eq] at countBack
    omega
  subst left
  rw [same] at sameBack
  have rest : acc % 2 ^ bits = 0 := by
    have low := Nat.mod_lt acc (Nat.two_pow_pos bits)
    have := congrArg (· % 2 ^ bits) sameBack
    simpa [mul_add_mod_self_right, mod_eq_of_lt low] using this
  have values_eq : back = values := by
    refine value_injective (Nat.one_lt_two_pow (by omega)) smallBack small eq.symm ?_
    rw [rest, add_zero] at sameBack
    exact Nat.eq_of_mul_eq_mul_right (Nat.two_pow_pos bits) sameBack
  simp [convertBits, ran, last_bits lt.le, rest, values_eq, fewer]

theorem convertBits_forth (pos : 0 < frombits) (le : frombits ≤ tobits)
    (small : ∀ v ∈ values, v < 2 ^ frombits)
    (converted : convertBits frombits tobits false values = (out, true)) :
    (∀ v ∈ out, v < 2 ^ tobits) ∧ convertBits tobits frombits true out = (values, true) := by
  rcases ran : convertLoop frombits tobits 0 0 values with ⟨written, acc, bits⟩
  obtain ⟨lt, count, smallOut, same⟩ := convertLoop_spec (by omega) (by omega) small ran
  simp only [zero_mod, zero_mul, zero_add] at count same
  obtain ⟨rfl, few, spare⟩ : written = out ∧ bits < frombits ∧ acc % 2 ^ bits = 0 := by
    simpa [convertBits, ran, last_bits lt.le] using converted
  obtain ⟨back, padding, padded, fewer, countBack, smallBack, sameBack⟩ :=
    convertBits_pad pos smallOut
  have length : back.length = values.length := eq_of_mul_add_eq few fewer (by omega)
  rw [length] at countBack
  obtain rfl : padding = bits := by omega
  rw [spare, add_zero] at same
  have eq := value_injective (Nat.one_lt_two_pow pos.ne') smallBack small length
    (sameBack.trans same)
  exact ⟨smallOut, eq ▸ padded⟩

def chars (first : Char) (count : Nat) : List UInt8 :=
  (range' first.toNat count).map UInt8.ofNat

def pbase64 : List UInt8 := chars 'A' 26 ++ chars 'a' 26 ++ chars '0' 10 ++ str ['+', '/']

def pbase32 : List UInt8 := chars 'a' 26 ++ chars '2' 6

def run (first count : Nat) : List Int := (range' first count).map Int.ofNat

def decode64Table : List Int :=
  replicate 43 (-1) ++ [62, -1, -1, -1, 63] ++ run 52 10 ++ replicate 7 (-1) ++ run 0 26 ++
    replicate 6 (-1) ++ run 26 26 ++ replicate 133 (-1)

def decode32Table : List Int :=
  replicate 50 (-1) ++ run 26 6 ++ replicate 9 (-1) ++ run 0 26 ++ replicate 6 (-1) ++
    run 0 26 ++ replicate 133 (-1)

/-- `while (str.size() % size) str += '='`. -/
def padTo (size : Nat) (str : List UInt8) : List UInt8 :=
  str ++ replicate ((size - str.length % size) % size) (ch '=')

/-- Takes padding characters from the end if there are as many. -/
def removePad (n : Nat) (str : List UInt8) : List UInt8 :=
  if replicate n (ch '=') <:+ str then str.take (str.length - n) else str

def encodeDigits (bits : Nat) (charset input : List UInt8) : List UInt8 :=
  (convertBits 8 bits true (input.map UInt8.toNat)).1.map fun v => charset.getD v 0

def tableValue (table : List Int) (c : UInt8) : Option Nat :=
  let v := table.getD c.toNat (-1)
  if v < 0 then none else some v.toNat

def decodeDigits (bits : Nat) (table : List Int) (str : List UInt8) : Option (List UInt8) := do
  let values ← str.mapM (tableValue table)
  let (ret, valid) := convertBits bits 8 false values
  if valid then return ret.map UInt8.ofNat else none

/-- The decoders take the padding off in these steps. -/
def decodePadded (bits size : Nat) (steps : List Nat) (table : List Int) (str : List UInt8) :
    Option (List UInt8) :=
  if str.length % size ≠ 0 then none
  else decodeDigits bits table (steps.foldl (fun str n => removePad n str) str)

def encodeBase64 (input : List UInt8) : List UInt8 :=
  padTo 4 (encodeDigits 6 pbase64 input)

def decodeBase64 (str : List UInt8) : Option (List UInt8) :=
  decodePadded 6 4 [1, 1] decode64Table str

def encodeBase32 (input : List UInt8) (pad : Bool) : List UInt8 :=
  let str := encodeDigits 5 pbase32 input
  if pad then padTo 8 str else str

def decodeBase32 (str : List UInt8) : Option (List UInt8) :=
  decodePadded 5 8 [1, 2, 1, 2] decode32Table str

theorem removePad_eq (n p : Nat) {str} (last : ∀ c ∈ str.reverse.head?, c ≠ ch '=') :
    removePad n (str ++ replicate p (ch '=')) =
      str ++ replicate (if n ≤ p then p - n else p) (ch '=') := by
  rw [removePad]
  by_cases le : n ≤ p
  · obtain ⟨k, rfl⟩ := Nat.exists_eq_add_of_le' le
    rw [if_pos le, replicate_add, ← append_assoc, if_pos (suffix_append _ _), length_append,
      length_replicate, Nat.add_sub_cancel, take_left, Nat.add_sub_cancel]
  obtain ⟨k, rfl⟩ := Nat.exists_eq_add_of_lt (Nat.not_le.mp le)
  rw [if_neg le, if_neg]
  intro suffix
  rw [← reverse_prefix, reverse_append, reverse_replicate, reverse_replicate, Nat.add_assoc,
    replicate_add, prefix_append_right_inj, replicate_succ] at suffix
  obtain ⟨rest, eq⟩ := suffix
  exact last (ch '=') (by rw [← eq]; rfl) rfl

def padLeft (steps : List Nat) (p : Nat) : Nat :=
  steps.foldl (fun p n => if n ≤ p then p - n else p) p

theorem removePads_eq (steps : List Nat) (p : Nat) {str}
    (last : ∀ c ∈ str.reverse.head?, c ≠ ch '=') :
    steps.foldl (fun str n => removePad n str) (str ++ replicate p (ch '=')) =
      str ++ replicate (padLeft steps p) (ch '=') := by
  induction steps generalizing p with
  | nil => rfl
  | cons n steps ih => rw [foldl_cons, removePad_eq n p last, ih, padLeft, padLeft, foldl_cons]

/-- The characters of an alphabet and their values are inverse to each other but for case. -/
structure Alphabet (bits : Nat) (charset : List UInt8) (table : List Int)
    (lower : UInt8 → UInt8) : Prop where
  positive : 0 < bits
  narrow : bits ≤ 8
  pad : tableValue table (ch '=') = none ∧ lower (ch '=') = ch '='
  writes : ∀ v < 2 ^ bits, tableValue table (charset.getD v 0) = some v
  reads : ∀ c, ∀ v ∈ tableValue table c, v < 2 ^ bits ∧ charset.getD v 0 = lower c

section Alphabet

variable {bits : Nat} {charset s : List UInt8} {table : List Int} {lower : UInt8 → UInt8}
  (alphabet : Alphabet bits charset table lower)
include alphabet

theorem mapM_charset (small : ∀ v ∈ values, v < 2 ^ bits) :
    (values.map fun v => charset.getD v 0).mapM (tableValue table) = some values := by
  induction values with
  | nil => rfl
  | cons v values ih =>
    obtain ⟨first, rest⟩ := forall_mem_cons.mp small
    rw [map_cons, mapM_cons, alphabet.writes v first, ih rest]
    rfl

theorem mapM_tableValue (read : s.mapM (tableValue table) = some values) :
    (∀ v ∈ values, v < 2 ^ bits) ∧ (values.map fun v => charset.getD v 0) = s.map lower ∧
      ch '=' ∉ s := by
  induction s generalizing values with
  | nil =>
    cases read
    exact ⟨nofun, rfl, not_mem_nil⟩
  | cons c s ih =>
    rw [mapM_cons] at read
    obtain ⟨v, first, later⟩ := Option.bind_eq_some_iff.mp read
    obtain ⟨rest, second, same⟩ := Option.bind_eq_some_iff.mp later
    cases same
    obtain ⟨small, isC⟩ := alphabet.reads c v first
    obtain ⟨smallRest, chars, clear⟩ := ih second
    refine ⟨forall_mem_cons.mpr ⟨small, smallRest⟩, by rw [map_cons, map_cons, isC, chars], ?_⟩
    rintro (_ | ⟨_, mem⟩)
    · cases alphabet.pad.1.symm.trans first
    · exact clear mem

theorem decodeDigits_encodeDigits (v : List UInt8) :
    ∃ padding < bits, bits * (encodeDigits bits charset v).length = 8 * v.length + padding ∧
      decodeDigits bits table (encodeDigits bits charset v) = some v := by
  have bytes : ∀ d ∈ v.map UInt8.toNat, d < 2 ^ 8 := by
    intro d mem
    obtain ⟨byte, -, rfl⟩ := mem_map.mp mem
    exact byte.toNat_lt
  obtain ⟨out, padding, padded, few, count, small, -⟩ := convertBits_pad alphabet.positive bytes
  obtain ⟨out', padded', -, -, back⟩ := convertBits_back alphabet.positive alphabet.narrow bytes
  cases padded.symm.trans padded'
  refine ⟨padding, few, ?_, ?_⟩
  · rw [encodeDigits, padded, length_map, count, length_map]
  · rw [encodeDigits, padded, decodeDigits, mapM_charset alphabet small]
    simpa [back] using map_toNat_ofNat v

theorem encodeDigits_decodeDigits {v} (read : decodeDigits bits table s = some v) :
    encodeDigits bits charset v = s.map lower ∧ ch '=' ∉ s := by
  obtain ⟨values, values_eq, later⟩ := Option.bind_eq_some_iff.mp read
  obtain ⟨small, chars, clear⟩ := mapM_tableValue alphabet values_eq
  rcases converted : convertBits bits 8 false values with ⟨ret, valid⟩
  rw [converted] at later
  cases valid with
  | false => cases later
  | true =>
    cases later
    obtain ⟨bytes, back⟩ := convertBits_forth alphabet.positive alphabet.narrow small converted
    refine ⟨?_, clear⟩
    rw [encodeDigits, map_ofNat_toNat bytes, back, chars]

variable {size : Nat} {steps : List Nat}

theorem decodePadded_padTo (v : List UInt8)
    (fits : ∀ n padding, padding < bits → bits * n = 8 * v.length + padding →
      padLeft steps ((size - n % size) % size) = 0 ∧ (n + (size - n % size) % size) % size = 0) :
    decodePadded bits size steps table (padTo size (encodeDigits bits charset v)) = some v := by
  obtain ⟨padding, few, count, back⟩ := decodeDigits_encodeDigits alphabet v
  have last : ∀ c ∈ (encodeDigits bits charset v).reverse.head?, c ≠ ch '=' := by
    intro c first pad
    exact (encodeDigits_decodeDigits alphabet back).2
      (pad ▸ mem_reverse.mp (mem_of_mem_head? first))
  obtain ⟨none, whole⟩ := fits _ padding few count
  rw [decodePadded, if_neg (not_not.mpr (by simpa [padTo] using whole)), padTo,
    removePads_eq _ _ last, none, replicate_zero, append_nil, back]

theorem padTo_decodePadded {v}
    (few : ∀ n p, padLeft steps p = 0 → (n + p) % size = 0 → (size - n % size) % size = p)
    (read : decodePadded bits size steps table s = some v) :
    s.map lower = padTo size (encodeDigits bits charset v) := by
  rw [decodePadded] at read
  split at read
  · cases read
  rename_i whole
  obtain ⟨p, rest, isRest, lead⟩ := split_lead (ch '=') s.reverse
  obtain rfl : s = rest.reverse ++ replicate p (ch '=') := by
    rw [← reverse_inj, isRest, reverse_append, reverse_replicate, reverse_reverse]
  rw [removePads_eq _ _ (by rwa [reverse_reverse])] at read
  obtain ⟨written, clear⟩ := encodeDigits_decodeDigits alphabet read
  have none : padLeft steps p = 0 := by
    by_contra some
    exact clear (mem_append_right _ (mem_replicate.mpr ⟨some, rfl⟩))
  rw [none, replicate_zero, append_nil] at written
  rw [length_append, length_replicate, not_not] at whole
  rw [padTo, written, length_map, few _ p none whole, map_append, map_replicate, alphabet.pad.2]

end Alphabet

theorem alphabet64 : Alphabet 6 pbase64 decode64Table id := by
  refine ⟨by decide, by decide, by decide +kernel, by decide +kernel, ?_⟩
  rintro ⟨⟨g⟩⟩
  revert g
  decide +kernel

theorem alphabet32 : Alphabet 5 pbase32 decode32Table toLower := by
  refine ⟨by decide, by decide, by decide +kernel, by decide +kernel, ?_⟩
  rintro ⟨⟨g⟩⟩
  revert g
  decide +kernel

/-- Decoding undoes the padded encodings and accepts nothing else, but for the case of the
    letters of Base32. -/
theorem base64_base32_canonical :
    (∀ v, decodeBase64 (encodeBase64 v) = some v ∧ decodeBase32 (encodeBase32 v true) = some v) ∧
    ∀ s v, (decodeBase64 s = some v → s = encodeBase64 v) ∧
      (decodeBase32 s = some v → s.map toLower = encodeBase32 v true) := by
  refine ⟨fun v => ⟨?_, ?_⟩, fun s v => ⟨fun read => ?_, fun read => ?_⟩⟩
  · refine decodePadded_padTo alphabet64 v fun n padding few count => ?_
    simp only [padLeft, foldl_cons, foldl_nil]
    split_ifs <;> omega
  · refine decodePadded_padTo alphabet32 v fun n padding few count => ?_
    simp only [padLeft, foldl_cons, foldl_nil]
    split_ifs <;> omega
  · rw [← map_id s]
    refine padTo_decodePadded alphabet64 (fun n p => ?_) read
    simp only [padLeft, foldl_cons, foldl_nil]
    split_ifs <;> omega
  · refine padTo_decodePadded alphabet32 (fun n p => ?_) read
    simp only [padLeft, foldl_cons, foldl_nil]
    split_ifs <;> omega

end HobbyHash.StrEncodings
