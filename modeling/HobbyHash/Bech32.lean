import HobbyHash.Machine
import HobbyHash.StrEncodings
import Mathlib.Data.BitVec

/-! # Bech32 and Bech32m

`Encode` and `Decode` of `bech32.cpp`. The checksum is a remainder of polynomials over
the field of 32 elements. A step of the remainder is linear in exclusive or up to the
symbol that enters, so the six symbols that `CreateChecksum` computes from the
remainder of six zeros bring the remainder to the constant that `VerifyChecksum`
wants.
-/

namespace HobbyHash.Bech32

open Machine StrEncodings Library.Radix List UInt8 Nat

inductive Encoding where
  | invalid
  | bech32
  | bech32m
  deriving DecidableEq, Repr

variable {encoding : Encoding} (mod : BitVec 32) (values : List UInt8) {s : List UInt8}

structure DecodeResult where
  encoding : Encoding := .invalid
  hrp : List UInt8 := []
  data : List UInt8 := []
  deriving DecidableEq, Repr

def charset : List UInt8 :=
  str ['q', 'p', 'z', 'r', 'y', '9', 'x', '8', 'g', 'f', '2', 't', 'v', 'd', 'w', '0',
    's', '3', 'j', 'n', '5', '4', 'k', 'h', 'c', 'e', '6', 'm', 'u', 'a', '7', 'l']

def charsetRev : List Int :=
  [-1, -1, -1, -1, -1, -1, -1, -1, -1, -1, -1, -1, -1, -1, -1, -1,
   -1, -1, -1, -1, -1, -1, -1, -1, -1, -1, -1, -1, -1, -1, -1, -1,
   -1, -1, -1, -1, -1, -1, -1, -1, -1, -1, -1, -1, -1, -1, -1, -1,
   15, -1, 10, 17, 21, 20, 26, 30, 7, 5, -1, -1, -1, -1, -1, -1,
   -1, 29, -1, 24, 13, 25, 9, 8, 23, -1, 18, 22, 31, 27, 19, -1,
   1, 0, 3, 16, 11, 28, 12, 14, 6, 4, 2, -1, -1, -1, -1, -1,
   -1, 29, -1, 24, 13, 25, 9, 8, 23, -1, 18, 22, 31, 27, 19, -1,
   1, 0, 3, 16, 11, 28, 12, 14, 6, 4, 2, -1, -1, -1, -1, -1]

def encodingConstant : Encoding → Except Fault (BitVec 32)
  | .invalid => .error (.assertion "encoding == Encoding::BECH32 || encoding == Encoding::BECH32M")
  | .bech32 => .ok 1
  | .bech32m => .ok 0x2bc830a3

/-- The body of the loop of `PolyMod`. -/
def polyModStep (c : BitVec 32) (v : UInt8) : BitVec 32 :=
  let c0 := c >>> 25
  let c := ((c &&& 0x1ffffff) <<< 5) ^^^ v.toBitVec.setWidth 32
  let c := if c0.getLsbD 0 then c ^^^ 0x3b6a57b2 else c
  let c := if c0.getLsbD 1 then c ^^^ 0x26508e6d else c
  let c := if c0.getLsbD 2 then c ^^^ 0x1ea119fa else c
  let c := if c0.getLsbD 3 then c ^^^ 0x3d4233dd else c
  if c0.getLsbD 4 then c ^^^ 0x2a1462b3 else c

def polyMod (v : List UInt8) : BitVec 32 := v.foldl polyModStep 1

/-- `CheckCharacters`: the places of the characters that are not allowed, with the
    cases met so far. -/
def checkCharacters (lower upper : Bool) (i : Nat) : List UInt8 → List Nat
  | [] => []
  | c :: s =>
    if c ≥ ch 'a' ∧ c ≤ ch 'z' then
      if upper then i :: checkCharacters lower upper (i + 1) s
      else checkCharacters true upper (i + 1) s
    else if c ≥ ch 'A' ∧ c ≤ ch 'Z' then
      if lower then i :: checkCharacters lower upper (i + 1) s
      else checkCharacters lower true (i + 1) s
    else if c < 33 ∨ c > 126 then i :: checkCharacters lower upper (i + 1) s
    else checkCharacters lower upper (i + 1) s

def expandHRP (hrp : List UInt8) : List UInt8 :=
  hrp.map (fun c : UInt8 => c >>> 5) ++ 0 :: hrp.map (fun c : UInt8 => c &&& 0x1f)

def verifyChecksum (hrp values : List UInt8) : Except Fault Encoding := do
  let check := polyMod (expandHRP hrp ++ values)
  if check = (← encodingConstant .bech32) then return .bech32
  if check = (← encodingConstant .bech32m) then return .bech32m
  return .invalid

def checksumGroups (mod : BitVec 32) : List UInt8 :=
  (List.range 6).map fun i => ofBitVec (((mod >>> (5 * (5 - i))) &&& 31).setWidth 8)

def createChecksum (encoding : Encoding) (hrp values : List UInt8) : Except Fault (List UInt8) := do
  let enc := expandHRP hrp ++ values ++ List.replicate 6 0
  let mod := polyMod enc ^^^ (← encodingConstant encoding)
  return checksumGroups mod

def symbol (c : UInt8) : Except Fault UInt8 :=
  match charset[c.toNat]? with
  | some s => .ok s
  | none => .error (.exception "index out of range")

def encode (encoding : Encoding) (hrp values : List UInt8) : Except Fault (List UInt8) := do
  assert (hrp.all fun c => c < ch 'A' || c > ch 'Z') "c < 'A' || c > 'Z'"
  let checksum ← createChecksum encoding hrp values
  return hrp ++ ch '1' :: (← (values ++ checksum).mapM symbol)

def rfind (s : List UInt8) (c : UInt8) : Option Nat :=
  (s.reverse.findIdx? (· = c)).map fun i => s.length - 1 - i

def symbolValue (c : UInt8) : Option UInt8 :=
  let rev := charsetRev.getD c.toNat (-1)
  if rev = -1 then none else some (ofNat rev.toNat)

def decode (s : List UInt8) : Except Fault DecodeResult :=
  if checkCharacters false false 0 s ≠ [] then .ok {}
  else
    match rfind s (ch '1') with
    | none => .ok {}
    | some pos =>
      if s.length > 90 ∨ pos = 0 ∨ pos + 7 > s.length then .ok {}
      else
        match (s.drop (pos + 1)).mapM symbolValue with
        | none => .ok {}
        | some values => do
          let hrp := (s.take pos).map toLower
          let result ← verifyChecksum hrp values
          if result = .invalid then return {}
          return { encoding := result, hrp := hrp, data := values.take (values.length - 6) }

/-- A constant that a bit switches on. -/
def select (bit : Bool) (k : BitVec 32) : BitVec 32 := if bit then k else 0

theorem select_xor (p q : Bool) (k : BitVec 32) :
    select (p ^^ q) k = select p k ^^^ select q k := by
  cases p <;> cases q <;> simp [select]

theorem ite_xor (p : Bool) (c k : BitVec 32) : (if p then c ^^^ k else c) = c ^^^ select p k := by
  cases p <;> simp [select]

/-- A step without the symbol that enters. -/
def mix (c : BitVec 32) : BitVec 32 :=
  ((c &&& 0x1ffffff) <<< 5) ^^^ select ((c >>> 25).getLsbD 0) 0x3b6a57b2 ^^^
    select ((c >>> 25).getLsbD 1) 0x26508e6d ^^^ select ((c >>> 25).getLsbD 2) 0x1ea119fa ^^^
    select ((c >>> 25).getLsbD 3) 0x3d4233dd ^^^ select ((c >>> 25).getLsbD 4) 0x2a1462b3

theorem polyModStep_eq (c : BitVec 32) (v : UInt8) :
    polyModStep c v = mix c ^^^ v.toBitVec.setWidth 32 := by
  simp only [polyModStep, ite_xor, mix]
  ac_rfl

theorem mix_xor (a b : BitVec 32) : mix (a ^^^ b) = mix a ^^^ mix b := by
  have distrib : (a ^^^ b) &&& 0x1ffffff = (a &&& 0x1ffffff) ^^^ (b &&& 0x1ffffff) := by
    ext i bound
    simp [Bool.and_xor_distrib_right]
  simp only [mix, distrib, BitVec.shiftLeft_xor_distrib, BitVec.ushiftRight_xor_distrib,
    BitVec.getLsbD_xor, select_xor]
  ac_rfl

theorem foldl_xor (a b : BitVec 32) (values : List UInt8) :
    values.foldl polyModStep (a ^^^ b) =
      (List.replicate values.length 0).foldl polyModStep a ^^^ values.foldl polyModStep b := by
  induction values generalizing a b with
  | nil => rfl
  | cons v values ih =>
    have step : polyModStep (a ^^^ b) v = polyModStep a 0 ^^^ polyModStep b v := by
      simp only [polyModStep_eq, mix_xor]
      have zero : (0 : UInt8).toBitVec.setWidth 32 = 0#32 := by decide
      rw [zero, BitVec.xor_zero, BitVec.xor_assoc]
    rw [foldl_cons, step, ih, length_cons, replicate_succ, foldl_cons,
      foldl_cons]

theorem polyModStep_small (low : c.toNat < 2 ^ 25) (group : v.toNat < 32) :
    (polyModStep c v).toNat = 32 * c.toNat + v.toNat := by
  have none : c >>> 25 = 0 := by
    apply BitVec.eq_of_toNat_eq
    rw [BitVec.toNat_ushiftRight, shiftRight_eq_div_pow, div_eq_of_lt low]
    rfl
  have kept : (c &&& 0x1ffffff).toNat = c.toNat := by
    exact (and_two_pow_sub_one_eq_mod c.toNat 25).trans (mod_eq_of_lt low)
  have moved : ((c &&& 0x1ffffff) <<< 5).toNat = 2 ^ 5 * c.toNat := by
    rw [BitVec.toNat_shiftLeft, kept, shiftLeft_eq, mod_eq_of_lt (by omega), mul_comm]
  have entered : (v.toBitVec.setWidth 32).toNat = v.toNat := by
    rw [BitVec.toNat_setWidth]
    exact mod_eq_of_lt (by omega)
  rw [polyModStep_eq, mix, none]
  simp only [BitVec.getLsbD_zero, select, Bool.false_eq_true, if_false, BitVec.ofNat_eq_ofNat,
    BitVec.xor_zero]
  rw [BitVec.toNat_xor, entered]
  apply eq_of_testBit_eq
  intro i
  rw [show 32 * c.toNat = 2 ^ 5 * c.toNat from rfl, testBit_two_pow_mul_add _ group,
    testBit_xor]
  simp only [BitVec.ofNat_eq_ofNat] at moved
  rw [moved, testBit_two_pow_mul]
  by_cases lt : i < 5
  · simp [lt, not_le.mpr lt]
  · have le : 2 ^ 5 ≤ 2 ^ i := Nat.pow_le_pow_right (by decide) (Nat.not_lt.mp lt)
    have high : v.toNat.testBit i = false := testBit_lt_two_pow (lt_of_lt_of_le group le)
    simp [lt, high, Nat.not_lt.mp lt]

theorem polyModStep_lt (c : BitVec 32) (v : UInt8) : (polyModStep c v).toNat < 2 ^ 30 := by
  have chosen :
      ∀ (bit : Bool) (k : BitVec 32), k.toNat < 2 ^ 30 → (select bit k).toNat < 2 ^ 30 := by
    intro bit k low
    cases bit with
    | false => exact Nat.two_pow_pos 30
    | true => exact low
  have moved : ((c &&& 0x1ffffff) <<< 5).toNat < 2 ^ 30 := by
    have low : (c &&& 0x1ffffff).toNat < 2 ^ 25 := by
      exact and_lt_two_pow _ (by decide)
    exact lt_of_le_of_lt (mod_le _ _) (by omega)
  have lt : (v.toBitVec.setWidth 32).toNat < 2 ^ 30 := by
    rw [BitVec.toNat_setWidth]
    have small := v.toNat_lt
    exact lt_of_le_of_lt (mod_le _ _) (lt_trans small (by decide))
  rw [polyModStep_eq, mix]
  refine xor_lt_two_pow (xor_lt_two_pow (xor_lt_two_pow (xor_lt_two_pow
    (xor_lt_two_pow (xor_lt_two_pow moved ?_) ?_) ?_) ?_) ?_) lt
  all_goals exact chosen _ _ (by decide)

theorem polyMod_concat_lt (v : UInt8) :
    (polyMod (values ++ [v])).toNat < 2 ^ 30 := by
  rw [polyMod, foldl_append]
  exact polyModStep_lt _ v

theorem checksumGroup_toNat (shift : Nat) :
    (ofBitVec (((mod >>> shift) &&& 31).setWidth 8)).toNat = mod.toNat / 2 ^ shift % 32 := by
  have group : ((mod >>> shift) &&& 31).toNat = mod.toNat / 2 ^ shift % 32 := by
    rw [BitVec.toNat_and, BitVec.toNat_ushiftRight, shiftRight_eq_div_pow]
    exact and_two_pow_sub_one_eq_mod _ 5
  rw [toNat_ofBitVec, BitVec.toNat_setWidth, group]
  exact mod_eq_of_lt (lt_trans (mod_lt _ (by decide)) (by decide))

theorem checksumGroups_small : ∀ v ∈ checksumGroups mod, v.toNat < 32 := by
  intro v mem
  obtain ⟨i, -, rfl⟩ := mem_map.mp mem
  rw [checksumGroup_toNat]
  exact mod_lt _ (by decide)

@[simp] theorem length_checksumGroups : (checksumGroups mod).length = 6 := by
  simp [checksumGroups]

theorem foldl_groups {groups : List UInt8} (few : groups.length ≤ 6)
    (small : ∀ v ∈ groups, v.toNat < 32) :
    (groups.foldl polyModStep 0#32).toNat = value 32 (groups.map toNat) := by
  induction groups using reverseRecOn with
  | nil => rfl
  | append_singleton groups v ih =>
    rw [length_append, length_singleton] at few
    have smallFirst : ∀ v ∈ groups, v.toNat < 32 :=
      fun w member => small w (mem_append_left _ member)
    have first := ih (by omega) smallFirst
    have lt : value 32 (groups.map toNat) < 2 ^ 25 := by
      refine (value_lt (by decide) ?_).trans_le ?_
      · simpa using smallFirst
      · rw [length_map]
        exact (Nat.pow_le_pow_right (by decide) (by omega) : 32 ^ groups.length ≤ 32 ^ 5)
    rw [foldl_concat, polyModStep_small (by rw [first]; exact lt) (small v (by simp)), first]
    simp

theorem foldl_checksumGroups {mod : BitVec 32} (lt : mod.toNat < 2 ^ 30) :
    (checksumGroups mod).foldl polyModStep 0#32 = mod := by
  apply BitVec.eq_of_toNat_eq
  rw [foldl_groups (length_checksumGroups mod).le (checksumGroups_small mod)]
  have digits : (checksumGroups mod).map toNat = [mod.toNat / 2 ^ 25 % 32, mod.toNat / 2 ^ 20 % 32,
      mod.toNat / 2 ^ 15 % 32, mod.toNat / 2 ^ 10 % 32, mod.toNat / 2 ^ 5 % 32,
      mod.toNat % 32] := by
    rw [checksumGroups, map_map]
    simp only [Function.comp_def, checksumGroup_toNat]
    simp [range_succ]
  rw [digits]
  simp [value]
  omega

theorem polyMod_checksum (lt : constant.toNat < 2 ^ 30) :
    polyMod (values ++ checksumGroups (polyMod (values ++ List.replicate 6 0) ^^^ constant)) =
      constant := by
  have low : (polyMod (values ++ replicate 6 0)).toNat < 2 ^ 30 := by
    have split : values ++ replicate 6 (0 : UInt8) = (values ++ replicate 5 0) ++ [0] := by
      rw [append_assoc]
      rfl
    rw [split]
    exact polyMod_concat_lt _ _
  have groups := @foldl_checksumGroups (polyMod (values ++ replicate 6 0) ^^^ constant)
    (by rw [BitVec.toNat_xor]; exact xor_lt_two_pow low lt)
  have apart := foldl_xor (values.foldl polyModStep 1) 0#32
    (checksumGroups (polyMod (values ++ replicate 6 0) ^^^ constant))
  rw [BitVec.xor_zero, length_checksumGroups, groups] at apart
  rw [polyMod, foldl_append, apart, polyMod, foldl_append, ← BitVec.xor_assoc, BitVec.xor_self,
    BitVec.zero_xor]

theorem encodingConstant_spec (ne : encoding ≠ .invalid) :
    ∃ constant, encodingConstant encoding = .ok constant ∧ constant.toNat < 2 ^ 30 := by
  cases encoding with
  | invalid => exact absurd rfl ne
  | bech32 => exact ⟨_, rfl, by decide⟩
  | bech32m => exact ⟨_, rfl, by decide⟩

theorem createChecksum_spec (ne : encoding ≠ .invalid) (hrp values : List UInt8) :
    ∃ checksum, createChecksum encoding hrp values = .ok checksum ∧ checksum.length = 6 ∧
      (∀ v ∈ checksum, v.toNat < 32) ∧ verifyChecksum hrp (values ++ checksum) = .ok encoding := by
  obtain ⟨constant, found, fits⟩ := encodingConstant_spec ne
  refine ⟨_, by rw [createChecksum, found]; rfl, length_checksumGroups _,
    checksumGroups_small _, ?_⟩
  rw [verifyChecksum, ← append_assoc, polyMod_checksum _ fits]
  cases encoding with
  | invalid => exact absurd rfl ne
  | bech32 =>
    cases found
    rfl
  | bech32m =>
    cases found
    rfl

/-- The characters of symbols are read back, are lower case, and are not the separator. -/
theorem charset_spec : ∀ v < 32, ∃ c, charset[v]? = some c ∧
    symbolValue c = some (ofNat v) ∧ c ≠ ch '1' ∧ (c < ch 'A' ∨ ch 'Z' < c) ∧ 33 ≤ c ∧
    c ≤ 126 := by
  intro v small
  have all : ∀ v : Fin 32, symbolValue (charset.get ⟨v, v.isLt⟩) = some (ofNat v) ∧
      charset.get ⟨v, v.isLt⟩ ≠ ch '1' ∧
      (charset.get ⟨v, v.isLt⟩ < ch 'A' ∨ ch 'Z' < charset.get ⟨v, v.isLt⟩) ∧
      33 ≤ charset.get ⟨v, v.isLt⟩ ∧ charset.get ⟨v, v.isLt⟩ ≤ 126 := by
    decide +kernel
  exact ⟨_, getElem?_eq_getElem _, all ⟨v, small⟩⟩

def Plain (s : List UInt8) : Prop := ∀ c ∈ s, (c < ch 'A' ∨ ch 'Z' < c) ∧ 33 ≤ c ∧ c ≤ 126

theorem mapM_symbol {values : List UInt8} (small : ∀ v ∈ values, v.toNat < 32) :
    ∃ s, values.mapM symbol = .ok s ∧ s.length = values.length ∧ s.mapM symbolValue = some values ∧
      Plain s ∧ ch '1' ∉ s := by
  induction values with
  | nil => exact ⟨[], rfl, rfl, rfl, by simp [Plain], by simp⟩
  | cons v values ih =>
    obtain ⟨s, written, length, back, plain, clear⟩ :=
      ih (forall_mem_cons.mp small).2
    obtain ⟨c, isC, value, other, printable⟩ := charset_spec v.toNat (small v mem_cons_self)
    refine ⟨c :: s, ?_, by rw [length_cons, length_cons, length], ?_, ?_, ?_⟩
    · rw [mapM_cons, symbol, isC, written]
      rfl
    · rw [mapM_cons, value, back, UInt8.ofNat_toNat]
      rfl
    · exact forall_mem_cons.mpr ⟨printable, plain⟩
    · rw [mem_cons, not_or]
      exact ⟨other.symm, clear⟩

theorem checkCharacters_plain (plain : Plain s) (lower : Bool) (i : Nat) :
    checkCharacters lower false i s = [] := by
  induction s generalizing lower i with
  | nil => rfl
  | cons c s ih =>
    obtain ⟨⟨noUpper, low, high⟩, rest⟩ := forall_mem_cons.mp plain
    have printable : ¬ (c < 33 ∨ c > 126) :=
      not_or.mpr ⟨UInt8.not_lt.mpr low, UInt8.not_lt.mpr high⟩
    have notUpper : ¬ (c ≥ ch 'A' ∧ c ≤ ch 'Z') := by
      rintro ⟨above, lt⟩
      rcases noUpper with before | after
      · exact absurd above (UInt8.not_le.mpr before)
      · exact absurd lt (UInt8.not_le.mpr after)
    rw [checkCharacters, if_neg notUpper, if_neg printable, ih rest, ih rest]
    simp

theorem map_toLower_plain (plain : Plain s) : s.map toLower = s := by
  induction s with
  | nil => rfl
  | cons c s ih =>
    obtain ⟨⟨noUpper, -, -⟩, rest⟩ := forall_mem_cons.mp plain
    rw [map_cons, ih rest, toLower, if_neg]
    rintro ⟨above, lt⟩
    rcases noUpper with before | after
    · exact absurd above (UInt8.not_le.mpr before)
    · exact absurd lt (UInt8.not_le.mpr after)

theorem rfind_separator (clear : ch '1' ∉ s) :
    rfind (hrp ++ ch '1' :: s) (ch '1') = some hrp.length := by
  have found : (hrp ++ ch '1' :: s).reverse.findIdx? (· = ch '1') = some s.length := by
    have none : s.reverse.findIdx? (· = ch '1') = none := by
      rw [findIdx?_eq_none_iff]
      intro c mem
      rw [mem_reverse] at mem
      exact decide_eq_false fun same => clear (same ▸ mem)
    simp [none, findIdx?_cons]
  rw [rfind, found, Option.map_some, length_append, length_cons]
  congr 1
  omega

theorem verifyChecksum_spec {hrp values : List UInt8} (ne : encoding ≠ .invalid)
    (verified : verifyChecksum hrp values = .ok encoding) :
    encodingConstant encoding = .ok (polyMod (expandHRP hrp ++ values)) := by
  simp only [verifyChecksum, encodingConstant, ok_bind] at verified
  split at verified
  · rename_i same
    cases verified
    rw [same]
    rfl
  split at verified
  · rename_i same
    cases verified
    rw [same]
    rfl
  · cases verified
    exact absurd rfl ne

/-- The checksum is the only one that brings the remainder to the constant. -/
theorem checksum_unique {hrp values last checksum : List UInt8} (six : last.length = 6)
    (small : ∀ v ∈ last, v.toNat < 32) (ne : encoding ≠ .invalid)
    (created : createChecksum encoding hrp values = .ok checksum)
    (verified : verifyChecksum hrp (values ++ last) = .ok encoding) : last = checksum := by
  obtain ⟨checksum', created', six', small', verified'⟩ := createChecksum_spec ne hrp values
  cases created'.symm.trans created
  have remainder : ∀ more : List UInt8, more.length = 6 →
      verifyChecksum hrp (values ++ more) = .ok encoding →
      encodingConstant encoding = .ok ((replicate 6 0).foldl polyModStep
        (polyMod (expandHRP hrp ++ values)) ^^^ more.foldl polyModStep 0#32) := by
    intro more length accepted
    have apart := foldl_xor (polyMod (expandHRP hrp ++ values)) 0#32 more
    rw [BitVec.xor_zero, length] at apart
    rw [← apart, polyMod, ← foldl_append, ← polyMod, append_assoc]
    exact verifyChecksum_spec ne accepted
  have same := Except.ok.inj
    ((remainder last six verified).symm.trans (remainder checksum six' verified'))
  rw [BitVec.xor_right_inj] at same
  have values := congrArg BitVec.toNat same
  rw [foldl_groups six.le small, foldl_groups six'.le small'] at values
  have digits := value_injective (by decide) (by simpa using small) (by simpa using small')
    (by simp [six, six']) values
  rw [← map_toNat_ofNat last, digits, map_toNat_ofNat]

theorem toLower_lower : ∀ c : UInt8, toLower c < ch 'A' ∨ ch 'Z' < toLower c := by
  rintro ⟨⟨g⟩⟩
  revert g
  decide +kernel

theorem symbolValue_only : ∀ c : UInt8, ∀ v ∈ symbolValue c,
    v.toNat < 32 ∧ charset[v.toNat]? = some (toLower c) := by
  rintro ⟨⟨g⟩⟩
  revert g
  decide +kernel

theorem mapM_symbolValue {values : List UInt8} (read : s.mapM symbolValue = some values) :
    values.mapM symbol = .ok (s.map toLower) ∧ (∀ v ∈ values, v.toNat < 32) ∧
      values.length = s.length := by
  induction s generalizing values with
  | nil =>
    cases read
    exact ⟨rfl, nofun, rfl⟩
  | cons c s ih =>
    rw [mapM_cons] at read
    obtain ⟨v, first, later⟩ := Option.bind_eq_some_iff.mp read
    obtain ⟨rest, second, same⟩ := Option.bind_eq_some_iff.mp later
    cases same
    obtain ⟨small, isC⟩ := symbolValue_only c v first
    obtain ⟨written, smallRest, length⟩ := ih second
    refine ⟨?_, forall_mem_cons.mpr ⟨small, smallRest⟩, by rw [length_cons, length, length_cons]⟩
    rw [mapM_cons, symbol, isC, written]
    rfl

theorem rfind_split (found : rfind s c = some pos) :
    s = s.take pos ++ c :: s.drop (pos + 1) := by
  obtain ⟨i, isI, rfl⟩ := Option.map_eq_some_iff.mp found
  obtain ⟨bound, here, -⟩ := findIdx?_eq_some_iff_getElem.mp isI
  rw [length_reverse] at bound
  rw [getElem_reverse, decide_eq_true_iff] at here
  conv_lhs => rw [← take_append_drop (s.length - 1 - i) s]
  rw [drop_eq_getElem_cons (by omega), here]

theorem encode_decode (decoded : decode s = .ok r) (ne : r.encoding ≠ .invalid) :
    encode r.encoding r.hrp r.data = .ok (s.map toLower) := by
  rw [decode] at decoded
  split at decoded
  · cases decoded
    exact absurd rfl ne
  split at decoded
  · cases decoded
    exact absurd rfl ne
  rename_i pos found
  split at decoded
  · cases decoded
    exact absurd rfl ne
  rename_i inside
  split at decoded
  · cases decoded
    exact absurd rfl ne
  rename_i values read
  obtain ⟨result, verified, returned⟩ := bind_eq_ok.mp decoded
  split at returned
  · cases returned
    exact absurd rfl ne
  rename_i accepted
  cases returned
  have split := rfind_split found
  obtain ⟨written, small, count⟩ := mapM_symbolValue read
  rw [length_drop] at count
  obtain ⟨checksum, created, -⟩ := createChecksum_spec accepted ((s.take pos).map toLower)
    (values.take (values.length - 6))
  have six : (values.drop (values.length - 6)).length = 6 := by
    rw [length_drop]
    omega
  have last := checksum_unique six (fun v mem => small v (mem_of_mem_drop mem)) accepted created
    (by rw [take_append_drop]; exact verified)
  rw [← last] at created
  have lower : ((s.take pos).map toLower).all (fun c => c < ch 'A' || c > ch 'Z') = true := by
    rw [all_map, all_eq_true]
    exact fun c _ => by simpa using toLower_lower c
  simp only [encode, lower, assert, if_true, created, take_append_drop, written, ok_bind]
  conv_rhs => rw [split, map_append, map_cons]
  rfl

theorem decode_encode {hrp values : List UInt8} (valid : encoding ≠ .invalid) (plain : Plain hrp)
    (ne : hrp ≠ []) (small : ∀ v ∈ values, v.toNat < 32)
    (le : hrp.length + values.length + 7 ≤ 90) :
    ∃ s, encode encoding hrp values = .ok s ∧ hrp <+: s ∧
      decode s = .ok { encoding := encoding, hrp := hrp, data := values } := by
  obtain ⟨checksum, created, six, smallToo, verified⟩ := createChecksum_spec valid hrp values
  obtain ⟨s, written, length, back, plainToo, clear⟩ := @mapM_symbol (values ++ checksum) (by
    intro v mem
    rcases mem_append.mp mem with early | late
    · exact small v early
    · exact smallToo v late)
  have lower : hrp.all (fun c => c < ch 'A' || c > ch 'Z') = true := by
    rw [all_eq_true]
    intro c mem
    simpa using (plain c mem).1
  have allPlain : Plain (hrp ++ ch '1' :: s) := by
    intro c mem
    rcases mem_append.mp mem with early | late
    · exact plain c early
    · rcases mem_cons.mp late with rfl | later
      · decide
      · exact plainToo c later
  refine ⟨hrp ++ ch '1' :: s, ?_, prefix_append _ _, ?_⟩
  · simp only [encode, lower, assert, if_true, created, written, ok_bind]
    rfl
  have pos : hrp.length ≠ 0 := fun empty => ne (length_eq_zero_iff.mp empty)
  rw [length_append] at length
  have lt : ¬ ((hrp ++ ch '1' :: s).length > 90 ∨ hrp.length = 0 ∨
      hrp.length + 7 > (hrp ++ ch '1' :: s).length) := by
    rw [length_append, length_cons]
    omega
  have rest : (hrp ++ ch '1' :: s).drop (hrp.length + 1) = s := by
    rw [← drop_drop, drop_left]
    rfl
  rw [decode, checkCharacters_plain allPlain]
  simp only [ne_eq, not_true_eq_false, if_false, rfind_separator clear, if_neg lt, rest, back,
    take_left, map_toLower_plain plain, verified, ok_bind, valid]
  simp [six, pure, Except.pure]

def Encodable (encoding : Encoding) (hrp values : List UInt8) : Prop :=
  encoding ≠ .invalid ∧ Plain hrp ∧ hrp ≠ [] ∧ (∀ v ∈ values, v.toNat < 32) ∧
    hrp.length + values.length + 7 ≤ 90

/-- Decoding undoes encoding and every accepted string is an encoding but for its case, so
    the two encodings have no string in common and no two strings decode alike. -/
theorem bech32_inverse :
    (∀ encoding hrp values, Encodable encoding hrp values → ∃ s,
      encode encoding hrp values = .ok s ∧
      decode s = .ok { encoding := encoding, hrp := hrp, data := values }) ∧
    (∀ s r, decode s = .ok r → r.encoding ≠ .invalid →
      encode r.encoding r.hrp r.data = .ok (s.map toLower)) ∧
    (∀ hrp values hrp' values', Encodable .bech32 hrp values → Encodable .bech32m hrp' values' →
      encode .bech32 hrp values ≠ encode .bech32m hrp' values') ∧
    ∀ s s' r, decode s = .ok r → decode s' = .ok r → r.encoding ≠ .invalid →
      s.map toLower = s'.map toLower := by
  have inverse : ∀ encoding hrp values, Encodable encoding hrp values → ∃ s,
      encode encoding hrp values = .ok s ∧
      decode s = .ok { encoding := encoding, hrp := hrp, data := values } := by
    rintro encoding hrp values ⟨valid, plain, nonempty, small, short⟩
    obtain ⟨s, encoded, -, decoded⟩ := decode_encode valid plain nonempty small short
    exact ⟨s, encoded, decoded⟩
  refine ⟨inverse, fun s r => encode_decode, ?_, fun s s' r first second valid => ?_⟩
  · intro hrp values hrp' values' first second same
    obtain ⟨s, encoded, decoded⟩ := inverse _ _ _ first
    obtain ⟨s', encoded', decoded'⟩ := inverse _ _ _ second
    cases encoded.symm.trans (same.trans encoded')
    cases decoded.symm.trans decoded'
  · exact Except.ok.inj ((encode_decode first valid).symm.trans (encode_decode second valid))

end HobbyHash.Bech32
