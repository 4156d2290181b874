import HobbyHash.Library.Codec
import HobbyHash.StrEncodings
import HobbyHash.Validation.TimeLocks

/-! # Script operations

An operation of a script is an opcode with its operand, a push may have several forms, and a
number is pushed as bytes with a sign bit. Reading gives back what was written, and the
minimality rules single out one encoding of each number and the shortest push of each element.
-/

namespace HobbyHash.Validation

open Machine Library StrEncodings UInt8 List Nat

/-- `CScriptNum::serialize`. Its loop takes the digits of the absolute value to base 256. -/
def serialize (value : Int) : List UInt8 :=
  let result := (digits 256 value.natAbs).map ofNat
  match result.getLast? with
  | none => []
  | some back =>
    if back &&& 0x80 ≠ 0 then result ++ [if value < 0 then 0x80 else 0]
    else if value < 0 then result.dropLast ++ [back ||| 0x80]
    else result

/-- The bytes from the lowest, without a sign. -/
def magnitude (vch : List UInt8) : Nat := ofDigits 256 (vch.map toNat)

def signByte (neg : Bool) : UInt8 := if neg then 0x80 else 0

def signed (neg : Bool) (n : Nat) : Int := if neg then -n else n

theorem sign_bit : ∀ c, (if c &&& 0x80 = 0 then c.toNat < 128 else 128 ≤ c.toNat) ∧
    (c &&& 0x7f) &&& 0x80 = 0 ∧ c = (c &&& 0x7f) ||| signByte (c &&& 0x80 ≠ 0) ∧
    (c &&& 0x80 = 0 → ∀ neg, (c ||| signByte neg) &&& 0x7f = c ∧
      (c ||| signByte neg).toNat = c.toNat + (signByte neg).toNat ∧
      ((c ||| signByte neg) &&& 0x80 = 0 ↔ neg = false)) := by
  rintro ⟨⟨c⟩⟩
  revert c
  decide +kernel

theorem natAbs_signed : (signed neg n).natAbs = n := by
  cases neg <;> simp [signed]

theorem magnitude_concat (front : List UInt8) (last : UInt8) :
    magnitude (front ++ [last]) = magnitude front + 256 ^ front.length * last.toNat := by
  simp [magnitude, ofDigits_append]

/-- The last byte holds the sign. -/
theorem setVch_concat (low : c &&& 0x80 = 0) :
    setVch (front ++ [c ||| signByte neg]) = signed neg (magnitude (front ++ [c])) := by
  have whole : ∀ vch : List UInt8,
      vch.foldr (fun byte above => (byte.toNat : Int) + 256 * above) 0 = magnitude vch := by
    intro vch
    induction vch with
    | nil => rfl
    | cons c vch ih => simp [magnitude, ofDigits_cons, ih]
  obtain ⟨-, total, sign⟩ := (sign_bit c).2.2.2 low neg
  simp only [setVch, getLast?_concat, whole, magnitude_concat, length_append, length_singleton,
    Nat.add_sub_cancel, ne_eq, sign, total]
  cases neg with
  | false => simp [signByte, signed]
  | true =>
    simp [signByte, signed]
    ring

theorem scriptNum_concat (low : c &&& 0x80 = 0) :
    scriptNum (front ++ [c ||| signByte neg]) true k =
      if k < front.length + 1 ∨ (c = 0 ∧ front.getLast?.all (fun d => d &&& 0x80 = 0)) then
        .error .unknownError
      else .ok (signed neg (magnitude (front ++ [c]))) := by
  rw [← setVch_concat low]
  have isZero : c = 0 ↔ (c ||| signByte neg) &&& 0x7f = 0 := by
    rw [((sign_bit c).2.2.2 low neg).1]
  simp only [isZero]
  obtain rfl | ⟨rest, d, rfl⟩ := eq_nil_or_concat front <;>
    simp [scriptNum, Nat.lt_succ_iff, ite_or]

/-- The encoding of a number with the highest byte `c`. -/
def encoded (front : List UInt8) (c : UInt8) (neg : Bool) : List UInt8 :=
  if c &&& 0x80 = 0 then front ++ [c ||| signByte neg] else front ++ [c] ++ [0 ||| signByte neg]

theorem exists_bytes {n : Int} (pos : n ≠ 0) :
    ∃ neg front c, c ≠ 0 ∧ n = signed neg (magnitude (front ++ [c])) := by
  have back := map_ofNat_toNat
    fun d (mem : d ∈ digits 256 n.natAbs) => digits_lt_base (by decide) mem
  obtain empty | ⟨front, c, isLast⟩ := eq_nil_or_concat ((digits 256 n.natAbs).map ofNat)
  · simp [pos] at empty
  rw [isLast, concat_eq_append] at back
  refine ⟨n < 0, front, c, ?_, ?_⟩
  · rintro rfl
    have ne := getLast_digit_ne_zero 256 (Int.natAbs_ne_zero.mpr pos)
    simp [← back] at ne
  · rw [magnitude, back, ofDigits_digits, signed]
    grind

theorem serialize_signed (ne : c ≠ 0) :
    serialize (signed neg (magnitude (front ++ [c]))) = encoded front c neg := by
  have isDigits : digits 256 (magnitude (front ++ [c])) = (front ++ [c]).map toNat := by
    refine digits_ofDigits 256 (by decide) _ (fun d mem => ?_) (fun _ => ?_)
    · obtain ⟨byte, -, rfl⟩ := mem_map.mp mem
      exact byte.toNat_lt
    · simpa [← UInt8.toNat_inj] using ne
  have pos : magnitude (front ++ [c]) ≠ 0 := by
    intro zero
    simp [zero] at isDigits
  have sign : signed neg (magnitude (front ++ [c])) < 0 ↔ neg = true := by
    cases neg <;> simp [signed, Nat.pos_of_ne_zero pos]
  have bytes : ((front ++ [c]).map toNat).map ofNat = front ++ [c] := by simp [Function.comp_def]
  simp only [serialize, natAbs_signed, isDigits, bytes, sign, getLast?_concat, dropLast_concat,
    ne_eq, ite_not, encoded]
  cases neg <;> simp [signByte]

theorem scriptNum_encoded (ne : c ≠ 0) (le : (encoded front c neg).length ≤ k) :
    scriptNum (encoded front c neg) true k = .ok (signed neg (magnitude (front ++ [c]))) := by
  unfold encoded at le ⊢
  split
  · rename_i low
    rw [if_pos low, length_append, length_singleton] at le
    rw [scriptNum_concat low, if_neg (by simp [ne, Nat.lt_of_succ_le le])]
  · rename_i high
    rw [scriptNum_concat rfl, if_neg (by simp [high] at le ⊢; omega), magnitude_concat]
    simp

theorem encoded_of_read (read : scriptNum vch true k = .ok n) :
    vch = [] ∨ ∃ front c neg, c ≠ 0 ∧ vch = encoded front c neg := by
  obtain rfl | ⟨front, last, rfl⟩ := eq_nil_or_concat vch
  · exact .inl rfl
  right
  obtain ⟨-, low, isLast, -⟩ := sign_bit last
  generalize last &&& 0x7f = c, decide (last &&& 0x80 ≠ 0) = neg at *
  subst isLast
  rw [concat_eq_append, scriptNum_concat low] at *
  split at read
  · cases read
  rename_i minimal
  by_cases zero : c = 0
  · subst zero
    obtain rfl | ⟨front, d, rfl⟩ := eq_nil_or_concat front
    · simp at minimal
    have high : d &&& 0x80 ≠ 0 := by
      simpa using (not_or.mp minimal).2
    exact ⟨front, d, neg, by rintro rfl; exact high rfl, by simp [encoded, high]⟩
  · exact ⟨front, c, neg, zero, by rw [encoded, if_pos low]⟩

theorem scriptNum_serialize (le : (serialize n).length ≤ k) :
    scriptNum (serialize n) true k = .ok n := by
  by_cases zero : n = 0
  · subst zero
    rfl
  obtain ⟨neg, front, c, ne, rfl⟩ := exists_bytes zero
  rw [serialize_signed ne] at *
  exact scriptNum_encoded ne le

theorem serialize_scriptNum (read : scriptNum vch true k = .ok n) : serialize n = vch := by
  obtain rfl | ⟨front, c, neg, ne, rfl⟩ := encoded_of_read read
  · cases read
    rfl
  rw [scriptNum_encoded ne] at read
  · cases read
    exact serialize_signed ne
  · by_contra long
    simp [scriptNum, not_le.mp long] at read

theorem serialize_length (lt : n.natAbs < 128 * 256 ^ k) : (serialize n).length ≤ k + 1 := by
  by_cases zero : n = 0
  · subst zero
    exact zero_le _
  obtain ⟨neg, front, c, ne, rfl⟩ := exists_bytes zero
  rw [natAbs_signed, magnitude_concat] at lt
  have short (d j) (le : d ≤ c.toNat)
    (lt : magnitude front + 256 ^ front.length * c.toNat < d * 256 ^ j) :
      front.length < j := by
    refine (Nat.pow_lt_pow_iff_right (a := 256) (by decide)).mp
      (Nat.lt_of_mul_lt_mul_left (a := d) (lt.trans_le' ?_))
    rw [Nat.mul_comm]
    exact (Nat.mul_le_mul_left _ le).trans (Nat.le_add_left _ _)
  rw [serialize_signed ne, encoded]
  have bits := (sign_bit c).1
  split at bits
  · rename_i low
    have := short 1 (k + 1) (one_le_iff_ne_zero.mpr (by simpa [← UInt8.toNat_inj] using ne))
      (by omega)
    simpa [low] using this
  · rename_i high
    simpa [high] using short 128 k bits lt

def opPushData1 : UInt8 := 0x4c
def opPushData2 : UInt8 := 0x4d
def opPushData4 : UInt8 := 0x4e
def op1Negate : UInt8 := 0x4f
def op1 : UInt8 := 0x51
def op16 : UInt8 := 0x60

/-- `CScript() << b` of bytes. -/
def pushData (b : List UInt8) : CScript :=
  if b.length < opPushData1.toNat then .ofNat b.length :: b
  else if b.length ≤ 0xff then opPushData1 :: .ofNat b.length :: b
  else if b.length ≤ 0xffff then opPushData2 :: littleEndian 2 b.length ++ b
  else opPushData4 :: littleEndian 4 b.length ++ b

/-- `CScript() << n` of a number. -/
def pushInt64 (n : Int) : CScript :=
  if n = -1 ∨ (n ≥ 1 ∧ n ≤ 16) then [.ofNat (n + (op1.toNat - 1)).toNat]
  else if n = 0 then [0x00]
  else pushData (serialize n)

/-- `GetScriptOp`: the opcode and its immediate operand. -/
def getScriptOp : Reader (UInt8 × List UInt8) := do
  let opcode ← readByte
  if opcode > opPushData4 then return (opcode, [])
  let nSize ←
    if opcode < opPushData1 then pure opcode.toNat
    else if opcode = opPushData1 then readLittleEndian 1
    else if opcode = opPushData2 then readLittleEndian 2
    else readLittleEndian 4
  return (opcode, ← readMany readByte nSize)

def checkMinimalPush (data : List UInt8) (opcode : UInt8) : Except Fault Bool := do
  assert (opcode ≤ opPushData4) "0 <= opcode && opcode <= OP_PUSHDATA4"
  if data.length = 0 then return opcode = 0
  else if data.length = 1 ∧ data.any (fun c => 1 ≤ c ∧ c ≤ 16) then return false
  else if data.length = 1 ∧ data.any (· = 0x81) then return false
  else if data.length ≤ 75 then return opcode.toNat = data.length
  else if data.length ≤ 255 then return opcode = opPushData1
  else if data.length ≤ 65535 then return opcode = opPushData2
  else return true

/-- `CScript::GetOp`. The distance to the end is an `int32_t`, which is negative if the script
    is longer, and nothing is read then. -/
def getOp : Reader (UInt8 × List UInt8) := fun pc =>
  if pc.length < 2 ^ 31 then getScriptOp pc else none

/-- The element that a script of one operation puts on the stack. -/
def putsElement (script : CScript) : Option (List UInt8) :=
  match getScriptOp script with
  | some ((opcode, vch), []) =>
    if opcode ≤ opPushData4 then some vch
    else if opcode = op1Negate ∨ (op1 ≤ opcode ∧ opcode ≤ op16) then
      some (serialize (opcode.toNat - (op1.toNat - 1)))
    else none
  | _ => none

/-- How many bytes follow the opcode of a push for its size. -/
def sizeWidth (opcode : UInt8) : Nat :=
  if opcode < opPushData1 then 0 else if opcode = opPushData1 then 1
  else if opcode = opPushData2 then 2 else 4

def readSize (opcode : UInt8) : Reader Nat :=
  if opcode < opPushData1 then pure opcode.toNat else readLittleEndian (sizeWidth opcode)

def FitsSize (opcode : UInt8) (size : Nat) : Prop :=
  if opcode < opPushData1 then size = opcode.toNat else size < 256 ^ sizeWidth opcode

def opBytes : UInt8 × List UInt8 → CScript
  | (opcode, data) => [opcode] ++ if opcode > opPushData4 then [] else
      littleEndian (sizeWidth opcode) data.length ++ data

def ValidOp : UInt8 × List UInt8 → Prop
  | (opcode, data) => if opcode > opPushData4 then data = [] else FitsSize opcode data.length

theorem format_size (opcode : UInt8) :
    WireFormat (readSize opcode) (littleEndian (sizeWidth opcode)) (FitsSize opcode) := by
  unfold readSize FitsSize
  split
  · rename_i direct
    rw [sizeWidth, if_pos direct]
    refine ⟨fun n fits => fits ▸ .pure _, fun read => ?_⟩
    obtain ⟨rfl, rfl⟩ := pure_eq_some.mp read
    exact ⟨rfl, rfl⟩
  · exact .littleEndian _

theorem getScriptOp_eq : getScriptOp = readByte >>= fun opcode =>
    if opcode > opPushData4 then pure (opcode, [])
    else (opcode, ·) <$> (readSize opcode >>= readMany readByte) := by
  unfold getScriptOp readSize sizeWidth
  congr
  funext opcode
  split_ifs <;> simp

theorem format_op : WireFormat getScriptOp opBytes ValidOp := by
  rw [getScriptOp_eq]
  constructor
  · rintro ⟨opcode, data⟩ valid
    rw [ValidOp] at valid
    rw [opBytes]
    refine (Reads.byte opcode).bind ?_
    split at valid
    · rename_i plain
      rw [if_pos plain, if_pos plain, valid]
      exact .pure _
    · rename_i pushes
      rw [if_neg pushes, if_neg pushes]
      exact (((format_size opcode).reads _ valid).bind (.bytes data)).map _
  · rintro input ⟨opcode, data⟩ rest read
    obtain ⟨first, mid, isFirst, later⟩ := bind_eq_some.mp read
    obtain ⟨-, rfl⟩ := WireFormat.byte.only isFirst
    split at later
    · rename_i plain
      obtain ⟨same, rfl⟩ := pure_eq_some.mp later
      cases same
      simp [ValidOp, opBytes, plain]
    rename_i pushes
    obtain ⟨⟨bytes, last⟩, found, same⟩ := Option.bind_eq_some_iff.mp later
    cases same
    obtain ⟨⟨fits, -⟩, rfl⟩ := (WireFormat.byte.counted (format_size opcode)).only found
    simp [ValidOp, opBytes, pushes, fits]

/-- The opcode that `CScript() << b` chooses. -/
def pushOpcode (n : Nat) : UInt8 :=
  if n < opPushData1.toNat then .ofNat n else if n ≤ 0xff then opPushData1
  else if n ≤ 0xffff then opPushData2 else opPushData4

/-- The width of the size in the shortest push of `n` bytes. -/
def pushWidth (n : Nat) : Nat :=
  if n < opPushData1.toNat then 0 else if n ≤ 0xff then 1 else if n ≤ 0xffff then 2 else 4

theorem pushOpcode_direct (short : n < opPushData1.toNat) :
    (ofNat n).toNat = n ∧ ofNat n < opPushData1 ∧ ¬ ofNat n > opPushData4 := by
  have opcode : (ofNat n).toNat = n := by
    rw [toNat_ofNat']
    exact mod_eq_of_lt (short.trans (by decide))
  rw [gt_iff_lt, lt_iff_toNat_lt, lt_iff_toNat_lt, opcode]
  exact ⟨rfl, short, not_lt.mpr (short.le.trans (by decide))⟩

theorem pushOpcode_fits (lt : n < 2 ^ 32) : ¬ pushOpcode n > opPushData4 ∧
    FitsSize (pushOpcode n) n ∧ sizeWidth (pushOpcode n) = pushWidth n := by
  unfold pushOpcode pushWidth
  split
  · rename_i short
    obtain ⟨opcode, direct, pushes⟩ := pushOpcode_direct short
    exact ⟨pushes, by rw [FitsSize, if_pos direct, opcode], if_pos direct⟩
  split
  · exact ⟨by decide, Nat.lt_succ_of_le ‹_›, rfl⟩
  split
  · exact ⟨by decide, Nat.lt_succ_of_le ‹_›, rfl⟩
  · exact ⟨by decide, lt, rfl⟩

theorem pushData_eq (b : List UInt8) : pushData b = opBytes (pushOpcode b.length, b) := by
  unfold pushData pushOpcode
  split
  · rename_i short
    obtain ⟨-, direct, pushes⟩ := pushOpcode_direct short
    simp [opBytes, sizeWidth, direct, pushes, littleEndian]
  split
  · rename_i le
    have byte : ofNat b.length = ofNat (b.length % 256) := by
      rw [Nat.mod_eq_of_lt (Nat.lt_succ_of_le le)]
    rw [byte]
    rfl
  split <;> rfl

theorem le_pushData (b : List UInt8) : b.length ≤ (pushData b).length := by
  unfold pushData
  split_ifs <;> simp <;> omega

theorem reads_push (pushes : ¬ opcode > opPushData4) (fits : FitsSize opcode data.length) :
    Reads getScriptOp (opBytes (opcode, data)) (opcode, data) :=
  format_op.reads _ (by rwa [ValidOp, if_neg pushes])

theorem reads_pushData (lt : b.length < 2 ^ 32) :
    Reads getScriptOp (pushData b) (pushOpcode b.length, b) := by
  obtain ⟨pushes, fits, -⟩ := pushOpcode_fits lt
  exact pushData_eq b ▸ reads_push pushes fits

inductive ScriptItem where
  | opcode (opcode : UInt8)
  | data (b : List UInt8)

namespace ScriptItem

/-- `script << item`. -/
def write : ScriptItem → CScript
  | .opcode c => [c]
  | .data b => pushData b

/-- What `GetScriptOp` finds. -/
def read : ScriptItem → UInt8 × List UInt8
  | .opcode c => (c, [])
  | .data b => (pushOpcode b.length, b)

def isPush : ScriptItem → Bool
  | .opcode c => c ≤ opPushData4
  | .data _ => false

end ScriptItem

/-- A single byte that an opcode of its own puts on the stack. -/
def numeric (data : List UInt8) : Bool :=
  data.length = 1 ∧ (data.any (fun c => 1 ≤ c ∧ c ≤ 16) ∨ data.any (· = 0x81))

theorem numeric_of_puts : ∀ opcode > opPushData4,
    (putsElement [opcode]).all numeric = true := by
  rintro ⟨⟨c⟩⟩
  revert c
  decide +kernel

theorem puts_numeric : ∀ c, numeric [c] = true →
    putsElement [if c = 0x81 then op1Negate else c + (op1 - 1)] = some [c] := by
  rintro ⟨⟨c⟩⟩
  revert c
  decide +kernel

theorem opcode_cases : ∀ opcode ≤ opPushData4, opcode < opPushData1 ∨
    opcode = opPushData1 ∨ opcode = opPushData2 ∨ opcode = opPushData4 := by
  rintro ⟨⟨c⟩⟩
  revert c
  decide +kernel

theorem checkMinimalPush_iff (fits : FitsSize opcode data.length) (le : opcode ≤ opPushData4) :
    data.length < 2 ^ 32 ∧ pushWidth data.length ≤ sizeWidth opcode ∧
      (checkMinimalPush data opcode = .ok true ↔
        numeric data = false ∧ sizeWidth opcode = pushWidth data.length) := by
  have passed : assert (opcode ≤ opPushData4) "0 <= opcode && opcode <= OP_PUSHDATA4" = .ok () :=
    assert_eq_ok.mpr (decide_eq_true le)
  rw [checkMinimalPush, passed, numeric]
  simp only [ok_bind, pure, Except.pure, pushWidth, show opPushData1.toNat = 76 from rfl]
  generalize data.length = n, data.any _ = small, data.any _ = negate at *
  obtain direct | rfl | rfl | rfl := opcode_cases opcode le
  · rw [FitsSize, if_pos direct] at fits
    have short : n < 76 := fits ▸ lt_iff_toNat_lt.mp direct
    have none : opcode = 0 ↔ n = 0 := by
      rw [fits, ← UInt8.toNat_inj]
      rfl
    rw [sizeWidth, if_pos direct]
    grind
  · have fits : n < 256 := fits
    rw [show sizeWidth opPushData1 = 1 from rfl, show opPushData1.toNat = 76 from rfl]
    grind [opPushData1]
  · have fits : n < 65536 := fits
    rw [show sizeWidth opPushData2 = 2 from rfl, show opPushData2.toNat = 77 from rfl]
    grind [opPushData1, opPushData2]
  · have fits : n < 2 ^ 32 := fits
    rw [show sizeWidth opPushData4 = 4 from rfl, show opPushData4.toNat = 78 from rfl]
    grind [opPushData1, opPushData2, opPushData4]

theorem opBytes_length (pushes : ¬ opcode > opPushData4) :
    (opBytes (opcode, data)).length = 1 + sizeWidth opcode + data.length := by
  simp [opBytes, pushes, length_littleEndian, add_comm, add_left_comm]

theorem putsElement_push (pushes : ¬ opcode > opPushData4) (fits : FitsSize opcode data.length) :
    putsElement (opBytes (opcode, data)) = some data := by
  have read := reads_push pushes fits []
  rw [append_nil] at read
  simp [putsElement, read, UInt8.not_lt.mp pushes]

theorem puts_cases (puts : putsElement script = some data) :
    (∃ opcode > opPushData4, script = [opcode]) ∨
      ∃ opcode ≤ opPushData4, FitsSize opcode data.length ∧ script = opBytes (opcode, data) := by
  rw [putsElement] at puts
  split at puts
  · rename_i opcode vch read
    obtain ⟨valid, rfl⟩ := format_op.only read
    rw [append_nil]
    by_cases plain : opcode > opPushData4
    · rw [ValidOp, if_pos plain] at valid
      exact .inl ⟨opcode, plain, by simp [opBytes, plain]⟩
    · rw [ValidOp, if_neg plain] at valid
      rw [if_pos (UInt8.not_lt.mp plain)] at puts
      cases puts
      exact .inr ⟨opcode, UInt8.not_lt.mp plain, valid, rfl⟩
  · cases puts

theorem minimal_iff (fits : FitsSize opcode data.length) (pushes : opcode ≤ opPushData4) :
    checkMinimalPush data opcode = .ok true ↔
      ∀ shorter, putsElement shorter = some data →
        (opBytes (opcode, data)).length ≤ shorter.length := by
  obtain ⟨lt, wide, isMinimal⟩ := checkMinimalPush_iff fits pushes
  rw [isMinimal, opBytes_length (UInt8.not_lt.mpr pushes)]
  constructor
  · rintro ⟨plain, width⟩ shorter puts
    obtain ⟨other, large, rfl⟩ | ⟨other, le, fits, rfl⟩ := puts_cases puts
    · have := numeric_of_puts other large
      simp [puts, plain] at this
    · have := (checkMinimalPush_iff fits le).2.1
      rw [opBytes_length (UInt8.not_lt.mpr le)]
      omega
  · intro least
    constructor
    · by_contra isNumeric
      rw [Bool.not_eq_false] at isNumeric
      obtain ⟨c, rfl⟩ := length_eq_one_iff.mp (of_decide_eq_true isNumeric).1
      have := least _ (puts_numeric c isNumeric)
      simp at this
    · obtain ⟨small, holds, width⟩ := pushOpcode_fits lt
      have := least _ (putsElement_push small holds)
      rw [opBytes_length small] at this
      omega

theorem getOp_write {item : ScriptItem} (ok : ¬ item.isPush)
    (lt : (item.write ++ rest).length < 2 ^ 31) :
    getOp (item.write ++ rest) = some (item.read, rest) := by
  rw [getOp, if_pos lt]
  cases item with
  | opcode c =>
    have plain : c > opPushData4 := by simpa [ScriptItem.isPush] using ok
    have read := format_op.reads (c, []) (by rw [ValidOp, if_pos plain])
    rw [opBytes, if_pos plain] at read
    exact read rest
  | data b =>
    have le := le_pushData b
    rw [length_append, ScriptItem.write] at lt
    exact reads_pushData (by omega) rest

theorem readMany_write {items : List ScriptItem} (ok : ∀ item ∈ items, ¬ item.isPush)
    (lt : (items.flatMap ScriptItem.write).length < 2 ^ 31) :
    readMany getOp items.length (items.flatMap ScriptItem.write) =
      some (items.map ScriptItem.read, []) := by
  induction items with
  | nil => rfl
  | cons item items ih =>
    rw [forall_mem_cons] at ok
    rw [flatMap_cons] at lt ⊢
    have later := ih ok.2 (by grind)
    change (getOp (item.write ++ _)).bind _ = _
    rw [getOp_write ok.1 lt]
    change (readMany getOp items.length _).bind _ = _
    rw [later]
    rfl

/-- Numbers and scripts are read back as they were written, an accepted number has one encoding,
    and a push is minimal if no other operation that puts its element on the stack is shorter. -/
theorem script_round_trips :
    (∀ n : Int, -2 ^ 63 < n → n < 2 ^ 63 → (serialize n).length ≤ 8 ∧
      ∀ k ≥ (serialize n).length, scriptNum (serialize n) true k = .ok n) ∧
    (∀ vch k n, vch.length ≤ 8 → scriptNum vch true k = .ok n → serialize n = vch) ∧
    (∀ items : List ScriptItem, (∀ item ∈ items, ¬ item.isPush) →
      (items.flatMap ScriptItem.write).length < 2 ^ 31 →
      readMany getOp items.length (items.flatMap ScriptItem.write) =
        some (items.map ScriptItem.read, [])) ∧
    ∀ pc opcode data rest, getOp pc = some ((opcode, data), rest) → opcode ≤ opPushData4 →
      (checkMinimalPush data opcode = .ok true ↔
        ¬ ∃ shorter, shorter.length + rest.length < pc.length ∧
        putsElement shorter = some data) := by
  refine ⟨fun n above below => ?_, fun vch k n _ read => serialize_scriptNum read,
    fun items ok lt => readMany_write ok lt, fun pc opcode data rest read pushes => ?_⟩
  · exact ⟨serialize_length (k := 7) (by omega), fun k le => scriptNum_serialize le⟩
  rw [getOp] at read
  split at read
  · obtain ⟨fits, rfl⟩ := format_op.only read
    rw [ValidOp, if_neg (UInt8.not_lt.mpr pushes)] at fits
    rw [minimal_iff fits pushes]
    grind
  · cases read

/-- A script of 2^31 bytes or more is not read. -/
theorem script_round_trips_long : ∃ b, b.length = 2 ^ 31 ∧ getOp (pushData b) = none := by
  have all (n) (big : 2 ^ 31 ≤ n) : getOp (pushData (replicate n 0)) = none := by
    have le := le_pushData (replicate n 0)
    rw [length_replicate] at le
    rw [getOp, if_neg (not_lt.mpr (big.trans le))]
  exact ⟨replicate (2 ^ 31) 0, length_replicate, all _ le_rfl⟩

end HobbyHash.Validation
