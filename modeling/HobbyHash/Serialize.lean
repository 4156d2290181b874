import HobbyHash.Library.Codec
import HobbyHash.Consensus.Params
import HobbyHash.Machine

/-! # Integers in streams

`WriteVarInt` and `ReadVarInt`, `WriteCompactSize` and `ReadCompactSize` of
`serialize.h`, the fixed-width integers and vectors. A variable-length integer is
written in groups of seven bits from the highest to the lowest; every group but the
last is stored less one, so that every number has one form. A compact size has one
form because the reader refuses a longer one than needed. Readers refuse what does
not fit into their type.
-/

namespace HobbyHash.Serialize

open Library Machine List UInt8 Nat

def intMax : Nat := 2 ^ 31 - 1

def uintMax : Nat := 2 ^ 32 - 1

/-- The loop of `WriteVarInt`: `tmp` is filled from the last byte on, and the bytes
    filled before stand behind those filled later. -/
def varIntBytes (flag : UInt8) (n : Nat) (tmp : List UInt8) : List UInt8 :=
  if n ≤ 0x7f then (ofNat (n % 128) ||| flag) :: tmp
  else varIntBytes 0x80 (n / 128 - 1) ((ofNat (n % 128) ||| flag) :: tmp)
termination_by n
decreasing_by omega

def writeVarInt (n : Nat) : List UInt8 :=
  varIntBytes 0 n []

/-- The loop of `ReadVarInt` for a type whose largest value is `max`. -/
def readVarIntFrom (max : Nat) (n : Nat) : List UInt8 → Option (Nat × List UInt8)
  | [] => none
  | chData :: rest =>
    if n > max / 128 then none
    else
      let n := n * 128 + (chData &&& 0x7f).toNat
      if chData &&& 0x80 ≠ 0 then
        if n = max then none else readVarIntFrom max (n + 1) rest
      else some (n, rest)

def readVarInt (max : Nat) : Reader Nat :=
  readVarIntFrom max 0

def getSizeOfVarInt (n : Nat) : Nat :=
  if n ≤ 0x7f then 1 else getSizeOfVarInt (n / 128 - 1) + 1
termination_by n
decreasing_by omega

/-- The integer type `I` of the templates. -/
structure IntType where
  width : Nat
  isSigned : Bool
  wide : 8 ≤ width

namespace IntType

/-- `std::numeric_limits<I>::max()`. -/
def max (I : IntType) : Nat :=
  2 ^ (if I.isSigned then I.width - 1 else I.width) - 1

/-- What is left of a number stored in a variable of the type. -/
def store (I : IntType) (n : Int) : Int :=
  if I.isSigned then n.bmod (2 ^ I.width) else n % 2 ^ I.width

/-- `ReadVarInt` with every result stored in the type. -/
def readVarInt (I : IntType) (n : Int) : List UInt8 → Option (Int × List UInt8)
  | [] => none
  | chData :: rest =>
    if n > I.max / 128 then none
    else
      let n := I.store (n * 128 + (chData &&& 0x7f).toNat)
      if chData &&& 0x80 ≠ 0 then
        if n = I.max then none else I.readVarInt (I.store (n + 1)) rest
      else some (n, rest)

end IntType

def writeUint32 (n : UInt32) : List UInt8 :=
  littleEndian 4 n.toNat

def readUint32 : Reader UInt32 :=
  UInt32.ofNat <$> readLittleEndian 4

def writeInt32 (n : Int32) : List UInt8 :=
  writeUint32 n.toUInt32

def readInt32 : Reader Int32 :=
  Int32.ofUInt32 <$> readUint32

def writeUint256 (n : Uint256) : List UInt8 :=
  littleEndian 32 n.toNat

def readUint256 : Reader Uint256 :=
  BitVec.ofNat 256 <$> readLittleEndian 32

def writeInt64 (n : Int) : List UInt8 :=
  littleEndian 8 (n % 2 ^ 64).toNat

def readInt64 : Reader Int :=
  (fun n : Nat => if n < 2 ^ 63 then (n : Int) else n - 2 ^ 64) <$> readLittleEndian 8

def maxSize : Nat := 0x02000000

def writeCompactSize (nSize : Nat) : List UInt8 :=
  if nSize < 253 then [ofNat nSize]
  else if nSize ≤ 0xffff then 253 :: littleEndian 2 nSize
  else if nSize ≤ 0xffffffff then 254 :: littleEndian 4 nSize
  else 255 :: littleEndian 8 nSize

/-- A compact size in more than one byte: too small a number is not canonical. -/
def readLongSize (width least : Nat) : Reader Nat := do
  let nSizeRet ← readLittleEndian width
  if nSizeRet < least then refuse else return nSizeRet

/-- The number behind the first byte. -/
def readSizeAfter (chSize : UInt8) : Reader Nat :=
  if chSize < 253 then pure chSize.toNat
  else if chSize = 253 then readLongSize 2 253
  else if chSize = 254 then readLongSize 4 0x10000
  else readLongSize 8 0x100000000

/-- `ReadCompactSize` with the range check. -/
def readCompactSize : Reader Nat := do
  let nSizeRet ← readByte >>= readSizeAfter
  if nSizeRet > maxSize then refuse else return nSizeRet

def writeVector {α : Type} (write : α → List UInt8) (v : List α) : List UInt8 :=
  writeCompactSize v.length ++ v.flatMap write

def readVector {α : Type} (reader : Reader α) : Reader (List α) :=
  readCompactSize >>= readMany reader

theorem group_bits : ∀ g : Fin 128,
    ((ofNat g.val ||| 0) &&& 0x7f).toNat = g.val ∧ (ofNat g.val ||| 0) &&& 0x80 = 0 ∧
      ((ofNat g.val ||| 0x80) &&& 0x7f).toNat = g.val ∧
      (ofNat g.val ||| 0x80) &&& 0x80 ≠ 0 := by
  decide +kernel

section VarInt

variable {max n m : Nat} {rest : List UInt8}

theorem readVarIntFrom_last (le : n ≤ max / 128) :
    readVarIntFrom max n ((ofNat (m % 128) ||| 0) :: rest) =
      some (n * 128 + m % 128, rest) := by
  obtain ⟨value, clear, -⟩ := group_bits ⟨m % 128, mod_lt m (by decide)⟩
  rw [readVarIntFrom, if_neg (not_lt.mpr le), value, clear, if_neg (not_not.mpr rfl)]

theorem readVarIntFrom_more (le : n ≤ max / 128) (lt : n * 128 + m % 128 < max) :
    readVarIntFrom max n ((ofNat (m % 128) ||| 0x80) :: rest) =
      readVarIntFrom max (n * 128 + m % 128 + 1) rest := by
  obtain ⟨-, -, value, flagged⟩ := group_bits ⟨m % 128, mod_lt m (by decide)⟩
  rw [readVarIntFrom, if_neg (not_lt.mpr le), value, if_pos flagged, if_neg lt.ne]

theorem readVarIntFrom_varIntBytes (tmp : List UInt8) (le : (n + 1) * 128 ≤ max) :
    readVarIntFrom max 0 (varIntBytes 0x80 n tmp ++ rest) =
      readVarIntFrom max (n + 1) (tmp ++ rest) := by
  induction n using Nat.strongRecOn generalizing tmp with
  | ind n ih =>
    rw [varIntBytes]
    split
    · rw [cons_append, readVarIntFrom_more (zero_le _) (by omega)]
      congr 1
      omega
    · rw [ih (n / 128 - 1) (by omega) _ (by omega), cons_append,
        readVarIntFrom_more (by omega) (by omega)]
      congr 1
      omega

theorem reads_varInt (le : n ≤ max) : Reads (readVarInt max) (writeVarInt n) n := by
  intro rest
  rw [readVarInt, writeVarInt, varIntBytes]
  split
  · rename_i small
    rw [cons_append, readVarIntFrom_last (zero_le _)]
    simp [mod_eq_of_lt (lt_succ_of_le small)]
  · rw [readVarIntFrom_varIntBytes _ (by omega), cons_append, readVarIntFrom_last (by omega)]
    rw [show (n / 128 - 1 + 1) * 128 + n % 128 = n by omega]
    rfl

theorem byte_bits (chData : UInt8) : (chData &&& 0x7f).toNat < 128 ∧
    (chData &&& 0x80 = 0 → ofNat (chData &&& 0x7f).toNat ||| 0 = chData) ∧
    (chData &&& 0x80 ≠ 0 → ofNat (chData &&& 0x7f).toNat ||| 0x80 = chData) := by
  obtain ⟨⟨g⟩⟩ := chData
  revert g
  decide +kernel

/-- The bytes read so far begin every number whose higher groups they gave. -/
def Begins (seen : List UInt8) (n : Nat) : Prop :=
  ∀ flag, ∀ low < 128, ∀ tmp,
    varIntBytes flag (n * 128 + low) tmp = seen ++ (ofNat low ||| flag) :: tmp

theorem begins_zero : Begins [] 0 := by
  intro flag low small tmp
  rw [varIntBytes, if_pos (by omega)]
  simp [mod_eq_of_lt small]

theorem Begins.more {seen} (begins : Begins seen n) (lt : m < 128) :
    Begins (seen ++ [ofNat m ||| 0x80]) (n * 128 + m + 1) := by
  intro flag low lowSmall tmp
  have group : ((n * 128 + m + 1) * 128 + low) % 128 = low := by omega
  have higher : ((n * 128 + m + 1) * 128 + low) / 128 - 1 = n * 128 + m := by omega
  rw [varIntBytes, if_neg (by omega), group, higher, begins _ m lt, append_assoc]
  rfl

theorem readVarIntFrom_only (full : max % 128 = 127) (begins : Begins seen n)
    (read : readVarIntFrom max n input = some (m, rest)) :
    m ≤ max ∧ seen ++ input = writeVarInt m ++ rest := by
  induction input generalizing n seen with
  | nil => cases read
  | cons chData input ih =>
    obtain ⟨small, last, more⟩ := byte_bits chData
    rw [readVarIntFrom] at read
    split at read
    · cases read
    dsimp only at read
    split at read
    · rename_i flagged
      split at read
      · cases read
      have later := ih (begins.more small) read
      rwa [more flagged, append_assoc] at later
    · rename_i clear
      cases read
      rw [writeVarInt, begins 0 _ small, last (not_not.mp clear), append_assoc]
      exact ⟨by omega, rfl⟩

theorem format_varInt (full : max % 128 = 127) :
    WireFormat (readVarInt max) writeVarInt (fun n => n ≤ max) where
  reads := fun _ fits => reads_varInt fits
  only := readVarIntFrom_only full begins_zero

theorem length_varIntBytes (flag : UInt8) (n : Nat) (tmp : List UInt8) :
    (varIntBytes flag n tmp).length = getSizeOfVarInt n + tmp.length := by
  induction n using Nat.strongRecOn generalizing flag tmp with
  | ind n ih =>
    rw [varIntBytes, getSizeOfVarInt]
    split
    · rw [length_cons, Nat.add_comm]
    · rw [ih _ (by omega), length_cons, Nat.add_assoc, Nat.add_comm 1]

theorem getSizeOfVarInt_le {size} (lt : n < 128 ^ (size + 1)) :
    getSizeOfVarInt n ≤ size + 1 := by
  induction size generalizing n with
  | zero =>
    rw [getSizeOfVarInt, if_pos (by omega)]
  | succ size ih =>
    rw [getSizeOfVarInt]
    split
    · omega
    · have shorter := ih (n := n / 128 - 1) (by omega)
      omega

namespace IntType

variable {I : IntType}

theorem max_full : I.max % 128 = 127 := by
  have wide := I.wide
  obtain ⟨bits, eq⟩ : ∃ bits, (if I.isSigned then I.width - 1 else I.width) = bits + 7 := by
    split
    · exact ⟨I.width - 8, by omega⟩
    · exact ⟨I.width - 7, by omega⟩
  have pos : 0 < 2 ^ bits := by positivity
  rw [max, eq, pow_add]
  omega

theorem store_of_le (le : n ≤ I.max) : I.store n = n := by
  have double : 2 ^ I.width = 2 * 2 ^ (I.width - 1) := by
    rw [← pow_succ']
    congr 1
    have wide := I.wide
    omega
  rw [max] at le
  rw [store]
  split at le
  · rename_i signed
    have pos : 0 < 2 ^ (I.width - 1) := by positivity
    rw [if_pos signed, Int.bmod_eq_of_le (by omega) (by omega)]
  · rename_i unsigned
    have pos : 0 < 2 ^ I.width := by positivity
    rw [if_neg unsigned]
    exact_mod_cast mod_eq_of_lt (by omega : n < 2 ^ I.width)

theorem readVarInt_eq (le : n ≤ I.max) (input : List UInt8) : I.readVarInt n input =
    (readVarIntFrom I.max n input).map fun found => ((found.1 : Int), found.2) := by
  have full := I.max_full
  induction input generalizing n with
  | nil => rfl
  | cons chData input ih =>
    obtain ⟨small, -⟩ := byte_bits chData
    rw [readVarInt, readVarIntFrom]
    by_cases large : n > I.max / 128
    · rw [if_pos large, if_pos (by exact_mod_cast large)]
      rfl
    have stored := I.store_of_le (n := n * 128 + (chData &&& 0x7f).toNat) (by omega)
    push_cast at stored
    rw [if_neg large, if_neg (by exact_mod_cast large), stored]
    split
    · by_cases most : n * 128 + (chData &&& 0x7f).toNat = I.max
      · rw [if_pos most, if_pos (by exact_mod_cast most)]
        rfl
      have next := I.store_of_le (n := n * 128 + (chData &&& 0x7f).toNat + 1) (by omega)
      push_cast at next
      rw [if_neg most, if_neg (by exact_mod_cast most), next]
      exact_mod_cast ih (by omega)
    · simp

/-- For every type the reader gives back what was written and leaves what follows, accepts
    nothing else and so has one form for every value; nothing is lost when its results are
    stored. The writer's array is large enough. -/
theorem varInt_decodes_uniquely (I : IntType) :
    (∀ n ≤ I.max, (∀ rest, I.readVarInt 0 (writeVarInt n ++ rest) = some ((n : Int), rest)) ∧
      (∃! bytes, I.readVarInt 0 bytes = some ((n : Int), [])) ∧
      getSizeOfVarInt n = (writeVarInt n).length ∧ (writeVarInt n).length ≤ (I.width + 6) / 7) ∧
    ∀ input value rest, I.readVarInt 0 input = some (value, rest) →
      ∃ n ≤ I.max, value = n ∧ input = writeVarInt n ++ rest := by
  have format := format_varInt I.max_full
  have same : ∀ input, I.readVarInt 0 input =
      (Serialize.readVarInt I.max input).map fun found => ((found.1 : Int), found.2) :=
    readVarInt_eq (n := 0) (zero_le I.max)
  have only : ∀ input value rest, I.readVarInt 0 input = some (value, rest) →
      ∃ n ≤ I.max, value = n ∧ input = writeVarInt n ++ rest := by
    intro input value rest read
    rw [same, Option.map_eq_some_iff] at read
    obtain ⟨found, exactly, cast⟩ := read
    obtain ⟨fits, written⟩ := format.only exactly
    cases cast
    exact ⟨found.1, fits, rfl, written⟩
  refine ⟨fun n fits => ?_, only⟩
  have reads : ∀ rest, I.readVarInt 0 (writeVarInt n ++ rest) = some ((n : Int), rest) := by
    intro rest
    rw [same, format.reads n fits rest]
    rfl
  have length : (writeVarInt n).length = getSizeOfVarInt n := length_varIntBytes 0 n []
  refine ⟨reads, ⟨writeVarInt n, ?_, ?_⟩, length.symm, ?_⟩
  · have whole := reads []
    rwa [append_nil] at whole
  · intro bytes read
    obtain ⟨m, -, value, written⟩ := only bytes n [] read
    rw [written, append_nil, Int.ofNat.inj value]
  have wide := I.wide
  have groups : (I.width + 6) / 7 = (I.width - 1) / 7 + 1 := by omega
  rw [length, groups]
  refine getSizeOfVarInt_le ((?_ : n < 2 ^ I.width).trans_le ?_)
  · have positive : 0 < 2 ^ I.width := by positivity
    have le : I.max ≤ 2 ^ I.width - 1 := by
      refine Nat.sub_le_sub_right (Nat.pow_le_pow_right (by decide) ?_) 1
      split <;> omega
    omega
  · rw [show 128 = 2 ^ 7 by rfl, ← pow_mul]
    exact Nat.pow_le_pow_right (by decide) (by omega)

end IntType

end VarInt

theorem format_uint32 : WireFormat readUint32 writeUint32 (fun _ => True) :=
  (WireFormat.littleEndian 4).map (fun n _ => ⟨n.toNat_lt, UInt32.ofNat_toNat⟩)
    (fun _ fits => ⟨trivial, UInt32.toNat_ofNat_of_lt' fits⟩)

theorem format_int32 : WireFormat readInt32 writeInt32 (fun _ => True) :=
  format_uint32.map (fun _ _ => ⟨trivial, rfl⟩) (fun _ _ => ⟨trivial, rfl⟩)

theorem format_uint256 : WireFormat readUint256 writeUint256 (fun _ => True) :=
  (WireFormat.littleEndian 32).map (fun n _ => ⟨by simpa using n.isLt, by simp⟩)
    (fun _ fits => ⟨trivial, by simpa using mod_eq_of_lt fits⟩)

theorem format_int64 : WireFormat readInt64 writeInt64 IsInt64 := by
  refine (WireFormat.littleEndian 8).map (fun n fits => ?_) (fun n fits => ?_)
  · simp only [IsInt64] at fits
    constructor
    · omega
    · split <;> omega
  · simp only [IsInt64]
    split <;> omega

theorem reads_uint32 (n : UInt32) : Reads readUint32 (writeUint32 n) n :=
  format_uint32.reads n trivial

theorem reads_int32 (n : Int32) : Reads readInt32 (writeInt32 n) n :=
  format_int32.reads n trivial

theorem reads_uint256 (n : Uint256) : Reads readUint256 (writeUint256 n) n :=
  format_uint256.reads n trivial

theorem format_longSize (width least : Nat) :
    WireFormat (readLongSize width least) (littleEndian width)
      (fun n => n < 256 ^ width ∧ ¬ n < least) :=
  (WireFormat.littleEndian width).check

theorem format_sizeAfter :
    WireFormat (readByte >>= readSizeAfter) writeCompactSize (fun n => n < 2 ^ 64) where
  reads := by
    intro n fits rest
    rw [writeCompactSize]
    split
    · rename_i small
      have value : (UInt8.ofNat n).toNat = n := UInt8.toNat_ofNat_of_lt' (small.trans (by decide))
      refine bind_eq_some.mpr ⟨UInt8.ofNat n, rest, rfl, ?_⟩
      rw [readSizeAfter, if_pos (UInt8.lt_iff_toNat_lt.mpr (by rw [value]; exact small)), value]
      rfl
    split
    · exact bind_eq_some.mpr ⟨253, _, rfl, (format_longSize 2 253).reads n (by omega) rest⟩
    · split
      · exact bind_eq_some.mpr ⟨254, _, rfl, (format_longSize 4 0x10000).reads n (by omega) rest⟩
      · exact bind_eq_some.mpr
          ⟨255, _, rfl, (format_longSize 8 0x100000000).reads n (by omega) rest⟩
  only := by
    intro input n rest read
    obtain ⟨chSize, mid, first, second⟩ := bind_eq_some.mp read
    obtain ⟨-, rfl⟩ := WireFormat.byte.only first
    rw [readSizeAfter] at second
    rw [writeCompactSize]
    split at second
    · rename_i small
      obtain ⟨rfl, rfl⟩ := pure_eq_some.mp second
      have lt : chSize.toNat < 253 := UInt8.lt_iff_toNat_lt.mp small
      rw [if_pos lt, UInt8.ofNat_toNat]
      exact ⟨lt.trans (by decide), rfl⟩
    split at second
    · rename_i is253
      obtain ⟨⟨fits, canonical⟩, rfl⟩ := (format_longSize 2 253).only second
      rw [if_neg canonical, if_pos (by omega), is253]
      exact ⟨by omega, rfl⟩
    split at second
    · rename_i is254
      obtain ⟨⟨fits, canonical⟩, rfl⟩ := (format_longSize 4 0x10000).only second
      rw [if_neg (by omega), if_neg (by omega), if_pos (by omega), is254]
      exact ⟨by omega, rfl⟩
    rename_i large not253 not254
    obtain ⟨⟨fits, canonical⟩, rfl⟩ := (format_longSize 8 0x100000000).only second
    have is255 : chSize = 255 := by
      have bound := chSize.toNat_lt
      simp only [UInt8.lt_iff_toNat_lt, ← UInt8.toNat_inj, UInt8.reduceToNat]
        at large not253 not254 ⊢
      omega
    rw [if_neg (by omega), if_neg (by omega), if_neg (by omega), is255]
    exact ⟨fits, rfl⟩

theorem readCompactSize_refuses (lt : maxSize < n) (fits : n < 2 ^ 64) (rest : List UInt8) :
    readCompactSize (writeCompactSize n ++ rest) = none := by
  rw [Option.eq_none_iff_forall_ne_some]
  rintro ⟨count, mid⟩ read
  obtain ⟨count, mid, first, second⟩ := bind_eq_some.mp read
  rw [format_sizeAfter.reads n fits] at first
  cases first
  rw [if_pos lt] at second
  cases second

theorem format_compactSize :
    WireFormat readCompactSize writeCompactSize (fun nSize => nSize < 2 ^ 64 ∧ ¬ nSize > maxSize) :=
  format_sizeAfter.check

theorem format_vector {α : Type} {reader : Reader α} {write : α → List UInt8} {valid : α → Prop}
    (format : WireFormat reader write valid) :
    WireFormat (readVector reader) (writeVector write)
      (fun v => v.length ≤ maxSize ∧ ∀ a ∈ v, valid a) :=
  (format.counted format_compactSize).congr fun v => by
    have lt : maxSize < 2 ^ 64 := by decide
    constructor
    · rintro ⟨⟨-, fits⟩, each⟩
      exact ⟨not_lt.mp fits, each⟩
    · rintro ⟨fits, each⟩
      exact ⟨⟨fits.trans_lt lt, not_lt.mpr fits⟩, each⟩

end HobbyHash.Serialize
