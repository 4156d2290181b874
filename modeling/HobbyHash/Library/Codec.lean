import Mathlib.Algebra.Order.Ring.Int

/-! # Byte formats

A reader takes bytes from the front of its input and may fail. `Reads reader bytes
a` says that the reader finds `a` in `bytes` and leaves what follows them alone, so
a format is checked field by field: the reader of a record is a sequence of readers
and its bytes are those of the fields one after the other. In a `WireFormat` the
reader moreover accepts nothing but what is written, so that it and the writer are
inverse to each other.
-/

namespace HobbyHash.Library

open List

abbrev Reader (α : Type) := StateT (List UInt8) Option α

variable {α β : Type}

/-- The reader finds `a` in the bytes, whatever follows them. -/
def Reads (reader : Reader α) (bytes : List UInt8) (a : α) : Prop :=
  ∀ rest, reader (bytes ++ rest) = some (a, rest)

def readByte : Reader UInt8
  | [] => none
  | byte :: rest => some (byte, rest)

def littleEndian : Nat → Nat → List UInt8
  | 0, _ => []
  | width + 1, n => UInt8.ofNat (n % 256) :: littleEndian width (n / 256)

theorem length_littleEndian : ∀ width n, (littleEndian width n).length = width
  | 0, _ => rfl
  | width + 1, n => congrArg (· + 1) (length_littleEndian width (n / 256))

def readLittleEndian : Nat → Reader Nat
  | 0 => pure 0
  | width + 1 => do
    let byte ← readByte
    let n ← readLittleEndian width
    return byte.toNat + 256 * n

def readMany (reader : Reader α) : Nat → Reader (List α)
  | 0 => pure []
  | count + 1 => do
    let a ← reader
    let rest ← readMany reader count
    return a :: rest

namespace Reads

theorem pure (a : α) : Reads (Pure.pure a) [] a :=
  fun _ => rfl

variable {reader : Reader α}

theorem bind {next : α → Reader β} (first : Reads reader bytes a)
    (second : Reads (next a) more b) : Reads (reader >>= next) (bytes ++ more) b := by
  intro rest
  change (reader (bytes ++ more ++ rest)).bind (fun found => next found.1 found.2) = _
  rw [append_assoc, first]
  exact second rest

theorem map (found : Reads reader bytes a) (f : α → β) :
    Reads (f <$> reader) bytes (f a) := by
  intro rest
  change (reader (bytes ++ rest)).bind (fun read => some (f read.1, read.2)) = _
  rw [found]
  rfl

theorem ite (found : present = true → Reads reader bytes a) (other : present = false → absent = a) :
    Reads (if present then reader else Pure.pure absent) (if present then bytes else []) a := by
  cases present with
  | false =>
    rw [← other rfl]
    exact .pure absent
  | true => exact found rfl

theorem byte (b : UInt8) : Reads readByte [b] b :=
  fun _ => rfl

theorem littleEndian {width n} (lt : n < 256 ^ width) :
    Reads (readLittleEndian width) (Library.littleEndian width n) n := by
  induction width generalizing n with
  | zero =>
    obtain rfl : n = 0 := by simpa using lt
    exact .pure 0
  | succ width ih =>
    have high : n / 256 < 256 ^ width := by
      rw [Nat.div_lt_iff_lt_mul (by decide)]
      rwa [Nat.pow_succ] at lt
    have value : (UInt8.ofNat (n % 256)).toNat + 256 * (n / 256) = n := by
      rw [UInt8.toNat_ofNat']
      omega
    have higher := (ih high).map fun m => (UInt8.ofNat (n % 256)).toNat + 256 * m
    rw [value] at higher
    exact (byte (UInt8.ofNat (n % 256))).bind higher

theorem many {write values} (each : ∀ a ∈ values, Reads reader (write a) a) :
    Reads (readMany reader values.length) (values.flatMap write) values := by
  induction values with
  | nil => exact .pure []
  | cons a rest ih =>
    have first := each a mem_cons_self
    have later := (ih (forall_mem_cons.mp each).2).map (a :: ·)
    exact first.bind later

theorem bytes (bytes : List UInt8) : Reads (readMany readByte bytes.length) bytes bytes := by
  have read := many (fun b (_ : b ∈ bytes) => byte b)
  rwa [flatMap_singleton'] at read

theorem whole {bytes a} (found : Reads reader bytes a) :
    reader bytes = some (a, []) := by
  have read := found []
  rwa [append_nil] at read

end Reads

/-- A reader that gives up, as on a thrown exception. -/
def refuse : Reader α :=
  fun _ => none

theorem pure_eq_some :
    (Pure.pure a : Reader α) input = some (b, rest) ↔ b = a ∧ rest = input := by
  constructor
  · intro read
    cases read
    exact ⟨rfl, rfl⟩
  · rintro ⟨rfl, rfl⟩
    rfl

theorem bind_eq_some {next : α → Reader β} {input rest : List UInt8} {b : β} :
    (reader >>= next) input = some (b, rest) ↔
      ∃ a mid, reader input = some (a, mid) ∧ next a mid = some (b, rest) := by
  change (reader input).bind (fun found => next found.1 found.2) = _ ↔ _
  rw [Option.bind_eq_some_iff]
  exact ⟨fun ⟨⟨a, mid⟩, first, second⟩ => ⟨a, mid, first, second⟩,
    fun ⟨a, mid, first, second⟩ => ⟨(a, mid), first, second⟩⟩

/-- Reader and writer are inverse to each other on the valid values: what is written is
    read back, and only what is written is accepted. -/
structure WireFormat (reader : Reader α) (write : α → List UInt8) (valid : α → Prop) : Prop where
  reads : ∀ a, valid a → Reads reader (write a) a
  only : ∀ {input a rest}, reader input = some (a, rest) → valid a ∧ input = write a ++ rest

theorem readLittleEndian_only {width n : Nat} {input rest : List UInt8}
    (read : readLittleEndian width input = some (n, rest)) :
    n < 256 ^ width ∧ input = littleEndian width n ++ rest := by
  induction width generalizing n input with
  | zero =>
    obtain ⟨rfl, rfl⟩ := pure_eq_some.mp read
    exact ⟨by decide, rfl⟩
  | succ width ih =>
    obtain ⟨byte, mid, first, later⟩ := bind_eq_some.mp read
    obtain ⟨high, last, second, done⟩ := bind_eq_some.mp later
    obtain ⟨rfl, rfl⟩ := pure_eq_some.mp done
    obtain ⟨fits, rfl⟩ := ih second
    cases input with
    | nil => cases first
    | cons head tail =>
      cases first
      have small := byte.toNat_lt
      constructor
      · omega
      · rw [littleEndian, cons_append]
        congr 1
        · rw [Nat.add_mul_mod_self_left, Nat.mod_eq_of_lt small, UInt8.ofNat_toNat]
        · rw [Nat.add_mul_div_left _ _ (by decide), Nat.div_eq_of_lt small, Nat.zero_add]

namespace WireFormat

variable {reader : Reader α} {write : α → List UInt8} {valid : α → Prop}

theorem byte : WireFormat readByte (fun b => [b]) (fun _ => True) where
  reads := fun b _ => .byte b
  only := by
    intro input b rest read
    cases input with
    | nil => cases read
    | cons head tail =>
      cases read
      exact ⟨trivial, rfl⟩

theorem littleEndian (width : Nat) :
    WireFormat (readLittleEndian width) (Library.littleEndian width)
    (fun n => n < 256 ^ width) where
  reads := fun _ fits => .littleEndian fits
  only := readLittleEndian_only

variable (format : WireFormat reader write valid)
include format

theorem congr {valid'} (same : ∀ a, valid a ↔ valid' a) :
    WireFormat reader write valid' where
  reads := fun a isValid => format.reads a ((same a).mpr isValid)
  only := fun read => ⟨(same _).mp (format.only read).1, (format.only read).2⟩

theorem map {g : β → α} (back : ∀ b, valid' b → valid (g b) ∧ f (g b) = b)
    (forth : ∀ a, valid a → valid' (f a) ∧ g (f a) = a) :
    WireFormat (f <$> reader) (fun b => write (g b)) valid' where
  reads := by
    intro b isValid
    have read := (format.reads (g b) (back b isValid).1).map f
    rwa [(back b isValid).2] at read
  only := by
    intro input b rest read
    obtain ⟨⟨a, mid⟩, found, same⟩ := Option.bind_eq_some_iff.mp read
    cases same
    obtain ⟨isValid, rfl⟩ := format.only found
    obtain ⟨isValid', same⟩ := forth a isValid
    exact ⟨isValid', by rw [same]⟩

theorem check {bad : α → Prop} [DecidablePred bad] :
    WireFormat (do let a ← reader; if bad a then refuse else return a) write
      (fun a => valid a ∧ ¬ bad a) where
  reads := by
    rintro a ⟨isValid, good⟩ rest
    exact bind_eq_some.mpr ⟨a, rest, format.reads a isValid rest, by rw [if_neg good]; rfl⟩
  only := by
    intro input a rest read
    obtain ⟨b, mid, first, second⟩ := bind_eq_some.mp read
    obtain ⟨isValid, rfl⟩ := format.only first
    split at second
    · cases second
    · rename_i good
      obtain ⟨rfl, rfl⟩ := pure_eq_some.mp second
      exact ⟨⟨isValid, good⟩, rfl⟩

theorem readMany_only {count : Nat} {values : List α} {input rest : List UInt8}
    (read : readMany reader count input = some (values, rest)) :
    values.length = count ∧ (∀ a ∈ values, valid a) ∧ input = values.flatMap write ++ rest := by
  induction count generalizing values input with
  | zero =>
    obtain ⟨rfl, rfl⟩ := pure_eq_some.mp read
    exact ⟨rfl, by simp, rfl⟩
  | succ count ih =>
    obtain ⟨a, mid, first, later⟩ := bind_eq_some.mp read
    obtain ⟨others, last, second, done⟩ := bind_eq_some.mp later
    obtain ⟨rfl, rfl⟩ := pure_eq_some.mp done
    obtain ⟨isValid, rfl⟩ := format.only first
    obtain ⟨length, each, rfl⟩ := ih second
    refine ⟨by rw [length_cons, length], ?_, ?_⟩
    · simpa using ⟨isValid, each⟩
    · rw [flatMap_cons, append_assoc]

theorem counted {readCount : Reader Nat} {writeCount : Nat → List UInt8} {limit : Nat → Prop}
    (count : WireFormat readCount writeCount limit) :
    WireFormat (readCount >>= readMany reader)
      (fun values => writeCount values.length ++ values.flatMap write)
      (fun values => limit values.length ∧ ∀ a ∈ values, valid a) where
  reads := fun _ isValid =>
    (count.reads _ isValid.1).bind (.many fun a mem => format.reads a (isValid.2 a mem))
  only := by
    intro input values rest read
    obtain ⟨size, mid, first, second⟩ := bind_eq_some.mp read
    obtain ⟨fits, rfl⟩ := count.only first
    obtain ⟨rfl, each, rfl⟩ := format.readMany_only second
    exact ⟨⟨fits, each⟩, (append_assoc ..).symm⟩

end WireFormat

end HobbyHash.Library
