import HobbyHash.Library.Codec

/-! # Bit streams

`BitStreamWriter` and `BitStreamReader` of `streams.h`, and the Golomb-Rice code of
`golombrice.h`. The highest bit of a byte is the first one. What a writer was given
and what a reader has left are lists of bits: a byte is filled in rounds, and a code
is read back when it stands in front of the bits that are left.
-/

namespace HobbyHash.Streams

open List Nat

/-- So many low bits of a word, the highest of them first. -/
def bitsOf {w : Nat} (n : Nat) (data : BitVec w) : List Bool :=
  (range n).map fun i => data.getLsbD (n - 1 - i)

def byteBits (byte : UInt8) : List Bool :=
  bitsOf 8 byte.toBitVec

/-- The stream holds what the writer has put into it. -/
structure BitStreamWriter where
  ostream : List UInt8
  buffer : BitVec 8
  offset : Nat
  room : offset < 8

variable {w : BitStreamWriter}

namespace BitStreamWriter

def empty : BitStreamWriter :=
  ⟨[], 0, 0, by decide⟩

def flush (w : BitStreamWriter) : BitStreamWriter :=
  if w.offset = 0 then w else ⟨w.ostream ++ [.ofBitVec w.buffer], 0, 0, by decide⟩

/-- The loop of `Write`. A full buffer is flushed at once. -/
def writeLoop (data : BitVec 64) (w : BitStreamWriter) (nbits : Nat) : BitStreamWriter :=
  if nbits = 0 then w
  else
    let bits := min (8 - w.offset) nbits
    let buffer := w.buffer ||| ((data <<< (64 - nbits)) >>> (64 - 8 + w.offset)).setWidth 8
    writeLoop data
      (if room : w.offset + bits < 8 then ⟨w.ostream, buffer, w.offset + bits, room⟩
        else ⟨w.ostream ++ [.ofBitVec buffer], 0, 0, by decide⟩)
      (nbits - bits)
termination_by nbits
decreasing_by
  have := w.room
  omega

def write (data : BitVec 64) (nbits : Nat) (w : BitStreamWriter) : Option BitStreamWriter :=
  if nbits > 64 then none else some (writeLoop data w nbits)

end BitStreamWriter

/-- The loop of `GolombRiceEncode` that writes the quotient. -/
def writeOnes (q : Nat) (w : BitStreamWriter) : Option BitStreamWriter :=
  if q = 0 then some w
  else w.write (.allOnes 64) (min q 64) >>= writeOnes (q - min q 64)
termination_by q

def golombRiceEncode (P : UInt8) (x : BitVec 64) (w : BitStreamWriter) :
    Option BitStreamWriter := do
  let w ← writeOnes (x >>> P.toNat).toNat w
  let w ← w.write 0 1
  w.write x P.toNat

structure BitStreamReader where
  istream : List UInt8
  buffer : BitVec 8
  offset : Nat
  begun : 0 < offset
  within : offset ≤ 8

/-- A reader whose buffer is not used up. -/
structure Loaded where
  istream : List UInt8
  buffer : BitVec 8
  offset : Nat
  left : offset < 8

namespace BitStreamReader

def start (istream : List UInt8) : BitStreamReader :=
  ⟨istream, 0, 8, by decide, by decide⟩

def load (r : BitStreamReader) : Option Loaded :=
  if left : r.offset < 8 then some ⟨r.istream, r.buffer, r.offset, left⟩
  else match r.istream with
    | [] => none
    | byte :: istream => some ⟨istream, byte.toBitVec, 0, by decide⟩

def readLoop (data : BitVec 64) (nbits : Nat) (r : BitStreamReader) :
    Option (BitVec 64 × BitStreamReader) :=
  if more : nbits = 0 then some (data, r)
  else match r.load with
    | none => none
    | some l =>
      let bits := min (8 - l.offset) nbits
      readLoop (data <<< bits ||| ((l.buffer <<< l.offset) >>> (8 - bits)).setWidth 64)
        (nbits - bits)
        ⟨l.istream, l.buffer, l.offset + bits, by have := l.left; omega,
          by have := l.left; omega⟩
termination_by nbits
decreasing_by
  have := l.left
  omega

end BitStreamReader

abbrev BitReader (α : Type) := StateT BitStreamReader Option α

def read (nbits : Nat) : BitReader (BitVec 64) :=
  fun r => if nbits > 64 then none else r.readLoop 0 nbits

/-- The loop of `GolombRiceDecode` that counts the quotient. -/
def readOnes : Nat → Nat → BitReader Nat
  | 0, _ => fun _ => none
  | fuel + 1, q => do
    let bit ← read 1
    if bit = 1 then readOnes fuel (q + 1) else return q

/-- `GolombRiceDecode`. The loop ends with the bits of the stream. -/
def golombRiceDecode (P : UInt8) : BitReader (BitVec 64) := do
  let r ← get
  let q ← readOnes (8 * r.istream.length + 9) 0
  let remainder ← read P.toNat
  return BitVec.ofNat 64 q <<< P.toNat + remainder

section Bits

variable {w n : Nat} {data : BitVec w}

@[simp] theorem length_bitsOf : (bitsOf n data).length = n := by
  rw [bitsOf, length_map, length_range]

theorem getElem?_bitsOf (i : Nat) :
    (bitsOf n data)[i]? = if i < n then some (data.getLsbD (n - 1 - i)) else none := by
  split <;> rename_i lt <;> simp [bitsOf, lt]

theorem drop_bitsOf (k : Nat) : (bitsOf n data).drop k = bitsOf (n - k) data := by
  apply ext_getElem?
  intro i
  rw [getElem?_drop, getElem?_bitsOf, getElem?_bitsOf]
  by_cases lt : k + i < n
  · rw [if_pos lt, if_pos (by omega), show n - 1 - (k + i) = n - k - 1 - i by omega]
  · rw [if_neg lt, if_neg (by omega)]

theorem bitsOf_allOnes (le : n ≤ w) : bitsOf n (BitVec.allOnes w) = replicate n true := by
  rw [eq_replicate_iff]
  refine ⟨length_bitsOf, fun bit mem => ?_⟩
  obtain ⟨i, lt, rfl⟩ := mem_map.mp mem
  rw [BitVec.getLsbD_allOnes, decide_eq_true_iff]
  have := mem_range.mp lt
  omega

theorem length_flatMap_byteBits (bytes : List UInt8) :
    (bytes.flatMap byteBits).length = 8 * bytes.length := by
  induction bytes with
  | nil => rfl
  | cons byte bytes ih =>
    rw [flatMap_cons, length_append, ih, byteBits, length_bitsOf, length_cons]
    omega

end Bits

namespace BitStreamWriter

def bits (w : BitStreamWriter) : List Bool :=
  w.ostream.flatMap byteBits ++ (bitsOf 8 w.buffer).take w.offset

def Clear (w : BitStreamWriter) : Prop :=
  ∀ i < 8 - w.offset, w.buffer.getLsbD i = false

/-- What the buffer holds after one round of `Write`. -/
theorem getLsbD_round (clear : w.Clear) {data : BitVec 64} {n i : Nat} (le : n ≤ 64)
    (lt : i < 8) :
    (w.buffer ||| ((data <<< (64 - n)) >>> (64 - 8 + w.offset)).setWidth 8).getLsbD i =
      if i < 8 - w.offset then decide (8 - w.offset ≤ n + i) && data.getLsbD (n + i - (8 - w.offset))
      else w.buffer.getLsbD i := by
  simp only [BitVec.getLsbD_or, BitVec.getLsbD_setWidth, BitVec.getLsbD_ushiftRight,
    BitVec.getLsbD_shiftLeft, lt, decide_true, Bool.true_and]
  split
  · rename_i low
    rw [clear i low, Bool.false_or, decide_eq_true (by omega), Bool.true_and]
    by_cases reached : 8 - w.offset ≤ n + i
    · rw [decide_eq_true reached, decide_eq_false (by omega),
        show 64 - 8 + w.offset + i - (64 - n) = n + i - (8 - w.offset) by omega]
      rfl
    · rw [decide_eq_false reached, decide_eq_true (by omega)]
      rfl
  · rw [decide_eq_false (by omega), Bool.false_and, Bool.false_and, Bool.or_false]

theorem writeLoop_spec (clear : w.Clear) (data : BitVec 64) {n : Nat} (le : n ≤ 64) :
    (writeLoop data w n).Clear ∧ (writeLoop data w n).bits = w.bits ++ bitsOf n data := by
  induction n using Nat.strongRecOn generalizing w with
  | ind n ih =>
    rw [writeLoop]
    split
    · rename_i none
      subst none
      exact ⟨clear, (append_nil _).symm⟩
    have room := w.room
    have round := fun i (lt : i < 8) => @getLsbD_round w clear data n i le lt
    generalize isBits : min (8 - w.offset) n = bits
    generalize w.buffer ||| ((data <<< (64 - n)) >>> (64 - 8 + w.offset)).setWidth 8 = buffer
      at round ⊢
    have filled : (bitsOf 8 buffer).take (w.offset + bits) =
        (bitsOf 8 w.buffer).take w.offset ++ (bitsOf n data).take bits := by
      apply ext_getElem?
      intro i
      rw [getElem?_append, length_take, length_bitsOf, Nat.min_eq_left (Nat.le_of_lt room)]
      simp only [getElem?_take, getElem?_bitsOf]
      by_cases old : i < w.offset
      · rw [if_pos old, if_pos old, if_pos (by omega), if_pos (by omega), round _ (by omega),
          if_neg (by omega), if_pos (by omega)]
      rw [if_neg old]
      by_cases new : i < w.offset + bits
      · rw [if_pos new, if_pos (by omega), if_pos (by omega), if_pos (by omega),
          round _ (by omega), if_pos (by omega), decide_eq_true (by omega), Bool.true_and,
          show n + (8 - 1 - i) - (8 - w.offset) = n - 1 - (i - w.offset) by omega]
      · rw [if_neg new, if_neg (by omega)]
    have rest : (bitsOf n data).take bits ++ bitsOf (n - bits) data = bitsOf n data := by
      rw [← drop_bitsOf, take_append_drop]
    have next (w' : BitStreamWriter) (clear' : w'.Clear)
        (bits' : w'.bits = w.bits ++ (bitsOf n data).take bits) :
        (writeLoop data w' (n - bits)).Clear ∧
          (writeLoop data w' (n - bits)).bits = w.bits ++ bitsOf n data := by
      obtain ⟨stays, written⟩ := ih (n - bits) (by omega) clear' (by omega)
      refine ⟨stays, ?_⟩
      rw [written, bits', append_assoc, rest]
    apply next
    · split
      · intro i low
        dsimp only at low
        rw [round i (by omega), if_pos (by omega), decide_eq_false (by omega), Bool.false_and]
      · exact fun i _ => BitVec.getLsbD_zero
    split
    · rw [BitStreamWriter.bits, BitStreamWriter.bits, filled, append_assoc]
    · have whole : (bitsOf 8 buffer).take (w.offset + bits) = bitsOf 8 buffer :=
        take_of_length_le (by rw [length_bitsOf]; omega)
      rw [BitStreamWriter.bits, BitStreamWriter.bits, flatMap_append, flatMap_singleton,
        byteBits, UInt8.toBitVec_ofBitVec, ← whole, filled, take_zero, append_nil, append_assoc]

theorem bits_flush (clear : w.Clear) :
    ∃ pad < 8, w.flush.ostream.flatMap byteBits = w.bits ++ replicate pad false := by
  rw [flush, bits]
  split
  · rename_i none
    exact ⟨0, by decide, by simp [none]⟩
  refine ⟨8 - w.offset, by omega, ?_⟩
  have tail : (bitsOf 8 w.buffer).drop w.offset = replicate (8 - w.offset) false := by
    rw [drop_bitsOf, eq_replicate_iff]
    refine ⟨length_bitsOf, fun bit mem => ?_⟩
    obtain ⟨i, lt, rfl⟩ := mem_map.mp mem
    have := mem_range.mp lt
    exact clear _ (by omega)
  rw [flatMap_append, flatMap_singleton, byteBits, UInt8.toBitVec_ofBitVec, append_assoc, ← tail,
    take_append_drop]

end BitStreamWriter

def Writes (step : BitStreamWriter → Option BitStreamWriter) (l : List Bool) : Prop :=
  ∀ w, w.Clear → ∃ w', step w = some w' ∧ w'.Clear ∧ w'.bits = w.bits ++ l

theorem Writes.bind {first second l m} (writes : Writes first l) (more : Writes second m) :
    Writes (fun w => first w >>= second) (l ++ m) := by
  intro w clear
  obtain ⟨middle, one, clear, bits⟩ := writes w clear
  obtain ⟨last, two, clear, all⟩ := more middle clear
  exact ⟨last, (congrArg (· >>= second) one).trans two, clear, by rw [all, bits, append_assoc]⟩

theorem writes_write (data : BitVec 64) (le : n ≤ 64) :
    Writes (·.write data n) (bitsOf n data) := by
  intro w clear
  obtain ⟨stays, bits⟩ := BitStreamWriter.writeLoop_spec clear data le
  exact ⟨_, if_neg (Nat.not_lt.mpr le), stays, bits⟩

theorem writes_ones (q : Nat) : Writes (writeOnes q) (replicate q true) := by
  induction q using Nat.strongRecOn with
  | ind q ih =>
    by_cases none : q = 0
    · subst none
      intro w clear
      exact ⟨w, by rw [writeOnes, if_pos rfl], clear, (append_nil _).symm⟩
    have here := (writes_write (.allOnes 64) (Nat.min_le_right q 64)).bind
      (ih (q - min q 64) (by omega))
    rw [bitsOf_allOnes (Nat.min_le_right q 64), replicate_append_replicate,
      Nat.add_sub_cancel' (Nat.min_le_left q 64)] at here
    intro w clear
    rw [writeOnes, if_neg none]
    exact here w clear

def golombRice (P : UInt8) (x : BitVec 64) : List Bool :=
  replicate (x >>> P.toNat).toNat true ++ (bitsOf 1 (0 : BitVec 64) ++ bitsOf P.toNat x)

theorem writes_golombRiceEncode (le : P.toNat ≤ 64) (x : BitVec 64) :
    Writes (golombRiceEncode P x) (golombRice P x) :=
  (writes_ones _).bind ((writes_write 0 (by decide)).bind (writes_write x le))

def BitStreamReader.bits (r : BitStreamReader) : List Bool :=
  (bitsOf 8 r.buffer).drop r.offset ++ r.istream.flatMap byteBits

theorem BitStreamReader.load_spec {r : BitStreamReader} (ne : r.bits ≠ []) :
    ∃ l, r.load = some l ∧
    r.bits = bitsOf (8 - l.offset) l.buffer ++ l.istream.flatMap byteBits := by
  rw [load]
  split
  · exact ⟨_, rfl, by rw [bits, drop_bitsOf]⟩
  have used : r.bits = r.istream.flatMap byteBits := by
    rw [bits, drop_bitsOf, show 8 - r.offset = 0 by omega]
    rfl
  rw [used] at ne ⊢
  cases stream : r.istream with
  | nil => exact absurd (by rw [stream]; rfl) ne
  | cons byte istream => exact ⟨_, rfl, flatMap_cons⟩

theorem BitStreamReader.readLoop_spec {x : BitVec 64} {n k : Nat} {data : BitVec 64}
    {r : BitStreamReader} {rest : List Bool} (found : r.bits = bitsOf n x ++ rest)
    (soFar : ∀ i < 64, data.getLsbD i = (decide (i < k) && x.getLsbD (n + i))) :
    ∃ d r', r.readLoop data n = some (d, r') ∧ r'.bits = rest ∧
      ∀ i < 64, d.getLsbD i = (decide (i < k + n) && x.getLsbD i) := by
  induction n using Nat.strongRecOn generalizing k data r with
  | ind n ih =>
    rw [readLoop]
    split
    · rename_i none
      subst none
      exact ⟨data, r, rfl, found, by simpa using soFar⟩
    have ne : r.bits ≠ [] := by
      rw [found]
      exact ne_nil_of_length_pos (by rw [length_append, length_bitsOf]; omega)
    obtain ⟨l, loaded, bits⟩ := load_spec ne
    have left := l.left
    rw [bits] at found
    simp only [loaded]
    obtain ⟨b, isB⟩ : ∃ b, min (8 - l.offset) n = b := ⟨_, rfl⟩
    simp only [isB]
    have chunk (i : Nat) (lt : i < b) :
        l.buffer.getLsbD (8 - l.offset - b + i) = x.getLsbD (n - b + i) := by
      have same := congrArg (·[b - 1 - i]?) found
      simp only [getElem?_append, length_bitsOf, getElem?_bitsOf] at same
      rw [if_pos (by omega), if_pos (by omega), if_pos (by omega), if_pos (by omega)] at same
      rw [show 8 - l.offset - b + i = 8 - l.offset - 1 - (b - 1 - i) by omega,
        show n - b + i = n - 1 - (b - 1 - i) by omega]
      exact Option.some.inj same
    have after := congrArg (drop b) found
    rw [drop_append_of_le_length (by rw [length_bitsOf]; omega), drop_bitsOf,
      drop_append_of_le_length (by rw [length_bitsOf]; omega), drop_bitsOf] at after
    obtain ⟨d, r', run, last, value⟩ := @ih (n - b) (by omega) (k + b)
      (data <<< b ||| ((l.buffer <<< l.offset) >>> (8 - b)).setWidth 64)
      ⟨l.istream, l.buffer, l.offset + b, by omega, by omega⟩
      (by rw [BitStreamReader.bits, drop_bitsOf, sub_add_eq]; exact after) (by
        intro i lt
        simp only [BitVec.getLsbD_or, BitVec.getLsbD_shiftLeft, BitVec.getLsbD_setWidth,
          BitVec.getLsbD_ushiftRight, lt, decide_true, Bool.true_and]
        by_cases new : i < b
        · rw [← chunk i new, decide_eq_true new, decide_eq_true (by omega : 8 - b + i < 8),
            decide_eq_false (by omega), decide_eq_true (by omega : i < k + b),
            show 8 - b + i - l.offset = 8 - l.offset - b + i by omega]
          rfl
        rw [soFar (i - b) (by omega), decide_eq_false new,
          decide_eq_false (by omega : ¬ 8 - b + i < 8), show n + (i - b) = n - b + i by omega,
          decide_eq_decide.mpr (by omega : i - b < k ↔ i < k + b), Bool.false_and,
          Bool.false_and, Bool.or_false]
        rfl)
    rw [show k + b + (n - b) = k + n by omega] at value
    exact ⟨d, r', run, last, value⟩

/-- The step finds `a` in these bits and leaves what follows them. -/
def Finds {α : Type} (step : BitReader α) (l : List Bool) (a : α) : Prop :=
  ∀ r rest, r.bits = l ++ rest → ∃ r', step r = some (a, r') ∧ r'.bits = rest

theorem Finds.pure {α : Type} (a : α) : Finds (Pure.pure a) [] a :=
  fun r _ bits => ⟨r, rfl, bits⟩

theorem Finds.bind {α β : Type} {first : BitReader α} {second : α → BitReader β} {a : α} {b : β}
    (finds : Finds first l a) (more : Finds (second a) m b) :
    Finds (first >>= second) (l ++ m) b := by
  intro r rest bits
  rw [append_assoc] at bits
  obtain ⟨middle, one, bits⟩ := finds r _ bits
  obtain ⟨last, two, bits⟩ := more middle _ bits
  refine ⟨last, ?_, bits⟩
  change (first r).bind (fun found => second found.1 found.2) = _
  rw [one]
  exact two

theorem finds_read {n : Nat} (le : n ≤ 64) (x : BitVec 64) :
    Finds (read n) (bitsOf n x) (BitVec.ofNat 64 (x.toNat % 2 ^ n)) := by
  intro r rest found
  obtain ⟨d, r', run, last, value⟩ := @BitStreamReader.readLoop_spec x n 0 0 r rest found
    (fun i _ => by simp)
  have eq : d = BitVec.ofNat 64 (x.toNat % 2 ^ n) := by
    apply BitVec.eq_of_getLsbD_eq
    intro i lt
    rw [value i lt, Nat.zero_add, BitVec.getLsbD_ofNat, decide_eq_true lt, Bool.true_and,
      Nat.testBit_mod_two_pow]
    rfl
  refine ⟨r', ?_, last⟩
  rw [read, if_neg (Nat.not_lt.mpr le), run, eq]

theorem finds_ones {fuel q} (n : Nat) (lt : n < fuel) :
    Finds (readOnes fuel q) (replicate n true ++ bitsOf 1 (0 : BitVec 64)) (q + n) := by
  obtain ⟨fuel, rfl⟩ := exists_eq_succ_of_ne_zero (by omega : fuel ≠ 0)
  induction n generalizing fuel q with
  | zero =>
    intro r rest bits
    obtain ⟨r', run, left⟩ := @finds_read 1 (by decide) 0 r rest bits
    refine ⟨r', ?_, left⟩
    change (read 1 r).bind _ = _
    rw [run]
    rfl
  | succ n ih =>
    obtain ⟨fuel, rfl⟩ := exists_eq_succ_of_ne_zero (by omega : fuel ≠ 0)
    have later := @ih (q + 1) fuel (by omega)
    rw [Nat.add_right_comm, Nat.add_assoc] at later
    exact (@finds_read 1 (by decide) 1).bind later

theorem finds_golombRiceDecode {P} (le : P.toNat ≤ 64) (x : BitVec 64) :
    Finds (golombRiceDecode P) (golombRice P x) x := by
  intro r rest found
  have long : (x >>> P.toNat).toNat < 8 * r.istream.length + 9 := by
    have length := congrArg List.length found
    rw [BitStreamReader.bits, golombRice, length_append, length_append, length_append,
      length_flatMap_byteBits, length_drop, length_bitsOf, length_replicate] at length
    omega
  have value : BitVec.ofNat 64 (0 + (x >>> P.toNat).toNat) <<< P.toNat +
      BitVec.ofNat 64 (x.toNat % 2 ^ P.toNat) = x := by
    apply BitVec.eq_of_toNat_eq
    have size := x.isLt
    have parts := div_add_mod' x.toNat (2 ^ P.toNat)
    have low : x.toNat % 2 ^ P.toNat < 2 ^ 64 := Nat.lt_of_le_of_lt (Nat.mod_le _ _) size
    have lt : x.toNat / 2 ^ P.toNat < 2 ^ 64 := Nat.lt_of_le_of_lt (Nat.div_le_self _ _) size
    rw [Nat.zero_add, BitVec.toNat_add, BitVec.toNat_shiftLeft, BitVec.toNat_ushiftRight,
      BitVec.toNat_ofNat, BitVec.toNat_ofNat, shiftRight_eq_div_pow, shiftLeft_eq,
      mod_eq_of_lt lt, mod_eq_of_lt low,
      mod_eq_of_lt (by omega : x.toNat / 2 ^ P.toNat * 2 ^ P.toNat < 2 ^ 64), parts,
      mod_eq_of_lt size]
  have finds : Finds (readOnes (8 * r.istream.length + 9) 0 >>= fun q => read P.toNat >>=
      fun remainder => pure (BitVec.ofNat 64 q <<< P.toNat + remainder)) _ _ :=
    (finds_ones _ long).bind ((finds_read le x).bind (.pure _))
  rw [value, append_nil, append_assoc] at finds
  exact finds r rest found

end HobbyHash.Streams
