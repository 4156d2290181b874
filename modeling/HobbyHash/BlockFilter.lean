import HobbyHash.Serialize
import HobbyHash.Streams
import Mathlib.Data.List.Sort

/-! # Golomb-coded sets

`GCSFilter` of `blockfilter.cpp`. The hashes of the elements are mapped into a range,
sorted, and written as the differences from one to the next. The constructor from an
encoding counts the differences and refuses what follows them. A query walks along the
sorted hashes of the filter and of the query together. What is thrown or asserted is
`none`, and an element set is the list of its elements in the order in which it is walked.
-/

namespace HobbyHash.BlockFilter

open Library Serialize Streams List UInt32 BitStreamReader

variable {hashes : List (BitVec 64)} {r : BitStreamReader}

abbrev Element := List UInt8

structure Params where
  siphashK0 : BitVec 64
  siphashK1 : BitVec 64
  P : UInt8
  M : UInt32

structure GCSFilter where
  params : Params
  N : UInt32
  F : BitVec 64
  encoded : List UInt8

def fastRange64 (x n : BitVec 64) : BitVec 64 :=
  BitVec.ofNat 64 (x.toNat * n.toNat / 2 ^ 64)

/-- The filter of so many elements, before they are encoded. -/
def GCSFilter.sized (params : Params) (N : UInt32) (encoded : List UInt8) : GCSFilter :=
  ⟨params, N, BitVec.ofNat 64 (N.toNat * params.M.toNat), encoded⟩

/-- Writes the differences of the values, from the last one on. -/
def writeDeltas (P : UInt8) (last : BitVec 64) : List (BitVec 64) → BitStreamWriter →
    Option BitStreamWriter
  | [], w => some w
  | value :: values, w => golombRiceEncode P (value - last) w >>= writeDeltas P value values

def skipDeltas (P : UInt8) : Nat → BitReader Unit
  | 0 => pure ()
  | n + 1 => golombRiceDecode P >>= fun _ => skipDeltas P n

/-- The constructor from an encoding. -/
def GCSFilter.ofEncoded (params : Params) (encoded : List UInt8) (skipDecodeCheck : Bool) :
    Option GCSFilter := do
  let (N, stream) ← readCompactSize encoded
  let filter := GCSFilter.sized params (ofNat N) encoded
  if filter.N.toNat ≠ N then none
  else if skipDecodeCheck then return filter
  else do
    let (_, bitreader) ← skipDeltas params.P N (.start stream)
    if bitreader.istream ≠ [] then none else return filter

/-- Moves along the sorted hashes up to the value: what is returned, or the hashes that
    are left. -/
def scan (value : BitVec 64) : List (BitVec 64) → Bool ⊕ List (BitVec 64)
  | [] => .inl false
  | hash :: hashes =>
    if hash = value then .inl true
    else if hash > value then .inr (hash :: hashes)
    else scan value hashes

def matchLoop (P : UInt8) : Nat → BitVec 64 → List (BitVec 64) → BitReader Bool
  | 0, _, _ => pure false
  | n + 1, value, hashes => do
    let delta ← golombRiceDecode P
    match scan (value + delta) hashes with
    | .inl result => return result
    | .inr hashes => matchLoop P n (value + delta) hashes

variable (filter : GCSFilter)

def GCSFilter.matchInternal (hashes : List (BitVec 64)) : Option Bool := do
  let (N, stream) ← readCompactSize filter.encoded
  if N ≠ filter.N.toNat then none
  else do
    let (result, _) ← matchLoop filter.params.P N 0 hashes (.start stream)
    return result

section Hashing

variable (sipHash : BitVec 64 → BitVec 64 → Element → BitVec 64)

def GCSFilter.hashToRange (element : Element) : BitVec 64 :=
  fastRange64 (sipHash filter.params.siphashK0 filter.params.siphashK1 element) filter.F

def GCSFilter.buildHashedSet (elements : List Element) : List (BitVec 64) :=
  (elements.map (filter.hashToRange sipHash)).insertionSort fun a b => a.toNat ≤ b.toNat

/-- The constructor from a set of elements. -/
def GCSFilter.ofElements (params : Params) (elements : List Element) : Option GCSFilter :=
  let N := ofNat elements.length
  let filter := GCSFilter.sized params N (writeCompactSize N.toNat)
  if N.toNat ≠ elements.length then none
  else if elements.isEmpty then some filter
  else do
    let bitwriter ← writeDeltas params.P 0 (filter.buildHashedSet sipHash elements) .empty
    return { filter with encoded := filter.encoded ++ bitwriter.flush.ostream }

def GCSFilter.matches (element : Element) : Option Bool :=
  filter.matchInternal [filter.hashToRange sipHash element]

def GCSFilter.matchAny (elements : List Element) : Option Bool :=
  filter.matchInternal (filter.buildHashedSet sipHash elements)

end Hashing

def deltaBits (P : UInt8) (last : BitVec 64) : List (BitVec 64) → List Bool
  | [] => []
  | value :: values => golombRice P (value - last) ++ deltaBits P value values

section Deltas

variable {P : UInt8} (small : P.toNat ≤ 64)
include small

theorem writes_deltas (last : BitVec 64) (values : List (BitVec 64)) :
    Writes (writeDeltas P last values) (deltaBits P last values) := by
  induction values generalizing last with
  | nil => exact fun w clear => ⟨w, rfl, clear, (append_nil _).symm⟩
  | cons value values ih => exact (writes_golombRiceEncode small (value - last)).bind (ih value)

theorem finds_deltas (last : BitVec 64) (values : List (BitVec 64)) :
    Finds (skipDeltas P values.length) (deltaBits P last values) () := by
  induction values generalizing last with
  | nil => exact .pure ()
  | cons value values ih => exact (finds_golombRiceDecode small (value - last)).bind (ih value)

end Deltas

theorem scan_spec (sorted : hashes.Pairwise fun a b => a.toNat ≤ b.toNat) :
    (value ∈ hashes ∧ scan value hashes = .inl true) ∨
    (value ∉ hashes ∧ ((∀ hash ∈ hashes, hash.toNat < value.toNat) ∧
        scan value hashes = .inl false ∨
      ∃ left, scan value hashes = .inr left ∧ left.Sublist hashes ∧
        ∀ hash ∈ hashes, hash ∈ left ∨ hash.toNat < value.toNat)) := by
  induction hashes with
  | nil => exact .inr ⟨not_mem_nil, .inl ⟨fun _ mem => absurd mem not_mem_nil, rfl⟩⟩
  | cons first hashes ih =>
    obtain ⟨least, sorted⟩ := pairwise_cons.mp sorted
    by_cases here : first = value
    · exact .inl ⟨here ▸ mem_cons_self, if_pos here⟩
    by_cases beyond : first > value
    · rw [scan, if_neg here, if_pos beyond]
      refine .inr ⟨fun mem => ?_, .inr ⟨_, rfl, .refl _, fun _ mem => .inl mem⟩⟩
      obtain rfl | later := mem_cons.mp mem
      · exact here rfl
      · exact absurd (BitVec.lt_def.mp beyond) (Nat.not_lt.mpr (least value later))
    have lt : first.toNat < value.toNat := by
      have ne : first.toNat ≠ value.toNat := fun same => here (BitVec.eq_of_toNat_eq same)
      rw [gt_iff_lt, BitVec.lt_def] at beyond
      omega
    rw [scan, if_neg here, if_neg beyond]
    obtain ⟨found, run⟩ | ⟨absent, ⟨all, run⟩ | ⟨left, run, within, rest⟩⟩ := ih sorted
    · exact .inl ⟨mem_cons_of_mem first found, run⟩
    · refine .inr ⟨?_, .inl ⟨forall_mem_cons.mpr ⟨lt, all⟩, run⟩⟩
      exact not_mem_cons_of_ne_of_not_mem (Ne.symm here) absent
    · refine .inr ⟨?_, .inr ⟨left, run, within.cons first,
        forall_mem_cons.mpr ⟨.inr lt, rest⟩⟩⟩
      exact not_mem_cons_of_ne_of_not_mem (Ne.symm here) absent

/-- Sorted hashes are found exactly if the filter has one of them. -/
theorem matchLoop_spec {P} (small : P.toNat ≤ 64) {values last rest}
    (mono : values.Pairwise fun a b => a.toNat ≤ b.toNat)
    (sorted : hashes.Pairwise fun a b => a.toNat ≤ b.toNat)
    (bits : r.bits = deltaBits P last values ++ rest) :
    ∃ res r', matchLoop P values.length last hashes r = some (res, r') ∧
      (res = true ↔ ∃ value ∈ values, value ∈ hashes) := by
  induction values generalizing last hashes r with
  | nil => exact ⟨false, r, rfl, by simp⟩
  | cons value values ih =>
    obtain ⟨least, mono⟩ := pairwise_cons.mp mono
    rw [deltaBits, append_assoc] at bits
    obtain ⟨r', run, left⟩ := finds_golombRiceDecode small (value - last) r _ bits
    have step : matchLoop P (value :: values).length last hashes r =
        (match scan value hashes with
          | .inl res => pure res
          | .inr hashes => matchLoop P values.length value hashes : BitReader Bool) r' := by
      change (golombRiceDecode P r).bind _ = _
      rw [run]
      change (match scan (last + (value - last)) hashes with
        | .inl res => pure res
        | .inr hashes => matchLoop P values.length (last + (value - last)) hashes :
          BitReader Bool) r' = _
      rw [BitVec.add_comm, BitVec.sub_add_cancel]
    rw [step, exists_mem_cons_iff]
    obtain ⟨found, scanned⟩ | ⟨absent, ⟨all, scanned⟩ | ⟨ahead, scanned, within, passed⟩⟩ :=
      scan_spec sorted
    · rw [scanned]
      exact ⟨true, r', rfl, iff_of_true rfl (.inl found)⟩
    · rw [scanned]
      refine ⟨false, r', rfl, iff_of_false Bool.false_ne_true ?_⟩
      rintro (found | ⟨other, mem, found⟩)
      · exact absent found
      · exact absurd (all other found) (Nat.not_lt.mpr (least other mem))
    rw [scanned]
    obtain ⟨res, last, run, meaning⟩ := ih mono (sorted.sublist within) left
    refine ⟨res, last, run, meaning.trans ⟨?_, ?_⟩⟩
    · rintro ⟨other, mem, found⟩
      exact .inr ⟨other, mem, within.mem found⟩
    · rintro (found | ⟨other, mem, found⟩)
      · exact absurd found absent
      · refine ⟨other, mem, (passed other found).resolve_right fun less => ?_⟩
        exact absurd less (Nat.not_lt.mpr (least other mem))

section Filter

variable {sipHash : BitVec 64 → BitVec 64 → Element → BitVec 64} {params : Params}
  {elements : List Element}

theorem mem_buildHashedSet {filter : GCSFilter} {hash} :
    hash ∈ filter.buildHashedSet sipHash elements ↔
      ∃ elem ∈ elements, filter.hashToRange sipHash elem = hash := by
  rw [GCSFilter.buildHashedSet, mem_insertionSort, mem_map]

theorem sorted_buildHashedSet :
    (filter.buildHashedSet sipHash elements).Pairwise fun a b => a.toNat ≤ b.toNat :=
  pairwise_insertionSort _ _

/-- The filter holds the elements: behind their number stands the code of the sorted
    hashes, filled up to a byte. -/
structure Holds (sipHash : BitVec 64 → BitVec 64 → Element → BitVec 64) (params : Params)
    (elements : List Element) (filter : GCSFilter) (body : List UInt8) (pad : Nat) : Prop where
  sized : filter = .sized params (ofNat elements.length)
    (writeCompactSize elements.length ++ body)
  short : pad < 8
  bits : body.flatMap byteBits =
    deltaBits params.P 0 (filter.buildHashedSet sipHash elements) ++ replicate pad false

theorem holds_ofElements (size : elements.length < 2 ^ 32) (small : params.P.toNat ≤ 64) :
    ∃ filter body pad, GCSFilter.ofElements sipHash params elements = some filter ∧
      Holds sipHash params elements filter body pad := by
  have count : (ofNat elements.length).toNat = elements.length := toNat_ofNat_of_lt' size
  rw [GCSFilter.ofElements]
  simp only [count, ne_eq, not_true_eq_false, if_false]
  cases elements with
  | nil => exact ⟨_, [], 0, rfl, by rw [append_nil], by decide, rfl⟩
  | cons elem elements =>
    obtain ⟨w, run, clear, bits⟩ := writes_deltas small 0
      ((GCSFilter.sized params (ofNat (elem :: elements).length)
        (writeCompactSize (elem :: elements).length)).buildHashedSet sipHash
          (elem :: elements)) .empty fun _ _ => BitVec.getLsbD_zero
    obtain ⟨pad, room, flushed⟩ := BitStreamWriter.bits_flush clear
    refine ⟨_, w.flush.ostream, pad, ?_, rfl, room, ?_⟩
    · simp only [isEmpty_cons, Bool.false_eq_true, if_false, run]
      rfl
    · rw [flushed, bits]
      rfl

theorem bits_start (stream : List UInt8) :
    (start stream).bits = stream.flatMap byteBits :=
  rfl

theorem istream_eq_nil_iff (lt : pad < 8)
    (bits : r.bits = replicate pad false ++ extra.flatMap byteBits) :
    r.istream = [] ↔ extra = [] := by
  have length := congrArg List.length bits
  rw [BitStreamReader.bits, length_append, length_append, length_drop, length_bitsOf,
    length_replicate, length_flatMap_byteBits, length_flatMap_byteBits] at length
  have begun := r.begun
  rw [← length_eq_zero_iff, ← length_eq_zero_iff]
  omega

variable {filter : GCSFilter} {body : List UInt8} {pad : Nat}

namespace Holds

variable (holds : Holds sipHash params elements filter body pad) (size : elements.length ≤ maxSize)
  (small : params.P.toNat ≤ 64)
include holds size small

omit holds small in
theorem toNat_length : (ofNat elements.length).toNat = elements.length :=
  toNat_ofNat_of_lt' (size.trans_lt (by decide))

omit small in
theorem readCompactSize (extra : List UInt8) :
    Serialize.readCompactSize (filter.encoded ++ extra) =
      some (elements.length, body ++ extra) := by
  rw [holds.sized, GCSFilter.sized, append_assoc]
  exact format_compactSize.reads _ ⟨size.trans_lt (by decide), Nat.not_lt.mpr size⟩ _

theorem ofEncoded (extra : List UInt8) :
    GCSFilter.ofEncoded params (filter.encoded ++ extra) false =
      if extra = [] then some filter else none := by
  have bits : (start (body ++ extra)).bits =
      deltaBits params.P 0 (filter.buildHashedSet sipHash elements) ++
        (replicate pad false ++ extra.flatMap byteBits) := by
    rw [bits_start, flatMap_append, holds.bits, append_assoc]
  have length : (filter.buildHashedSet sipHash elements).length = elements.length := by
    rw [GCSFilter.buildHashedSet, length_insertionSort, length_map]
  obtain ⟨r, run, left⟩ := finds_deltas small 0 _ _ _ bits
  rw [length] at run
  have isSame : GCSFilter.sized params (ofNat elements.length) filter.encoded = filter := by
    rw [holds.sized]
    rfl
  have number (encoded : List UInt8) :
      (GCSFilter.sized params (ofNat elements.length) encoded).N.toNat = elements.length :=
    toNat_length size
  simp only [GCSFilter.ofEncoded, holds.readCompactSize size, run, number, ne_eq, not_true_eq_false,
    if_false, bind, Option.bind, istream_eq_nil_iff holds.short left,
    Bool.false_eq_true]
  by_cases none : extra = []
  · subst none
    simpa using isSame
  · simp [none]

theorem matchInternal (sorted : hashes.Pairwise fun a b => a.toNat ≤ b.toNat) :
    filter.matchInternal hashes =
      some (decide (∃ elem ∈ elements, filter.hashToRange sipHash elem ∈ hashes)) := by
  have bits : (start body).bits =
      deltaBits params.P 0 (filter.buildHashedSet sipHash elements) ++ replicate pad false := by
    rw [bits_start, holds.bits]
  obtain ⟨res, r, run, meaning⟩ := matchLoop_spec small (sorted_buildHashedSet filter) sorted bits
  have length : (filter.buildHashedSet sipHash elements).length = elements.length := by
    rw [GCSFilter.buildHashedSet, length_insertionSort, length_map]
  have read := holds.readCompactSize size []
  have number : filter.N.toNat = elements.length := by
    rw [holds.sized]
    exact toNat_length size
  have isP : filter.params.P = params.P := by rw [holds.sized]; rfl
  have eq : res = decide (∃ elem ∈ elements, filter.hashToRange sipHash elem ∈ hashes) := by
    rw [Bool.eq_iff_iff, meaning, decide_eq_true_iff]
    simp only [mem_buildHashedSet]
    exact ⟨fun ⟨_, ⟨elem, mem, isHash⟩, found⟩ => ⟨elem, mem, isHash ▸ found⟩,
      fun ⟨elem, mem, found⟩ => ⟨_, ⟨elem, mem, rfl⟩, found⟩⟩
  rw [append_nil, append_nil] at read
  rw [length] at run
  simp only [GCSFilter.matchInternal, read, number, isP, run, ne_eq, not_true_eq_false,
    if_false, bind,
    Option.bind, ← eq]
  rfl

end Holds

/-- The encoding of a set of at most `MAX_SIZE` elements is accepted and gives the filter
    back, with nothing allowed behind it. A query is answered with whether the hash of one
    of its elements is that of a member. -/
theorem filter_exact (sipHash : BitVec 64 → BitVec 64 → Element → BitVec 64) (params : Params)
    (elements : List Element) (size : elements.length ≤ maxSize) (small : params.P ≤ 32) :
    ∃ filter, GCSFilter.ofElements sipHash params elements = some filter ∧
      filter.N.toNat = elements.length ∧
      GCSFilter.ofEncoded params filter.encoded false = some filter ∧
      (∀ element ∈ elements, filter.matches sipHash element = some true) ∧
      (∀ query, filter.matches sipHash query = some (decide (∃ element ∈ elements,
        filter.hashToRange sipHash query = filter.hashToRange sipHash element))) ∧
      (∀ queries, filter.matchAny sipHash queries = some (decide (∃ query ∈ queries,
        ∃ element ∈ elements,
          filter.hashToRange sipHash query = filter.hashToRange sipHash element))) ∧
      ∀ extra ≠ [], GCSFilter.ofEncoded params (filter.encoded ++ extra) false = none := by
  have small : params.P.toNat ≤ 64 := (UInt8.le_iff_toNat_le.mp small).trans (by decide)
  obtain ⟨filter, body, pad, built, holds⟩ := @holds_ofElements sipHash params elements
    (size.trans_lt (by decide)) small
  have each (query : Element) : filter.matches sipHash query = some (decide (∃ element ∈ elements,
      filter.hashToRange sipHash query = filter.hashToRange sipHash element)) := by
    rw [GCSFilter.matches, holds.matchInternal size small (pairwise_singleton _ _)]
    simp only [mem_singleton, eq_comm]
  refine ⟨filter, built, ?_, ?_, ?_, each, ?_, ?_⟩
  · rw [holds.sized]
    exact Holds.toNat_length size
  · have whole := holds.ofEncoded size small []
    rwa [append_nil, if_pos rfl] at whole
  · intro element member
    rw [each, decide_eq_true ⟨element, member, rfl⟩]
  · intro queries
    rw [GCSFilter.matchAny, holds.matchInternal size small (sorted_buildHashedSet filter)]
    congr 1
    rw [decide_eq_decide]
    simp only [mem_buildHashedSet]
    exact ⟨fun ⟨element, member, query, asked, same⟩ => ⟨query, asked, element, member, same⟩,
      fun ⟨query, asked, element, member, same⟩ => ⟨element, member, query, asked, same⟩⟩
  · intro extra more
    rw [holds.ofEncoded size small, if_neg more]

/-- Elements of different lengths have different hashes. -/
def lengthHash (_ _ : BitVec 64) (element : Element) : BitVec 64 :=
  BitVec.ofNat 64 (element.length * 2 ^ 62)

theorem filter_exact_two :
    ∃ filter, GCSFilter.ofElements lengthHash ⟨0, 0, 19, 784931⟩ [[1], [2, 3]] = some filter ∧
      GCSFilter.ofEncoded ⟨0, 0, 19, 784931⟩ filter.encoded false = some filter ∧
      filter.matches lengthHash [2, 3] = some true ∧ filter.matches lengthHash [] = some false ∧
      GCSFilter.ofEncoded ⟨0, 0, 19, 784931⟩ (filter.encoded ++ [0]) false = none := by
  obtain ⟨filter, built, -, decoded, members, each, -, whole⟩ :=
    filter_exact lengthHash ⟨0, 0, 19, 784931⟩ [[1], [2, 3]] (by decide) (by decide)
  have apart : (GCSFilter.ofElements lengthHash ⟨0, 0, 19, 784931⟩ [[1], [2, 3]]).all fun filter =>
      decide (¬ ∃ element ∈ ([[1], [2, 3]] : List Element),
        filter.hashToRange lengthHash [] = filter.hashToRange lengthHash element) := by
    decide +kernel
  rw [built, Option.all_some, decide_eq_true_iff] at apart
  refine ⟨filter, built, decoded, members _ (by decide), ?_, whole [0] (by decide)⟩
  rw [each, decide_eq_false apart]

/-- The constructor does not accept the encoding of one element more. -/
theorem filter_too_large : ∃ (params : Params) (elements : List Element) (filter : GCSFilter),
    elements.Nodup ∧ elements.length < 2 ^ 32 ∧ params.P ≤ 32 ∧ 0 < params.M ∧
      elements.length * params.M.toNat < 2 ^ 64 ∧
      GCSFilter.ofElements (fun _ _ _ => 0) params elements = some filter ∧
      GCSFilter.ofEncoded params filter.encoded false = none := by
  have length : ((range (maxSize + 1)).map (littleEndian 4)).length = maxSize + 1 := by
    rw [length_map, length_range]
  obtain ⟨filter, body, pad, built, holds⟩ := @holds_ofElements (fun _ _ _ => 0) ⟨0, 0, 0, 1⟩ _
    (by rw [length]; decide) (by decide)
  refine ⟨⟨0, 0, 0, 1⟩, _, filter, ?_, by rw [length]; decide, by decide, by decide,
    by rw [length]; decide, built, ?_⟩
  · apply Nodup.map_on _ nodup_range
    intro a inA b inB same
    have fits (n : Nat) (inside : n ∈ range (maxSize + 1)) : n < 256 ^ 4 :=
      (mem_range.mp inside).trans (by decide)
    have readA := (Reads.littleEndian (fits a inA)).whole
    rw [same, (Reads.littleEndian (fits b inB)).whole] at readA
    cases readA
    rfl
  · have refused := readCompactSize_refuses (n := maxSize + 1) (Nat.lt_succ_self _) (by decide) body
    rw [holds.sized, GCSFilter.sized, length, GCSFilter.ofEncoded, refused]
    rfl

end Filter

end HobbyHash.BlockFilter
