import HobbyHash.Primitives
import HobbyHash.Serialize

/-! # The wire format of transactions

`SerializeTransaction` and `UnserializeTransaction` of `primitives/transaction.h`. A
transaction with witness data starts with an empty vector of inputs where the inputs
would stand and a byte of flags behind it; the witnesses follow the outputs. Since an
empty vector also is what a transaction without inputs starts with, such a transaction
can be told from the extended format only if it has no outputs either.

Reading fails with an exception, here the empty result.
-/

namespace HobbyHash

open Library Serialize Machine List CTxIn

def writeScript (script : CScript) : List UInt8 :=
  writeVector (fun b => [b]) script

def readScript : Reader CScript :=
  readVector readByte

def writeOutPoint (prevout : COutPoint) : List UInt8 :=
  writeUint256 prevout.hash ++ littleEndian 4 prevout.n

def readOutPoint : Reader COutPoint := do
  let hash ← readUint256
  let n ← readLittleEndian 4
  return { hash := hash, n := n }

/-- The witness is serialized through the transaction only. -/
def writeTxIn (txin : CTxIn) : List UInt8 :=
  writeOutPoint txin.prevout ++ (writeScript txin.scriptSig ++ writeUint32 txin.nSequence)

def readTxIn : Reader CTxIn := do
  let prevout ← readOutPoint
  let scriptSig ← readScript
  let nSequence ← readUint32
  return { prevout := prevout, scriptSig := scriptSig, nSequence := nSequence, scriptWitness := [] }

def writeTxOut (txout : CTxOut) : List UInt8 :=
  writeInt64 txout.nValue ++ writeScript txout.scriptPubKey

def readTxOut : Reader CTxOut := do
  let nValue ← readInt64
  let scriptPubKey ← readScript
  return { nValue := nValue, scriptPubKey := scriptPubKey }

def hasWitness (vin : List CTxIn) : Bool :=
  vin.any fun txin => !txin.scriptWitness.isEmpty

def writeWitness (txin : CTxIn) : List UInt8 :=
  writeVector writeScript txin.scriptWitness

variable (allowWitness : Bool)

def serializeTransaction (tx : CTransaction) : List UInt8 :=
  let flags : UInt8 := if allowWitness && hasWitness tx.vin then 1 else 0
  writeInt32 tx.nVersion
    ++ ((if flags ≠ 0 then writeVector writeTxIn [] ++ [flags] else [])
    ++ (writeVector writeTxIn tx.vin
    ++ (writeVector writeTxOut tx.vout
    ++ ((if flags &&& 1 ≠ 0 then tx.vin.flatMap writeWitness else [])
    ++ writeUint32 tx.nLockTime))))

/-- The inputs and outputs, with the flags if there are any. -/
def readLists : Reader (UInt8 × List CTxIn × List CTxOut) := do
  let vin ← readVector readTxIn
  if vin.length = 0 ∧ allowWitness then
    let flags ← readByte
    if flags ≠ 0 then
      let vin ← readVector readTxIn
      let vout ← readVector readTxOut
      return (flags, vin, vout)
    else return (flags, vin, [])
  else
    let vout ← readVector readTxOut
    return (0, vin, vout)

/-- The loop that fills in the witnesses. -/
def readWitnesses : List CTxIn → Reader (List CTxIn)
  | [] => pure []
  | txin :: rest => do
    let stack ← readVector readScript
    let rest ← readWitnesses rest
    return { txin with scriptWitness := stack } :: rest

/-- The witnesses if the flag is set; the flags that remain. -/
def readWitnessData (flags : UInt8) (vin : List CTxIn) :
    Reader (UInt8 × List CTxIn) :=
  if flags &&& 1 ≠ 0 ∧ allowWitness then do
    let vin ← readWitnesses vin
    -- "Superfluous witness record"
    if !hasWitness vin then refuse else return (flags ^^^ 1, vin)
  else return (flags, vin)

def unserializeTransaction : Reader CTransaction := do
  let nVersion ← readInt32
  let (flags, vin, vout) ← readLists allowWitness
  let (flags, vin) ← readWitnessData allowWitness flags vin
  -- "Unknown transaction optional data"
  if flags ≠ 0 then refuse
  else
    let nLockTime ← readUint32
    return { vin := vin, vout := vout, nVersion := nVersion, nLockTime := nLockTime }

def ScriptFits (script : CScript) : Prop :=
  script.length ≤ maxSize

/-- The values of the source's types whose lengths can be written. -/
structure CTxIn.Fits (txin : CTxIn) : Prop where
  prevout : txin.prevout.n < 2 ^ 32
  scriptSig : ScriptFits txin.scriptSig
  stack : txin.scriptWitness.length ≤ maxSize
  items : ∀ item ∈ txin.scriptWitness, ScriptFits item

structure CTxOut.Fits (txout : CTxOut) : Prop where
  nValue : IsInt64 txout.nValue
  scriptPubKey : ScriptFits txout.scriptPubKey

structure CTransaction.Fits (tx : CTransaction) : Prop where
  vin : tx.vin.length ≤ maxSize
  vout : tx.vout.length ≤ maxSize
  inputs : ∀ txin ∈ tx.vin, txin.Fits
  outputs : ∀ txout ∈ tx.vout, txout.Fits

def CTxIn.strip (txin : CTxIn) : CTxIn :=
  { txin with scriptWitness := [] }

theorem format_script : WireFormat readScript writeScript ScriptFits :=
  (format_vector WireFormat.byte).congr fun script => by simp [ScriptFits]

theorem format_outPoint :
    WireFormat readOutPoint writeOutPoint (fun prevout => prevout.n < 2 ^ 32) where
  reads := fun prevout fits =>
    (reads_uint256 prevout.hash).bind ((Reads.littleEndian fits).map (COutPoint.mk prevout.hash))
  only := by
    intro input prevout rest read
    obtain ⟨hash, mid, first, later⟩ := bind_eq_some.mp read
    obtain ⟨n, last, second, done⟩ := bind_eq_some.mp later
    obtain ⟨rfl, rfl⟩ := pure_eq_some.mp done
    obtain ⟨-, rfl⟩ := format_uint256.only first
    obtain ⟨fits, rfl⟩ := readLittleEndian_only second
    exact ⟨fits, (append_assoc ..).symm⟩

theorem format_txIn :
    WireFormat readTxIn writeTxIn (fun txin => txin.Fits ∧ txin.scriptWitness = []) where
  reads := by
    rintro ⟨prevout, scriptSig, nSequence, scriptWitness⟩ ⟨fits, stripped⟩
    obtain rfl : scriptWitness = [] := stripped
    exact (format_outPoint.reads prevout fits.prevout).bind
      ((format_script.reads scriptSig fits.scriptSig).bind
        ((reads_uint32 nSequence).map fun nSequence => mk prevout scriptSig nSequence []))
  only := by
    intro input txin rest read
    obtain ⟨prevout, afterPrevout, first, later⟩ := bind_eq_some.mp read
    obtain ⟨scriptSig, afterScript, second, later⟩ := bind_eq_some.mp later
    obtain ⟨nSequence, last, third, done⟩ := bind_eq_some.mp later
    obtain ⟨rfl, rfl⟩ := pure_eq_some.mp done
    obtain ⟨index, rfl⟩ := format_outPoint.only first
    obtain ⟨length, rfl⟩ := format_script.only second
    obtain ⟨-, rfl⟩ := format_uint32.only third
    refine ⟨⟨⟨index, length, Nat.zero_le _, by simp⟩, rfl⟩, ?_⟩
    simp [writeTxIn]

theorem format_txOut : WireFormat readTxOut writeTxOut CTxOut.Fits where
  reads := fun txout fits =>
    (format_int64.reads txout.nValue fits.nValue).bind
      ((format_script.reads txout.scriptPubKey fits.scriptPubKey).map (CTxOut.mk txout.nValue))
  only := by
    intro input txout rest read
    obtain ⟨nValue, mid, first, later⟩ := bind_eq_some.mp read
    obtain ⟨scriptPubKey, last, second, done⟩ := bind_eq_some.mp later
    obtain ⟨rfl, rfl⟩ := pure_eq_some.mp done
    obtain ⟨range, rfl⟩ := format_int64.only first
    obtain ⟨length, rfl⟩ := format_script.only second
    exact ⟨⟨range, length⟩, (append_assoc ..).symm⟩

/-- Inputs as they stand in front of the outputs. -/
def PlainInputs (vin : List CTxIn) : Prop :=
  vin.length ≤ maxSize ∧ ∀ txin ∈ vin, txin.Fits ∧ txin.scriptWitness = []

def PlainOutputs (vout : List CTxOut) : Prop :=
  vout.length ≤ maxSize ∧ ∀ txout ∈ vout, txout.Fits

theorem format_vin : WireFormat (readVector readTxIn) (writeVector writeTxIn)
    PlainInputs :=
  format_vector format_txIn

theorem format_vout : WireFormat (readVector readTxOut) (writeVector writeTxOut)
    PlainOutputs :=
  format_vector format_txOut

theorem format_stack : WireFormat (readVector readScript) (writeVector writeScript)
    (fun stack => stack.length ≤ maxSize ∧ ∀ item ∈ stack, ScriptFits item) :=
  format_vector format_script

section Witnesses

variable {vin base : List CTxIn} {input rest : List UInt8}

theorem CTxIn.Fits.strip {txin : CTxIn} (fits : txin.Fits) : txin.strip.Fits :=
  ⟨fits.prevout, fits.scriptSig, Nat.zero_le _, by simp [CTxIn.strip]⟩

theorem writeVin_strip (vin : List CTxIn) :
    writeVector writeTxIn (vin.map strip) = writeVector writeTxIn vin := by
  rw [writeVector, writeVector, length_map, flatMap_map]
  rfl

theorem map_strip_of_hasWitness (none : hasWitness vin = false) : vin.map strip = vin := by
  refine (map_congr_left fun txin mem => ?_).trans (map_id vin)
  have empty : txin.scriptWitness = [] := by simpa using any_eq_false.mp none txin mem
  rw [strip, ← empty]
  rfl

theorem hasWitness_of_stripped (stripped : ∀ txin ∈ vin, txin.scriptWitness = []) :
    hasWitness vin = false :=
  any_eq_false.mpr fun txin mem => by simp [stripped txin mem]

theorem reads_witnesses (fits : ∀ txin ∈ vin, txin.Fits) :
    Reads (readWitnesses (vin.map strip)) (vin.flatMap writeWitness) vin := by
  induction vin with
  | nil => exact .pure []
  | cons txin vin ih =>
    have own := fits txin mem_cons_self
    have later := ih (forall_mem_cons.mp fits).2
    exact (format_stack.reads txin.scriptWitness ⟨own.stack, own.items⟩).bind
      (later.map (txin :: ·))

theorem readWitnesses_only (read : readWitnesses base input = some (vin, rest))
    (valid : ∀ txin ∈ base, txin.Fits ∧ txin.scriptWitness = []) :
    vin.map strip = base ∧ (∀ txin ∈ vin, txin.Fits) ∧
      input = vin.flatMap writeWitness ++ rest := by
  induction base generalizing vin input with
  | nil =>
    obtain ⟨rfl, rfl⟩ := pure_eq_some.mp read
    exact ⟨rfl, by simp, rfl⟩
  | cons txin base ih =>
    obtain ⟨stack, mid, first, later⟩ := bind_eq_some.mp read
    obtain ⟨others, last, second, done⟩ := bind_eq_some.mp later
    obtain ⟨rfl, rfl⟩ := pure_eq_some.mp done
    obtain ⟨own, stripped⟩ := valid txin mem_cons_self
    obtain ⟨⟨length, items⟩, rfl⟩ := format_stack.only first
    obtain ⟨rfl, fits, rfl⟩ := ih second fun other mem =>
      valid other (mem_cons_of_mem txin mem)
    refine ⟨?_, ?_, ?_⟩
    · rw [map_cons, strip, ← stripped]
    · simpa using ⟨⟨own.prevout, own.scriptSig, length, items⟩, fits⟩
    · rw [flatMap_cons, writeWitness, append_assoc]

end Witnesses

section Lists

variable {vin : List CTxIn} {vout : List CTxOut} {flags : UInt8} {input rest : List UInt8}

theorem readVin_nil (rest : List UInt8) :
    readVector readTxIn (writeVector writeTxIn [] ++ rest) = some ([], rest) :=
  format_vin.reads [] ⟨Nat.zero_le _, by simp⟩ rest

theorem readLists_basic (inputs : PlainInputs vin) (outputs : PlainOutputs vout)
    (told : vin ≠ [] ∨ vout = []) (rest : List UInt8) :
    readLists true (writeVector writeTxIn vin ++ (writeVector writeTxOut vout ++ rest))
      = some ((0, vin, vout), rest) := by
  refine bind_eq_some.mpr ⟨vin, _, format_vin.reads vin inputs _, ?_⟩
  by_cases empty : vin = []
  · obtain rfl : vout = [] := told.resolve_left (not_not.mpr empty)
    subst empty
    rfl
  · rw [if_neg (by simpa using empty)]
    exact bind_eq_some.mpr ⟨vout, rest, format_vout.reads vout outputs rest, rfl⟩

theorem readLists_extended (ne : flags ≠ 0) (inputs : PlainInputs vin)
    (outputs : PlainOutputs vout) (rest : List UInt8) :
    readLists true (writeVector writeTxIn [] ++ (flags :: (writeVector writeTxIn vin
      ++ (writeVector writeTxOut vout ++ rest)))) = some ((flags, vin, vout), rest) := by
  refine bind_eq_some.mpr ⟨[], _, readVin_nil _, ?_⟩
  refine bind_eq_some.mpr ⟨flags, _, rfl, ?_⟩
  rw [if_pos ne]
  exact bind_eq_some.mpr ⟨vin, _, format_vin.reads vin inputs _,
    bind_eq_some.mpr ⟨vout, rest, format_vout.reads vout outputs rest, rfl⟩⟩

theorem readLists_only (read : readLists true input = some ((flags, vin, vout), rest)) :
    PlainInputs vin ∧ PlainOutputs vout ∧
    ((flags = 0 ∧ (vin ≠ [] ∨ vout = []) ∧
        input = writeVector writeTxIn vin ++ (writeVector writeTxOut vout ++ rest)) ∨
      (flags ≠ 0 ∧ input = writeVector writeTxIn [] ++ (flags :: (writeVector writeTxIn vin
        ++ (writeVector writeTxOut vout ++ rest))))) := by
  obtain ⟨vin', mid, first, later⟩ := bind_eq_some.mp read
  obtain ⟨inputs, rfl⟩ := format_vin.only first
  split at later
  · rename_i empty
    obtain rfl : vin' = [] := eq_nil_of_length_eq_zero empty.1
    obtain ⟨flags', afterFlags, second, lists⟩ := bind_eq_some.mp later
    obtain ⟨-, rfl⟩ := WireFormat.byte.only second
    split at lists
    · rename_i nonzero
      obtain ⟨vin', afterVin, third, outs⟩ := bind_eq_some.mp lists
      obtain ⟨vout', last, fourth, done⟩ := bind_eq_some.mp outs
      obtain ⟨same, rfl⟩ := pure_eq_some.mp done
      cases same
      obtain ⟨inputs', rfl⟩ := format_vin.only third
      obtain ⟨outputs, rfl⟩ := format_vout.only fourth
      exact ⟨inputs', outputs, .inr ⟨nonzero, rfl⟩⟩
    rename_i zero
    obtain ⟨same, rfl⟩ := pure_eq_some.mp lists
    cases same
    obtain rfl : flags = 0 := not_not.mp zero
    exact ⟨inputs, ⟨Nat.zero_le _, by simp⟩, .inl ⟨rfl, .inr rfl, rfl⟩⟩
  · rename_i ne
    obtain ⟨vout', last, second, done⟩ := bind_eq_some.mp later
    obtain ⟨same, rfl⟩ := pure_eq_some.mp done
    cases same
    obtain ⟨outputs, rfl⟩ := format_vout.only second
    refine ⟨inputs, outputs, .inl ⟨rfl, .inl fun empty => ne ⟨?_, rfl⟩, rfl⟩⟩
    rw [empty, length_nil]

end Lists

section Transaction

variable {tx : CTransaction} {input rest : List UInt8}

theorem serializeTransaction_basic (none : hasWitness tx.vin = false) :
    serializeTransaction true tx = writeInt32 tx.nVersion ++ (writeVector writeTxIn tx.vin
      ++ (writeVector writeTxOut tx.vout ++ writeUint32 tx.nLockTime)) := by
  simp only [serializeTransaction, none]
  rfl

theorem serializeTransaction_extended (some' : hasWitness tx.vin = true) :
    serializeTransaction true tx = writeInt32 tx.nVersion ++ (writeVector writeTxIn []
      ++ (1 :: (writeVector writeTxIn tx.vin ++ (writeVector writeTxOut tx.vout
        ++ (tx.vin.flatMap writeWitness ++ writeUint32 tx.nLockTime))))) := by
  simp only [serializeTransaction, some']
  rfl

theorem unserializeTransaction_reads (fits : tx.Fits) (told : tx.vin ≠ [] ∨ tx.vout = []) :
    Reads (unserializeTransaction true) (serializeTransaction true tx) tx := by
  intro rest
  have outputs : PlainOutputs tx.vout := ⟨fits.vout, fits.outputs⟩
  cases witness : hasWitness tx.vin with
  | false =>
    have inputs : PlainInputs tx.vin := by
      refine ⟨fits.vin, fun txin mem => ⟨fits.inputs txin mem, ?_⟩⟩
      simpa using any_eq_false.mp witness txin mem
    rw [serializeTransaction_basic witness]
    simp only [append_assoc]
    exact bind_eq_some.mpr ⟨tx.nVersion, _, reads_int32 tx.nVersion _,
      bind_eq_some.mpr ⟨(0, tx.vin, tx.vout), _, readLists_basic inputs outputs told _,
        bind_eq_some.mpr ⟨(0, tx.vin), _, rfl,
          bind_eq_some.mpr ⟨tx.nLockTime, rest, reads_uint32 tx.nLockTime rest, rfl⟩⟩⟩⟩
  | true =>
    have inputs : PlainInputs (tx.vin.map strip) := by
      refine ⟨by rw [length_map]; exact fits.vin, fun txin mem => ?_⟩
      obtain ⟨whole, wholeMember, rfl⟩ := mem_map.mp mem
      exact ⟨(fits.inputs whole wholeMember).strip, rfl⟩
    rw [serializeTransaction_extended witness]
    simp only [append_assoc, cons_append]
    rw [← writeVin_strip tx.vin]
    refine bind_eq_some.mpr ⟨tx.nVersion, _, reads_int32 tx.nVersion _,
      bind_eq_some.mpr ⟨(1, tx.vin.map strip, tx.vout), _,
        readLists_extended (show (1 : UInt8) ≠ 0 by decide) inputs outputs _,
        bind_eq_some.mpr ⟨(0, tx.vin), _, ?_,
          bind_eq_some.mpr ⟨tx.nLockTime, rest, reads_uint32 tx.nLockTime rest, rfl⟩⟩⟩⟩
    refine bind_eq_some.mpr ⟨tx.vin, _, reads_witnesses fits.inputs _, ?_⟩
    rw [witness]
    rfl

/-- The witnesses and the flags that remain: none unless the flags are 0 or 1. -/
theorem readWitnessData_only (read : readWitnessData true flags vin input = some ((0, vin'), rest))
    (inputs : PlainInputs vin) :
    (flags = 0 ∧ vin' = vin ∧ input = rest) ∨
    (flags = 1 ∧ hasWitness vin' = true ∧ vin'.map strip = vin ∧
      (∀ txin ∈ vin', txin.Fits) ∧ input = vin'.flatMap writeWitness ++ rest) := by
  rw [readWitnessData] at read
  split at read
  · obtain ⟨vin'', mid, first, checked⟩ := bind_eq_some.mp read
    obtain ⟨isBase, fits, rfl⟩ := readWitnesses_only first inputs.2
    split at checked
    · cases checked
    · rename_i present
      obtain ⟨same, rfl⟩ := pure_eq_some.mp checked
      obtain ⟨isFlags, rfl⟩ := Prod.mk.inj same
      exact .inr ⟨UInt8.xor_eq_zero_iff.mp isFlags.symm, by simpa using present, isBase, fits, rfl⟩
  · obtain ⟨same, rfl⟩ := pure_eq_some.mp read
    obtain ⟨isFlags, rfl⟩ := Prod.mk.inj same
    exact .inl ⟨isFlags.symm, rfl, rfl⟩

/-- Only what is written is accepted, and only transactions that can be told apart. -/
theorem unserializeTransaction_only (read : unserializeTransaction true input = some (tx, rest)) :
    tx.Fits ∧ (tx.vin ≠ [] ∨ tx.vout = []) ∧ input = serializeTransaction true tx ++ rest := by
  obtain ⟨nVersion, afterVersion, first, later⟩ := bind_eq_some.mp read
  obtain ⟨-, rfl⟩ := format_int32.only first
  obtain ⟨⟨flags, vin, vout⟩, afterLists, second, witnessed⟩ := bind_eq_some.mp later
  obtain ⟨⟨flags', vin'⟩, afterWitness, third, checked⟩ := bind_eq_some.mp witnessed
  obtain ⟨inputs, outputs, lists⟩ := readLists_only second
  simp only at third checked
  split at checked
  · cases checked
  rename_i zero
  obtain rfl : flags' = 0 := not_not.mp zero
  obtain ⟨nLockTime, last, fourth, done⟩ := bind_eq_some.mp checked
  obtain ⟨rfl, rfl⟩ := pure_eq_some.mp done
  obtain ⟨-, rfl⟩ := format_uint32.only fourth
  obtain ⟨rfl, rfl, rfl⟩ | ⟨rfl, present, isBase, fits, rfl⟩ := readWitnessData_only third inputs
  · obtain ⟨-, told, rfl⟩ | ⟨ne, -⟩ := lists
    · refine ⟨⟨inputs.1, outputs.1, fun txin mem => (inputs.2 txin mem).1, outputs.2⟩, told, ?_⟩
      rw [serializeTransaction_basic (hasWitness_of_stripped fun txin mem =>
        (inputs.2 txin mem).2)]
      simp only [append_assoc]
    · exact absurd rfl ne
  obtain ⟨absurd', -⟩ | ⟨-, rfl⟩ := lists
  · cases absurd'
  have count : vin'.length = vin.length := by rw [← isBase, length_map]
  refine ⟨⟨?_, outputs.1, fits, outputs.2⟩, .inl ?_, ?_⟩
  · exact count.trans_le inputs.1
  · rintro rfl
    cases present
  · rw [serializeTransaction_extended present, ← writeVin_strip vin', isBase]
    simp only [append_assoc, cons_append]

/-- Behind the marker only the two known values of the flags are accepted. -/
theorem unserializeTransaction_flags (unknown : flags ≠ 0 ∧ flags ≠ 1) :
    unserializeTransaction true (writeInt32 nVersion ++ (writeVector writeTxIn [] ++ (flags :: rest)))
      = none := by
  rw [Option.eq_none_iff_forall_ne_some]
  rintro ⟨tx, last⟩ read
  obtain ⟨nVersion', mid, first, later⟩ := bind_eq_some.mp read
  cases (reads_int32 nVersion _).symm.trans first
  obtain ⟨⟨flags', vin, vout⟩, afterLists, second, witnessed⟩ := bind_eq_some.mp later
  obtain ⟨⟨left, vin'⟩, afterWitness, third, checked⟩ := bind_eq_some.mp witnessed
  obtain ⟨inputs, -, -⟩ := readLists_only second
  have eq : flags' = flags := by
    obtain ⟨none, mid, marker, lists⟩ := bind_eq_some.mp second
    cases (readVin_nil (flags :: rest)).symm.trans marker
    obtain ⟨flags'', mid, byte, lists⟩ := bind_eq_some.mp lists
    cases byte
    rw [if_pos unknown.1] at lists
    obtain ⟨_, _, -, outs⟩ := bind_eq_some.mp lists
    obtain ⟨_, _, -, done⟩ := bind_eq_some.mp outs
    exact congrArg Prod.fst (pure_eq_some.mp done).1
  subst eq
  simp only at third checked
  split at checked
  · cases checked
  rename_i zero
  obtain rfl : left = 0 := not_not.mp zero
  obtain ⟨isZero, -⟩ | ⟨isOne, -⟩ := readWitnessData_only third inputs
  · exact unknown.1 isZero
  · exact unknown.2 isOne

/-- Witnesses that are all empty are refused. -/
theorem unserializeTransaction_superfluous (fits : tx.Fits) (none : hasWitness tx.vin = false) :
    unserializeTransaction true (writeInt32 tx.nVersion ++ (writeVector writeTxIn []
      ++ (1 :: (writeVector writeTxIn tx.vin ++ (writeVector writeTxOut tx.vout
        ++ (tx.vin.flatMap writeWitness ++ rest)))))) = Option.none := by
  rw [Option.eq_none_iff_forall_ne_some]
  rintro ⟨tx', last⟩ read
  have inputs : PlainInputs tx.vin := by
    refine ⟨fits.vin, fun txin mem => ⟨fits.inputs txin mem, ?_⟩⟩
    simpa using any_eq_false.mp none txin mem
  obtain ⟨nVersion, mid, first, later⟩ := bind_eq_some.mp read
  cases (reads_int32 tx.nVersion _).symm.trans first
  obtain ⟨⟨flags, vin, vout⟩, afterLists, second, witnessed⟩ := bind_eq_some.mp later
  cases (readLists_extended (show (1 : UInt8) ≠ 0 by decide) inputs ⟨fits.vout, fits.outputs⟩
    _).symm.trans second
  obtain ⟨⟨left, vin'⟩, afterWitness, third, -⟩ := bind_eq_some.mp witnessed
  obtain ⟨vin'', afterStacks, stacked, checked⟩ := bind_eq_some.mp third
  have whole := reads_witnesses fits.inputs rest
  rw [map_strip_of_hasWitness none] at whole
  cases whole.symm.trans stacked
  rw [none] at checked
  cases checked

/-- Reading and writing are inverse to each other: a transaction that has inputs, or
    neither inputs nor outputs, is read back from its bytes, and what is accepted are
    the bytes of the transaction read. In particular no transaction has two encodings;
    neither longer sizes nor unknown flags nor empty witness records are accepted. -/
theorem unserializeTransaction_bijective :
    (∀ tx rest, tx.Fits → tx.vin ≠ [] ∨ (tx.vin = [] ∧ tx.vout = []) →
      unserializeTransaction true (serializeTransaction true tx ++ rest) = some (tx, rest)) ∧
    (∀ input tx rest, unserializeTransaction true input = some (tx, rest) →
      tx.Fits ∧ (tx.vin ≠ [] ∨ (tx.vin = [] ∧ tx.vout = [])) ∧
        input = serializeTransaction true tx ++ rest) ∧
    (∀ first second tx, unserializeTransaction true first = some (tx, []) →
      unserializeTransaction true second = some (tx, []) → first = second) ∧
    (∀ input nSize rest, readCompactSize input = some (nSize, rest) →
      input = writeCompactSize nSize ++ rest) ∧
    (∀ (tx : CTransaction) rest, tx.Fits → hasWitness tx.vin = false →
      unserializeTransaction true (writeInt32 tx.nVersion ++ (writeVector writeTxIn []
        ++ (1 :: (writeVector writeTxIn tx.vin ++ (writeVector writeTxOut tx.vout
          ++ (tx.vin.flatMap writeWitness ++ rest)))))) = none) ∧
    ∀ nVersion flags rest, flags ≠ 0 → flags ≠ 1 →
      unserializeTransaction true
        (writeInt32 nVersion ++ (writeVector writeTxIn [] ++ (flags :: rest))) = none := by
  refine ⟨fun tx rest fits told => ?_, fun input tx rest read => ?_,
    fun first second tx readFirst readSecond => ?_,
    fun input nSize rest read => (format_compactSize.only read).2,
    fun tx rest fits none => unserializeTransaction_superfluous fits none,
    fun nVersion flags rest nonzero notOne => unserializeTransaction_flags ⟨nonzero, notOne⟩⟩
  · exact unserializeTransaction_reads fits (told.imp_right And.right) rest
  · obtain ⟨fits, told, bytes⟩ := unserializeTransaction_only read
    refine ⟨fits, ?_, bytes⟩
    by_cases empty : tx.vin = []
    · exact .inr ⟨empty, told.resolve_left (not_not.mpr empty)⟩
    · exact .inl empty
  · rw [(unserializeTransaction_only readFirst).2.2, (unserializeTransaction_only readSecond).2.2]

end Transaction

def exampleTransaction : CTransaction where
  vin := [{ prevout := { hash := 7, n := 1 }, scriptSig := [], nSequence := 0, scriptWitness := [[1]] }]
  vout := [{ nValue := 50, scriptPubKey := [0x51] }]
  nVersion := 2
  nLockTime := 0

theorem unserializeTransaction_bijective_example :
    unserializeTransaction true (serializeTransaction true exampleTransaction ++ [9])
      = some (exampleTransaction, [9]) := by
  refine unserializeTransaction_bijective.1 exampleTransaction [9] ?_ (.inl (by decide))
  refine ⟨by decide, by decide, fun txin member => ?_, fun txout member => ?_⟩
  · obtain rfl := mem_singleton.mp member
    exact ⟨by decide, Nat.zero_le _, by decide, fun item inside => by
      obtain rfl := mem_singleton.mp inside
      exact (by decide : 1 ≤ maxSize)⟩
  · obtain rfl := mem_singleton.mp member
    exact ⟨by decide, (by decide : 1 ≤ maxSize)⟩

end HobbyHash
