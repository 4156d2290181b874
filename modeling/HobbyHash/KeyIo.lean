import HobbyHash.Base58
import HobbyHash.Bech32

/-! # Addresses

`EncodeDestination` and `DecodeDestination` of `key_io.cpp` for the parameters of the
main network. The reader takes a string for Bech32 if it begins with the
human-readable part in either case, so no Base58 address may begin with these
letters: the two version bytes fix the first character of a Base58 address, and for
the one that is an `H` they keep the second below the letters that could be an `o`.
The text for a string that is neither is that of `LocateErrors`, a parameter here.
-/

namespace HobbyHash.KeyIo

open Machine StrEncodings Base58 Library.Radix List UInt8 Nat

def bech32WitnessProgMaxLen : Nat := 40

def witnessV1TaprootSize : Nat := 32

/-- The parts of `CChainParams` that addresses use. -/
structure CChainParams where
  pubkeyAddress : List UInt8
  scriptAddress : List UInt8
  bech32HRP : List UInt8

def mainParams : CChainParams where
  pubkeyAddress := [40]
  scriptAddress := [95]
  bech32HRP := str ['h', 'o', 'b', 'c']

inductive CTxDestination where
  | noDestination (script : List UInt8)
  | pubKeyDestination (pubkey : List UInt8)
  | pkHash (hash : Bytes 20)
  | scriptHash (hash : Bytes 20)
  | witnessV0ScriptHash (hash : Bytes 32)
  | witnessV0KeyHash (hash : Bytes 20)
  | witnessV1Taproot (key : Bytes 32)
  | witnessUnknown (version : UInt32) (program : List UInt8)
  deriving DecidableEq

namespace CTxDestination

def HasAddress : CTxDestination → Prop
  | noDestination _ => False
  | pubKeyDestination _ => False
  | witnessUnknown version program =>
    1 ≤ version.toNat ∧ version.toNat ≤ 16 ∧ 2 ≤ program.length ∧ program.length ≤ 40 ∧
      ¬ (version.toNat = 1 ∧ program.length = 32)
  | _ => True

def isWitness : CTxDestination → Bool
  | witnessV0ScriptHash _ | witnessV0KeyHash _ | witnessV1Taproot _ | witnessUnknown _ _ => true
  | _ => false

end CTxDestination

section

variable (hash : List UInt8 → Bytes 32) (params : CChainParams)

/-- The address of a witness program: the version and the program in groups of five
    bits. -/
def encodeWitness (encoding : Bech32.Encoding) (version : UInt8) (program : List UInt8) :
    Except Fault (List UInt8) :=
  let data := version :: ((convertBits 8 5 true (program.map toNat)).1.map ofNat)
  Bech32.encode encoding params.bech32HRP data

/-- `DestinationEncoder`. -/
def encodeDestination : CTxDestination → Except Fault (List UInt8)
  | .pkHash id => encodeBase58Check hash (params.pubkeyAddress ++ id.1)
  | .scriptHash id => encodeBase58Check hash (params.scriptAddress ++ id.1)
  | .witnessV0KeyHash id => encodeWitness params .bech32 0 id.1
  | .witnessV0ScriptHash id => encodeWitness params .bech32 0 id.1
  | .witnessV1Taproot tap => encodeWitness params .bech32m 1 tap.1
  | .witnessUnknown version program =>
    if version < 1 ∨ version > 16 ∨ program.length < 2 ∨ program.length > 40 then .ok []
    else encodeWitness params .bech32m version.toUInt8 program
  | .noDestination _ => .ok []
  | .pubKeyDestination _ => .ok []

def isBech32 (s : List UInt8) : Bool :=
  (s.take params.bech32HRP.length).map toLower = params.bech32HRP

/-- What the reader returns: a destination, and an error text that is empty if there
    is one. -/
abbrev Decoded := CTxDestination × String

def failed (text : String) : Decoded := (.noDestination [], text)

def byteStr (data : List UInt8) : String := if data.length = 1 then "byte" else "bytes"

/-- The branch of `DecodeDestination` for Base58 data. -/
def decodeBase58Data (data : List UInt8) : Decoded :=
  if fits : data.length = 20 + params.pubkeyAddress.length ∧ params.pubkeyAddress <+: data then
    (.pkHash ⟨data.drop params.pubkeyAddress.length, by simp [fits.1]⟩, "")
  else if fits : data.length = 20 + params.scriptAddress.length ∧ params.scriptAddress <+: data then
    (.scriptHash ⟨data.drop params.scriptAddress.length, by simp [fits.1]⟩, "")
  else if params.scriptAddress <+: data ∨ params.pubkeyAddress <+: data then
    failed "Invalid length for Base58 address (P2PKH or P2SH)"
  else failed "Invalid or unsupported Base58-encoded address."

/-- The branch of `DecodeDestination` for a witness program. -/
def decodeProgram (version : UInt8) (data : List UInt8) : Decoded :=
  if version = 0 then
    if fits : data.length = 20 then (.witnessV0KeyHash ⟨data, fits⟩, "")
    else if fits : data.length = 32 then (.witnessV0ScriptHash ⟨data, fits⟩, "")
    else failed ("Invalid Bech32 v0 address program size (" ++ toString data.length ++ " " ++
      byteStr data ++ "), per BIP141")
  else if fits : version = 1 ∧ data.length = witnessV1TaprootSize then
    (.witnessV1Taproot ⟨data, fits.2⟩, "")
  else if version > 16 then failed "Invalid Bech32 address witness version"
  else if data.length < 2 ∨ data.length > bech32WitnessProgMaxLen then
    failed ("Invalid Bech32 address program size (" ++ toString data.length ++ " " ++
      byteStr data ++ ")")
  else (.witnessUnknown version.toUInt32 data, "")

def text (s : List UInt8) : String := String.ofList (s.map fun c => Char.ofNat c.toNat)

/-- The branch of `DecodeDestination` for Bech32 data. -/
def decodeBech32Data (dec : Bech32.DecodeResult) : Decoded :=
  match dec.data with
  | [] => failed "Empty Bech32 data section"
  | version :: symbols =>
    if dec.hrp ≠ params.bech32HRP then
      failed ("Invalid or unsupported prefix for Segwit (Bech32) address (expected " ++
        text params.bech32HRP ++ ", got " ++ text dec.hrp ++ ").")
    else if version = 0 ∧ dec.encoding ≠ .bech32 then
      failed "Version 0 witness address must use Bech32 checksum"
    else if version ≠ 0 ∧ dec.encoding ≠ .bech32m then
      failed "Version 1+ witness address must use Bech32m checksum"
    else
      match convertBits 5 8 false (symbols.map toNat) with
      | (data, true) => decodeProgram version (data.map ofNat)
      | (_, false) => failed "Invalid padding in Bech32 data section"

variable (locateErrors : List UInt8 → String)

def decodeDestination (s : List UInt8) : Except Fault Decoded := do
  if isBech32 params s then
    let dec ← Bech32.decode s
    if dec.encoding = .bech32 ∨ dec.encoding = .bech32m then return decodeBech32Data params dec
    return failed (locateErrors s)
  else
    match ← decodeBase58Check hash s 21 with
    | some data => return decodeBase58Data params data
    | none =>
      match ← decodeBase58 s 100 with
      | none => return failed "Invalid or unsupported Segwit (Bech32) or Base58 encoding."
      | some _ => return failed "Invalid checksum or length of Base58 address (P2PKH or P2SH)"

end

variable {hash : List UInt8 → Bytes 32} {locateErrors : List UInt8 → String}

theorem decode_encodeWitness {encoding version program}
    (valid : if version = 0 then encoding = .bech32 else encoding = .bech32m)
    (low : version.toNat ≤ 16) (le : program.length ≤ 40) :
    ∃ s, encodeWitness mainParams encoding version program = .ok s ∧
      isBech32 mainParams s = true ∧
      decodeDestination hash mainParams locateErrors s = .ok (decodeProgram version program) := by
  have bytes : ∀ v ∈ program.map toNat, v < 2 ^ 8 := by
    intro v mem
    obtain ⟨byte, -, rfl⟩ := mem_map.mp mem
    exact byte.toNat_lt
  obtain ⟨symbols, converted, small, fewer, back⟩ :=
    @convertBits_back _ 5 8 (by decide) (by decide) bytes
  rw [length_map] at fewer
  have wide : ∀ v ∈ symbols, v < 256 := fun v mem => lt_trans (small v mem) (by decide)
  have ne : encoding ≠ .invalid := by
    split at valid <;> rw [valid] <;> decide
  obtain ⟨s, encoded, begins, decoded⟩ :=
    @Bech32.decode_encode encoding mainParams.bech32HRP (version :: symbols.map ofNat) ne
      (by unfold Bech32.Plain; decide +kernel) (by decide)
      (by
        intro v mem
        rcases mem_cons.mp mem with rfl | later
        · omega
        · obtain ⟨w, isSymbol, rfl⟩ := mem_map.mp later
          rw [toNat_ofNat_of_lt' (wide w isSymbol)]
          exact small w isSymbol)
      (by
        rw [length_cons, length_map]
        have four : mainParams.bech32HRP.length = 4 := by decide
        omega)
  have reads : isBech32 mainParams s = true := by
    rw [isBech32, ← prefix_iff_eq_take.mp begins]
    decide
  refine ⟨s, by rw [encodeWitness, converted]; exact encoded, reads, ?_⟩
  rw [decodeDestination, reads]
  simp only [if_true, decoded, ok_bind]
  have program_eq : (program.map toNat).map ofNat = program := map_toNat_ofNat program
  by_cases zero : version = 0
  · rw [if_pos zero] at valid
    simp only [decodeBech32Data, zero, valid, map_ofNat_toNat wide, back, program_eq, true_or,
      if_true]
    rfl
  · rw [if_neg zero] at valid
    simp only [decodeBech32Data, zero, valid, map_ofNat_toNat wide, back, program_eq, or_true,
      if_true, ne_eq, not_true_eq_false, false_and, and_false, if_false]
    rfl

/-- The digits of a number begin with those of its quotients. -/
theorem digits_div_lead (lt : 1 < base) (n k : Nat) :
    (digits base (n / base ^ k)).reverse <+: (digits base n).reverse := by
  induction k generalizing n with
  | zero => simp
  | succ k ih =>
    rw [pow_succ', ← Nat.div_div_eq_div_mul]
    refine (ih (n / base)).trans ?_
    rcases Nat.eq_zero_or_pos n with rfl | pos
    · simp
    · rw [digits_def' lt pos, reverse_cons]
      exact prefix_append _ _

theorem value_version (length : rest.length = 24) :
    version.toNat * 256 ^ 24 ≤ value 256 ((version :: rest).map toNat) ∧
      value 256 ((version :: rest).map toNat) < (version.toNat + 1) * 256 ^ 24 := by
  have lt : value 256 (rest.map toNat) < 256 ^ (rest.map toNat).length := by
    apply value_lt (by decide)
    intro digit mem
    obtain ⟨byte, -, rfl⟩ := mem_map.mp mem
    exact byte.toNat_lt
  rw [map_cons, value_cons]
  rw [length_map, length] at lt ⊢
  omega

/-- An address that begins otherwise than the human-readable part is not taken for
    Bech32. -/
theorem isBech32_of_lead {digits lead} (begins : lead <+: digits)
    (le : lead.length ≤ mainParams.bech32HRP.length)
    (ne : (spell lead).map toLower ≠ mainParams.bech32HRP.take lead.length) :
    isBech32 mainParams (spell digits) = false := by
  rw [isBech32, decide_eq_false_iff_not]
  intro same
  apply ne
  have spelled : spell lead = (spell digits).take lead.length := by
    rw [spell, spell, ← map_take, ← prefix_iff_eq_take.mp begins]
  rw [← same, ← map_take, take_take, min_eq_left le, spelled]

theorem encodeBase58_version (ne : version ≠ 0) (length : rest.length = 24) :
    encodeBase58 (version :: rest) =
      .ok (spell (digits 58 (value 256 ((version :: rest).map toNat))).reverse) :=
  @encodeBase58_eq (version :: rest) 0 (by simpa using ne) (by rw [length_cons, length]; decide)

/-- Addresses of key hashes begin with `H6` to `HV`. -/
theorem isBech32_pubkeyAddress {rest s} (length : rest.length = 24)
    (encoded : encodeBase58 (40 :: rest) = .ok s) : isBech32 mainParams s = false := by
  obtain ⟨least, most⟩ := @value_version 40 rest length
  cases (encodeBase58_version (by decide) length).symm.trans encoded
  generalize value 256 ((40 :: rest).map toNat) = n at least most ⊢
  have leads : ∀ q < 957, 933 ≤ q →
      (digits 58 q).reverse.length ≤ mainParams.bech32HRP.length ∧
      (spell (digits 58 q).reverse).map toLower ≠
        mainParams.bech32HRP.take (digits 58 q).reverse.length := by
    decide +kernel
  have low : 933 ≤ n / 58 ^ 32 := by
    rw [le_div_iff_mul_le (by positivity)]
    exact le_trans (by decide +kernel) least
  have lt : n / 58 ^ 32 < 957 := by
    rw [div_lt_iff_lt_mul (by positivity)]
    exact lt_of_lt_of_le most (by decide +kernel)
  obtain ⟨short, ne⟩ := leads _ lt low
  exact isBech32_of_lead (digits_div_lead (by decide) n 32) short ne

/-- Addresses of script hashes begin with `f`. -/
theorem isBech32_scriptAddress {rest s} (length : rest.length = 24)
    (encoded : encodeBase58 (95 :: rest) = .ok s) : isBech32 mainParams s = false := by
  obtain ⟨least, most⟩ := @value_version 95 rest length
  cases (encodeBase58_version (by decide) length).symm.trans encoded
  generalize value 256 ((95 :: rest).map toNat) = n at least most ⊢
  have lead : n / 58 ^ 33 = 38 := by
    refine Nat.div_eq_of_lt_le ?_ ?_
    · exact le_trans (by decide +kernel) least
    · exact lt_of_lt_of_le most (by decide +kernel)
  have begins := digits_div_lead (by decide : 1 < 58) n 33
  rw [lead] at begins
  exact isBech32_of_lead begins (by decide +kernel) (by decide +kernel)

theorem decode_encodeBase58Check (length : data.length = 21)
    (encoded : encodeBase58Check hash data = .ok s) (other : isBech32 mainParams s = false) :
    decodeDestination hash mainParams locateErrors s = .ok (decodeBase58Data mainParams data) := by
  obtain ⟨s', same, decoded⟩ :=
    @decodeBase58Check_encodeBase58Check data 21 hash (by omega) (by decide) (by omega)
  cases same.symm.trans encoded
  simp only [decodeDestination, other, Bool.false_eq_true, if_false, decoded, ok_bind]
  rfl

/-- Every address is read back, by the reader of its own kind. -/
theorem decodeDestination_encodeDestination (hash : List UInt8 → Bytes 32)
    (locateErrors : List UInt8 → String) (destination : CTxDestination)
    (has : destination.HasAddress) :
    ∃ s, encodeDestination hash mainParams destination = .ok s ∧
      isBech32 mainParams s = destination.isWitness ∧
      decodeDestination hash mainParams locateErrors s = .ok (destination, "") := by
  cases destination with
  | noDestination script => exact absurd has id
  | pubKeyDestination pubkey => exact absurd has id
  | pkHash id =>
    obtain ⟨s, encoded, -⟩ := @decodeBase58Check_encodeBase58Check (40 :: id.1) 21 hash
      (by rw [length_cons, id.2]; decide) (by decide) (by rw [length_cons, id.2]; decide)
    have other := isBech32_pubkeyAddress (by simp [id.2, (hash _).2]) encoded
    refine ⟨s, encoded, other, ?_⟩
    rw [decode_encodeBase58Check (by rw [length_cons, id.2]) encoded other]
    simp [decodeBase58Data, mainParams, id.2]
  | scriptHash id =>
    obtain ⟨s, encoded, -⟩ := @decodeBase58Check_encodeBase58Check (95 :: id.1) 21 hash
      (by rw [length_cons, id.2]; decide) (by decide) (by rw [length_cons, id.2]; decide)
    have other := isBech32_scriptAddress (by simp [id.2, (hash _).2]) encoded
    refine ⟨s, encoded, other, ?_⟩
    rw [decode_encodeBase58Check (by rw [length_cons, id.2]) encoded other]
    simp [decodeBase58Data, mainParams, id.2]
  | witnessV0KeyHash id =>
    obtain ⟨s, encoded, reads, decoded⟩ :=
      @decode_encodeWitness hash locateErrors .bech32 0 id.1 rfl (by decide) (by simp [id.2])
    refine ⟨s, encoded, reads, ?_⟩
    rw [decoded]
    simp [decodeProgram, id.2]
  | witnessV0ScriptHash id =>
    obtain ⟨s, encoded, reads, decoded⟩ :=
      @decode_encodeWitness hash locateErrors .bech32 0 id.1 rfl (by decide) (by simp [id.2])
    refine ⟨s, encoded, reads, ?_⟩
    rw [decoded]
    simp [decodeProgram, id.2]
  | witnessV1Taproot key =>
    obtain ⟨s, encoded, reads, decoded⟩ :=
      @decode_encodeWitness hash locateErrors .bech32m 1 key.1 rfl (by decide) (by simp [key.2])
    refine ⟨s, encoded, reads, ?_⟩
    rw [decoded]
    simp [decodeProgram, key.2, witnessV1TaprootSize]
  | witnessUnknown version program =>
    obtain ⟨least, most, atLeast, atMost, other⟩ := has
    have small : version.toUInt8.toNat = version.toNat := by
      rw [UInt32.toNat_toUInt8]
      omega
    have nonzero : version.toUInt8 ≠ 0 := by
      intro zero
      rw [zero] at small
      have : (0 : UInt8).toNat = 0 := rfl
      omega
    obtain ⟨s, encoded, reads, decoded⟩ :=
      @decode_encodeWitness hash locateErrors .bech32m version.toUInt8 program
        (by rw [if_neg nonzero]) (by omega) atMost
    refine ⟨s, ?_, reads, ?_⟩
    · rw [encodeDestination, if_neg, encoded]
      rw [UInt32.lt_iff_toNat_lt, gt_iff_lt, UInt32.lt_iff_toNat_lt]
      have one : (1 : UInt32).toNat = 1 := rfl
      have sixteen : (16 : UInt32).toNat = 16 := rfl
      omega
    have notTaproot : ¬ (version.toUInt8 = 1 ∧ program.length = witnessV1TaprootSize) := by
      rintro ⟨one, size⟩
      rw [one] at small
      exact other ⟨small.symm, size⟩
    have known : ¬ version.toUInt8 > 16 := by
      rw [gt_iff_lt, lt_iff_toNat_lt, small]
      have sixteen : (16 : UInt8).toNat = 16 := rfl
      omega
    have size : ¬ (program.length < 2 ∨ program.length > bech32WitnessProgMaxLen) := by
      rw [bech32WitnessProgMaxLen]
      omega
    have back : version.toUInt8.toUInt32 = version := by
      apply UInt32.toNat_inj.mp
      rw [toNat_toUInt32, small]
    rw [decoded, decodeProgram, if_neg nonzero, dif_neg notTaproot, if_neg known, if_neg size,
      back]

theorem decodeDestination_encodeDestination_scriptHash :
    ∃ s, encodeDestination (fun _ => ⟨List.replicate 32 7, rfl⟩) mainParams
        (.scriptHash ⟨List.replicate 20 9, rfl⟩) = .ok s ∧
      isBech32 mainParams s = (CTxDestination.scriptHash ⟨List.replicate 20 9, rfl⟩).isWitness ∧
      decodeDestination (fun _ => ⟨List.replicate 32 7, rfl⟩) mainParams (fun _ => "") s =
        .ok (.scriptHash ⟨List.replicate 20 9, rfl⟩, "") :=
  decodeDestination_encodeDestination _ _ (.scriptHash ⟨replicate 20 9, rfl⟩) trivial

end HobbyHash.KeyIo
