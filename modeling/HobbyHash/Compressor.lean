import HobbyHash.Coins
import HobbyHash.Serialize

/-! # Stored coins and undo records

The compact formats of `compressor.cpp`, `coins.h` and `undo.h`. An amount is written as
a number that has its trailing zeros as an exponent. A script of one of the common
forms is written as a tag below six and the bytes that vary, any other one as its
length plus six and its bytes. The curve is a parameter: which uncompressed keys are
valid, and how a compressed key is decompressed.
-/

namespace HobbyHash

open Library Serialize Consensus Machine List Nat

/-- The loop of `CompressAmount`: what is left of `n` and the exponent, after at most so many
    divisions by ten. -/
def dropZeros : Nat → Nat → Nat × Nat
  | 0, n => (n, 0)
  | left + 1, n =>
    if n % 10 = 0 then ((dropZeros left (n / 10)).1, (dropZeros left (n / 10)).2 + 1) else (n, 0)

def compressAmount (n : Nat) : Nat :=
  if n = 0 then 0
  else
    let (n, e) := dropZeros 9 n
    (if e < 9 then 1 + (n / 10 * 9 + n % 10 - 1) * 10 + e else 1 + (n - 1) * 10 + 9) % 2 ^ 64

def decompressAmount (x : Nat) : Nat :=
  if x = 0 then 0
  else
    let e := (x - 1) % 10
    let x := (x - 1) / 10
    (if e < 9 then x / 9 * 10 + (x % 9 + 1) else x + 1) * 10 ^ e % 2 ^ 64

theorem dropZeros_spec (left n : Nat) :
    (dropZeros left n).1 * 10 ^ (dropZeros left n).2 = n ∧ (dropZeros left n).2 ≤ left ∧
      ((dropZeros left n).2 < left → (dropZeros left n).1 % 10 ≠ 0) := by
  induction left generalizing n with
  | zero => simp [dropZeros]
  | succ left ih =>
    obtain ⟨value, bound, last⟩ := ih (n / 10)
    rw [dropZeros]
    split
    · rw [pow_succ, ← mul_assoc, value]
      omega
    · rename_i digit
      exact ⟨by simp, zero_le _, fun _ => digit⟩

theorem dropZeros_mul (most : e = left ∨ e < left ∧ m % 10 ≠ 0) :
    dropZeros left (m * 10 ^ e) = (m, e) := by
  induction left generalizing e with
  | zero =>
    obtain rfl : e = 0 := by omega
    simp [dropZeros]
  | succ left ih =>
    cases e with
    | zero =>
      rw [dropZeros, pow_zero, mul_one, if_neg (by omega)]
    | succ e =>
      have tens : m * 10 ^ (e + 1) = m * 10 ^ e * 10 := by rw [pow_succ, mul_assoc]
      rw [dropZeros, tens, if_pos (mul_mod_left _ _), Nat.mul_div_cancel _ (by decide),
        ih (by omega)]

/-- The two codes as functions on all numbers. -/
def compressed (n : Nat) : Nat :=
  if n = 0 then 0
  else
    let (n, e) := dropZeros 9 n
    if e < 9 then 1 + (n / 10 * 9 + n % 10 - 1) * 10 + e else 1 + (n - 1) * 10 + 9

def decompressed (x : Nat) : Nat :=
  if x = 0 then 0
  else
    let e := (x - 1) % 10
    let x := (x - 1) / 10
    (if e < 9 then x / 9 * 10 + (x % 9 + 1) else x + 1) * 10 ^ e

theorem compressAmount_eq (n : Nat) : compressAmount n = compressed n % 2 ^ 64 := by
  rw [compressAmount, compressed]
  split <;> rfl

theorem decompressAmount_eq (x : Nat) : decompressAmount x = decompressed x % 2 ^ 64 := by
  rw [decompressAmount, decompressed]
  split <;> rfl

theorem compressed_le (n : Nat) : compressed n ≤ 10 * n + 10 := by
  rw [compressed]
  split
  · exact zero_le _
  obtain ⟨value, bound, -⟩ := dropZeros_spec 9 n
  have less := Nat.le_mul_of_pos_right (dropZeros 9 n).1 (Nat.pow_pos (n := (dropZeros 9 n).2)
    (show 0 < 10 by decide))
  dsimp only
  split <;> omega

theorem decompressed_compressed (n : Nat) : decompressed (compressed n) = n := by
  rw [compressed]
  split
  · rename_i zero
    rw [zero]
    rfl
  rename_i ne
  obtain ⟨value, bound, last⟩ := dropZeros_spec 9 n
  generalize dropZeros 9 n = pair at *
  obtain ⟨m, e⟩ := pair
  dsimp only at *
  rw [decompressed, if_neg (by split <;> omega)]
  dsimp only
  split
  · rename_i few
    have exponent : (1 + (m / 10 * 9 + m % 10 - 1) * 10 + e - 1) % 10 = e := by omega
    rw [exponent, if_pos few]
    refine Eq.trans (congrArg (· * 10 ^ e) ?_) value
    omega
  rename_i many
  obtain rfl : e = 9 := by omega
  have exponent : (1 + (m - 1) * 10 + 9 - 1) % 10 = 9 := by omega
  rw [exponent, if_neg many]
  refine Eq.trans (congrArg (· * 10 ^ 9) ?_) value
  omega

theorem compressed_decompressed (x : Nat) : compressed (decompressed x) = x := by
  rw [decompressed]
  split
  · rename_i zero
    rw [zero]
    rfl
  rename_i ne
  generalize isE : (x - 1) % 10 = e
  generalize isM : (if e < 9 then (x - 1) / 10 / 9 * 10 + ((x - 1) / 10 % 9 + 1)
    else (x - 1) / 10 + 1) = m
  have pos : 0 < m := by
    rw [← isM]
    split <;> omega
  have most : e = 9 ∨ e < 9 ∧ m % 10 ≠ 0 := by
    rw [← isM]
    split <;> omega
  have tens : m * 10 ^ e ≠ 0 := (Nat.mul_pos pos (Nat.pow_pos (by decide))).ne'
  dsimp only
  rw [isM, compressed, if_neg tens, dropZeros_mul most]
  dsimp only
  rw [← isM]
  split <;> omega

theorem decompressAmount_compressAmount (lt : n < 2 ^ 60) :
    decompressAmount (compressAmount n) = n ∧ compressAmount n < 2 ^ 64 := by
  have bound := compressed_le n
  rw [decompressAmount_eq, compressAmount_eq, Nat.mod_eq_of_lt (by omega : compressed n < 2 ^ 64),
    decompressed_compressed, Nat.mod_eq_of_lt (by omega)]
  omega

/-- A value of 64 bits, none if the exact one is larger. -/
def uint64 (n : Nat) : Option Nat :=
  if n < 2 ^ 64 then some n else none

/-- `CompressAmount` that stops where an operation overflows. -/
def compressAmountChecked (n : Nat) : Option Nat :=
  if n = 0 then some 0
  else
    let (n, e) := dropZeros 9 n
    if e < 9 then do
      let x ← uint64 (n / 10 * 9)
      let x ← uint64 (x + n % 10)
      let x ← uint64 ((x - 1) * 10)
      let x ← uint64 (1 + x)
      uint64 (x + e)
    else do
      let x ← uint64 ((n - 1) * 10)
      let x ← uint64 (1 + x)
      uint64 (x + 9)

/-- The last loop of `DecompressAmount`. -/
def appendZeros : Nat → Nat → Option Nat
  | 0, n => some n
  | e + 1, n => do
    let n ← uint64 (n * 10)
    appendZeros e n

/-- `DecompressAmount` that stops where an operation overflows. -/
def decompressAmountChecked (x : Nat) : Option Nat :=
  if x = 0 then some 0
  else
    let e := (x - 1) % 10
    let x := (x - 1) / 10
    if e < 9 then do
      let n ← uint64 (x / 9 * 10)
      let n ← uint64 (n + (x % 9 + 1))
      appendZeros e n
    else do
      let n ← uint64 (x + 1)
      appendZeros e n

theorem uint64_bind {next} (later : next n = uint64 value) (le : n ≤ value) :
    (uint64 n >>= next) = uint64 value := by
  by_cases fits : n < 2 ^ 64
  · rw [uint64, if_pos fits]
    exact later
  · rw [uint64, if_neg fits, uint64, if_neg (by omega)]
    rfl

theorem uint64_appendZeros (e n : Nat) : (uint64 n >>= appendZeros e) = uint64 (n * 10 ^ e) := by
  induction e generalizing n with
  | zero =>
    rw [pow_zero, mul_one, uint64]
    split <;> rfl
  | succ e ih =>
    have tens : n * 10 ^ (e + 1) = n * 10 * 10 ^ e := by rw [pow_succ', mul_assoc]
    rw [tens]
    refine uint64_bind (ih (n * 10)) ?_
    rw [mul_assoc]
    exact Nat.le_mul_of_pos_right n (by positivity)

theorem compressAmountChecked_eq (n : Nat) : compressAmountChecked n = uint64 (compressed n) := by
  rw [compressAmountChecked, compressed]
  split
  · rfl
  dsimp only
  split
  · refine uint64_bind (uint64_bind (uint64_bind (uint64_bind rfl ?_) ?_) ?_) ?_ <;> omega
  · exact uint64_bind (uint64_bind rfl (by omega)) (by omega)

theorem decompressAmountChecked_eq (x : Nat) :
    decompressAmountChecked x = uint64 (decompressed x) := by
  rw [decompressAmountChecked, decompressed]
  split
  · rfl
  dsimp only
  split
  · refine uint64_bind (uint64_appendZeros _ _)
      (le_trans (le_add_right _ ((x - 1) / 10 % 9 + 1)) ?_)
    exact Nat.le_mul_of_pos_right _ (by positivity)
  · exact uint64_appendZeros _ _

theorem decompressAmount_of_isSome (fits : (decompressAmountChecked x).isSome) :
    decompressAmountChecked x = some (decompressAmount x) ∧
      decompressAmount x = decompressed x := by
  rw [decompressAmountChecked_eq, uint64] at *
  split at fits
  · rename_i small
    rw [if_pos small, decompressAmount_eq, Nat.mod_eq_of_lt small]
    exact ⟨rfl, rfl⟩
  · cases fits

/-- Amounts in range are coded and decoded without an overflow. Wherever decoding does not
    overflow it can be undone, so that different codes give different amounts. -/
theorem amountCode_bijective :
    (∀ n : Nat, moneyRange n → compressAmountChecked n = some (compressAmount n) ∧
      decompressAmountChecked (compressAmount n) = some n ∧
      decompressAmount (compressAmount n) = n) ∧
    (∀ x < 2 ^ 64, (decompressAmountChecked x).isSome →
      decompressAmountChecked x = some (decompressAmount x) ∧
      compressAmount (decompressAmount x) = x) ∧
    ∀ x < 2 ^ 64, ∀ y < 2 ^ 64, (decompressAmountChecked x).isSome →
      (decompressAmountChecked y).isSome → decompressAmount x = decompressAmount y → x = y := by
  have undone : ∀ x < 2 ^ 64, (decompressAmountChecked x).isSome →
      decompressAmountChecked x = some (decompressAmount x) ∧
      compressAmount (decompressAmount x) = x := by
    intro x small fits
    obtain ⟨checked, value⟩ := decompressAmount_of_isSome fits
    refine ⟨checked, ?_⟩
    rw [value, compressAmount_eq, compressed_decompressed, Nat.mod_eq_of_lt small]
  refine ⟨fun n inRange => ?_, undone, fun x smallX y smallY fitsX fitsY same => ?_⟩
  · have fits : n < 2 ^ 60 := by
      have le := (moneyRange_iff.mp inRange).2
      omega
    have bound := compressed_le n
    have code : compressAmount n = compressed n := by
      rw [compressAmount_eq]
      exact Nat.mod_eq_of_lt (by omega)
    refine ⟨?_, ?_, (decompressAmount_compressAmount fits).1⟩
    · rw [compressAmountChecked_eq, code]
      exact if_pos (by omega)
    · rw [decompressAmountChecked_eq, code, decompressed_compressed]
      exact if_pos (by omega)
  · rw [← (undone x smallX fitsX).2, same, (undone y smallY fitsY).2]

def opDup : UInt8 := 0x76
def opEqual : UInt8 := 0x87
def opEqualVerify : UInt8 := 0x88
def opHash160 : UInt8 := 0xa9
def opCheckSig : UInt8 := 0xac

/-- `CPubKey::IsFullyValid` and `CPubKey::Decompress`, with what is assumed of them: a valid
    key of 65 bytes is found from its first coordinate and the parity of its second one. -/
structure Curve where
  isFullyValid : List UInt8 → Bool
  decompress : List UInt8 → Option (List UInt8)
  decompress_valid : ∀ x y : List UInt8, x.length = 32 → y.length = 32 →
    isFullyValid (4 :: (x ++ y)) →
    decompress ((2 ||| (y.getD 31 0 &&& 1)) :: x) = some (4 :: (x ++ y))

def isToKeyID (script : CScript) : Option (List UInt8) :=
  if script.length = 25 ∧ script.take 3 = [opDup, opHash160, 20] ∧
      script.drop 23 = [opEqualVerify, opCheckSig] then some ((script.drop 3).take 20)
  else none

def isToScriptID (script : CScript) : Option (List UInt8) :=
  if script.length = 23 ∧ script.take 2 = [opHash160, 20] ∧ script.drop 22 = [opEqual] then
    some ((script.drop 2).take 20)
  else none

section Scripts

variable (curve : Curve)

/-- `IsToPubKey`: the key, of 33 or of 65 bytes. -/
def isToPubKey (script : CScript) : Option (List UInt8) :=
  if script.length = 35 ∧ (script.take 2 = [33, 2] ∨ script.take 2 = [33, 3]) ∧
      script.drop 34 = [opCheckSig] then some ((script.drop 1).take 33)
  else if script.length = 67 ∧ script.take 2 = [65, 4] ∧ script.drop 66 = [opCheckSig] then
    let pubkey := (script.drop 1).take 65
    if curve.isFullyValid pubkey then some pubkey else none
  else none

def compressScript (script : CScript) : Option (List UInt8) :=
  match isToKeyID script with
  | some keyID => some (0 :: keyID)
  | none =>
    match isToScriptID script with
    | some scriptID => some (1 :: scriptID)
    | none => do
      let pubkey ← isToPubKey curve script
      let header := pubkey.getD 0 0
      let x := (pubkey.drop 1).take 32
      if header = 2 ∨ header = 3 then some (header :: x)
      else if header = 4 then some ((4 ||| (pubkey.getD 64 0 &&& 1)) :: x)
      else none

def getSpecialScriptSize (nSize : Nat) : Nat :=
  if nSize = 0 ∨ nSize = 1 then 20
  else if nSize = 2 ∨ nSize = 3 ∨ nSize = 4 ∨ nSize = 5 then 32
  else 0

/-- `DecompressScript`, from `GetSpecialScriptSize` bytes. -/
def decompressScript (nSize : Nat) (vch : List UInt8) : Option CScript :=
  if nSize = 0 then some ([opDup, opHash160, 20] ++ (vch ++ [opEqualVerify, opCheckSig]))
  else if nSize = 1 then some ([opHash160, 20] ++ (vch ++ [opEqual]))
  else if nSize = 2 ∨ nSize = 3 then some ([33, UInt8.ofNat nSize] ++ (vch ++ [opCheckSig]))
  else if nSize = 4 ∨ nSize = 5 then do
    let pubkey ← curve.decompress (UInt8.ofNat (nSize - 2) :: vch)
    return 65 :: (pubkey ++ [opCheckSig])
  else none

def nSpecialScripts : Nat := 6

/-- `ScriptCompression::Ser`. -/
def writeCompressedScript (script : CScript) : List UInt8 :=
  match compressScript curve script with
  | some compr => compr
  | none => writeVarInt (script.length + nSpecialScripts) ++ script

/-- `ScriptCompression::Unser`; a script that cannot be decompressed stays empty. -/
def readCompressedScript : Reader CScript := do
  let nSize ← readVarInt uintMax
  if nSize < nSpecialScripts then do
    let vch ← readMany readByte (getSpecialScriptSize nSize)
    return (decompressScript curve nSize vch).getD []
  else if nSize - nSpecialScripts > maxScriptSize then do
    let _ ← readMany readByte (nSize - nSpecialScripts)
    return [opReturn]
  else readMany readByte (nSize - nSpecialScripts)

end Scripts

theorem eq_template (front : List UInt8) (size : Nat) (back : List UInt8)
    (length : script.length = front.length + size + back.length)
    (isFront : script.take front.length = front)
      (isBack : script.drop (front.length + size) = back) :
    ∃ x : List UInt8, x.length = size ∧ script = front ++ (x ++ back) := by
  refine ⟨(script.drop front.length).take size, ?_, ?_⟩
  · rw [length_take, length_drop]
    omega
  · nth_rewrite 1 [← take_append_drop front.length script]
    rw [isFront, ← isBack, ← drop_drop, take_append_drop]

variable {curve : Curve}

theorem and_one (b : UInt8) : b &&& 1 = 0 ∨ b &&& 1 = 1 := by
  simp only [← UInt8.toNat_inj, UInt8.toNat_and, UInt8.reduceToNat, and_one_is_mod]
  omega

theorem decompressScript_compressScript (compressed : compressScript curve script = some compr) :
    ∃ tag vch, compr = tag :: vch ∧ tag.toNat < nSpecialScripts ∧
      vch.length = getSpecialScriptSize tag.toNat ∧
      decompressScript curve tag.toNat vch = some script := by
  rw [compressScript] at compressed
  split at compressed
  · rename_i keyID isKeyID
    cases compressed
    rw [isToKeyID] at isKeyID
    split at isKeyID
    · rename_i form
      obtain ⟨x, length, rfl⟩ := eq_template [opDup, opHash160, 20] 20 [opEqualVerify, opCheckSig]
        form.1 form.2.1 form.2.2
      cases isKeyID
      refine ⟨0, x, ?_, by decide, length, rfl⟩
      simp [length]
    · cases isKeyID
  · split at compressed
    · rename_i scriptID isScriptID
      cases compressed
      rw [isToScriptID] at isScriptID
      split at isScriptID
      · rename_i form
        obtain ⟨x, length, rfl⟩ :=
          eq_template [opHash160, 20] 20 [opEqual] form.1 form.2.1 form.2.2
        cases isScriptID
        refine ⟨1, x, ?_, by decide, length, rfl⟩
        simp [length]
      · cases isScriptID
    · obtain ⟨pubkey, isPubKey, shrunk⟩ := Option.bind_eq_some_iff.mp compressed
      rw [isToPubKey] at isPubKey
      split at isPubKey
      · rename_i form
        obtain ⟨header, isHeader, front⟩ : ∃ header : UInt8, (header = 2 ∨ header = 3) ∧
            script.take 2 = [33, header] := by
          obtain even | odd := form.2.1
          · exact ⟨2, .inl rfl, even⟩
          · exact ⟨3, .inr rfl, odd⟩
        obtain ⟨x, length, rfl⟩ := eq_template [33, header] 32 [opCheckSig] form.1 front form.2.2
        cases isPubKey
        have whole : x.take 32 = x := take_of_length_le length.le
        obtain rfl | rfl := isHeader
        · exact ⟨2, x, by simpa [length, whole] using shrunk.symm, by decide, length, rfl⟩
        · exact ⟨3, x, by simpa [length, whole] using shrunk.symm, by decide, length, rfl⟩
      · split at isPubKey
        · rename_i form
          obtain ⟨xy, length, rfl⟩ := eq_template [65, 4] 64 [opCheckSig] form.1 form.2.1 form.2.2
          obtain ⟨x, y, lengthX, lengthY, rfl⟩ : ∃ x y : List UInt8, x.length = 32 ∧ y.length = 32 ∧
              xy = x ++ y :=
            ⟨xy.take 32, xy.drop 32, by simp [length], by simp [length],
              (take_append_drop 32 xy).symm⟩
          have key : ([65, 4] ++ (x ++ y ++ [opCheckSig])).tail.take 65 = 4 :: (x ++ y) := by
            simp [lengthX, lengthY, take_append, take_of_length_le]
          dsimp only at isPubKey
          split at isPubKey
          · rename_i valid
            cases isPubKey
            rw [drop_one, key] at shrunk valid
            have back := curve.decompress_valid x y lengthX lengthY valid
            have eq : (4 :: (x ++ y)).getD 64 0 = y.getD 31 0 := by
              simp [getElem?_append, lengthX]
            have start : ((4 :: (x ++ y)).drop 1).take 32 = x := by
              simp [lengthX]
            rw [eq, start] at shrunk
            obtain even | odd := and_one (y.getD 31 0)
            · rw [even] at back shrunk
              refine ⟨4, x, by simpa using shrunk.symm, by decide, lengthX, ?_⟩
              simp [decompressScript, show curve.decompress (2 :: x) = _ from back]
            · rw [odd] at back shrunk
              have five : (4 : UInt8) ||| 1 = 5 := by decide
              refine ⟨5, x, by simpa [five] using shrunk.symm, by decide, lengthX, ?_⟩
              simp [decompressScript, show curve.decompress (3 :: x) = _ from back]
          · cases isPubKey
        · cases isPubKey

theorem writeVarInt_small (lt : n < 128) : writeVarInt n = [UInt8.ofNat n] := by
  rw [writeVarInt, varIntBytes, if_pos (by omega), mod_eq_of_lt lt]
  simp

theorem reads_compressedScript (curve : Curve) (le : script.length ≤ maxScriptSize) :
    Reads (readCompressedScript curve) (writeCompressedScript curve script) script := by
  rw [writeCompressedScript]
  split
  · rename_i compr compressed
    obtain ⟨tag, vch, rfl, special, length, back⟩ := decompressScript_compressScript compressed
    have size : Reads (readVarInt uintMax) [tag] tag.toNat := by
      have read := @reads_varInt uintMax tag.toNat (le_of_lt (special.trans (by decide)))
      rwa [writeVarInt_small (special.trans (by decide)), UInt8.ofNat_toNat] at read
    have read := (Reads.bytes vch).map fun vch => (decompressScript curve tag.toNat vch).getD []
    rw [back, length] at read
    refine size.bind ?_
    rw [if_pos special]
    exact read
  · have size : Reads (readVarInt uintMax) (writeVarInt (script.length + nSpecialScripts)) _ :=
      reads_varInt (Nat.add_le_add_right (le.trans (by decide : maxScriptSize ≤ uintMax - 6)) 6)
    refine size.bind ?_
    rw [if_neg (by omega), Nat.add_sub_cancel, if_neg (Nat.not_lt.mpr le)]
    exact .bytes script

/-- `AmountCompression`. -/
def writeAmount (n : Int) : List UInt8 :=
  writeVarInt (compressAmount (n % 2 ^ 64).toNat)

def readAmount : Reader Int :=
  (fun v => ((decompressAmount v : Nat) : Int).bmod (2 ^ 64)) <$> readVarInt (2 ^ 64 - 1)

theorem reads_amount (range : moneyRange n) : Reads readAmount (writeAmount n) n := by
  obtain ⟨nonneg, le⟩ := moneyRange_iff.mp range
  have value : (n % 2 ^ 64).toNat = n.toNat := by omega
  obtain ⟨back, fits⟩ := @decompressAmount_compressAmount n.toNat (by omega)
  have read := (reads_varInt (le_sub_one_of_lt fits)).map fun v =>
    ((decompressAmount v : Nat) : Int).bmod (2 ^ 64)
  rw [writeAmount, value]
  rw [back, Int.toNat_of_nonneg nonneg, Int.bmod_eq_of_le (by omega) (by omega)] at read
  exact read

section Formats

variable (curve : Curve)

/-- `TxOutCompression`. -/
def writeCompressedTxOut (out : CTxOut) : List UInt8 :=
  writeAmount out.nValue ++ writeCompressedScript curve out.scriptPubKey

def readCompressedTxOut : Reader CTxOut := do
  let nValue ← readAmount
  let scriptPubKey ← readCompressedScript curve
  return { nValue := nValue, scriptPubKey := scriptPubKey }

/-- The height and the coinbase bit, in 32 bits. -/
def Coin.code (coin : Coin) : Nat :=
  (coin.nHeight * 2 + coin.fCoinBase.toNat) % 2 ^ 32

/-- `Coin::Serialize`, which asserts that the coin is not spent. -/
def writeCoin (coin : Coin) : Except Fault (List UInt8) :=
  if coin.isSpent then .error (.assertion "!IsSpent()")
  else .ok (writeVarInt coin.code ++ writeCompressedTxOut curve coin.out)

def readCoin : Reader Coin := do
  let code ← readVarInt uintMax
  let out ← readCompressedTxOut curve
  return { out := out, fCoinBase := code % 2 = 1, nHeight := code / 2 }

/-- `TxInUndoFormatter`: a coin with a dummy version above the genesis block. -/
def writeTxInUndo (coin : Coin) : List UInt8 :=
  writeVarInt coin.code ++
    ((if coin.nHeight > 0 then [0] else []) ++ writeCompressedTxOut curve coin.out)

def readVersionDummy (nHeight : Nat) : Reader Nat :=
  if nHeight > 0 then readVarInt uintMax else pure 0

def readTxInUndo : Reader Coin := do
  let nCode ← readVarInt uintMax
  let _ ← readVersionDummy (nCode / 2)
  let out ← readCompressedTxOut curve
  return { out := out, fCoinBase := nCode % 2 = 1, nHeight := nCode / 2 }

def writeTxUndo (vprevout : List Coin) : List UInt8 :=
  writeVector (writeTxInUndo curve) vprevout

def readTxUndo : Reader (List Coin) :=
  readVector (readTxInUndo curve)

def writeBlockUndo (vtxundo : List (List Coin)) : List UInt8 :=
  writeVector (writeTxUndo curve) vtxundo

def readBlockUndo : Reader (List (List Coin)) :=
  readVector (readTxUndo curve)

end Formats

structure Coin.Storable (coin : Coin) : Prop where
  nHeight : coin.nHeight < 2 ^ 31
  nValue : moneyRange coin.out.nValue
  scriptPubKey : coin.out.scriptPubKey.length ≤ maxScriptSize

section Stored

variable {coin : Coin}

theorem Coin.Storable.code (storable : coin.Storable) :
    coin.code ≤ uintMax ∧ coin.code / 2 = coin.nHeight ∧
      decide (coin.code % 2 = 1) = coin.fCoinBase := by
  have height := storable.nHeight
  have bit : coin.fCoinBase.toNat ≤ 1 := Bool.toNat_le _
  rw [Coin.code, mod_eq_of_lt (by omega), uintMax]
  refine ⟨by omega, by omega, ?_⟩
  cases coin.fCoinBase <;> simp

theorem reads_compressedTxOut (curve : Curve) (storable : coin.Storable) :
    Reads (readCompressedTxOut curve) (writeCompressedTxOut curve coin.out) coin.out :=
  (reads_amount storable.nValue).bind
    ((reads_compressedScript curve storable.scriptPubKey).map (CTxOut.mk coin.out.nValue))

theorem reads_coin (curve : Curve) (storable : coin.Storable) :
    ∃ bytes, writeCoin curve coin = .ok bytes ∧ Reads (readCoin curve) bytes coin := by
  obtain ⟨fits, height, bit⟩ := storable.code
  have unspent : ¬ coin.isSpent := by
    have value := storable.nValue.1
    simp only [Coin.isSpent, CTxOut.isNull, beq_iff_eq]
    omega
  have out := (reads_compressedTxOut curve storable).map fun out =>
    ({ out := out, fCoinBase := coin.code % 2 = 1, nHeight := coin.code / 2 } : Coin)
  rw [height, bit] at out
  refine ⟨_, by rw [writeCoin, if_neg unspent], (reads_varInt fits).bind ?_⟩
  rw [height, bit]
  exact out

theorem reads_txInUndo (curve : Curve) (storable : coin.Storable) :
    Reads (readTxInUndo curve) (writeTxInUndo curve coin) coin := by
  obtain ⟨fits, height, bit⟩ := storable.code
  have out := (reads_compressedTxOut curve storable).map fun out =>
    ({ out := out, fCoinBase := coin.code % 2 = 1, nHeight := coin.code / 2 } : Coin)
  have dummy : Reads (readVersionDummy (coin.code / 2))
    (if coin.nHeight > 0 then [0] else []) 0 := by
    rw [height, readVersionDummy]
    split
    · have read := @reads_varInt uintMax 0 (zero_le _)
      rwa [writeVarInt_small (by decide)] at read
    · exact .pure 0
  rw [height, bit] at out
  refine (reads_varInt fits).bind (dummy.bind ?_)
  rw [height, bit]
  exact out

theorem reads_vector {α : Type} {reader : Reader α} {write : α → List UInt8} {v : List α}
    (le : v.length ≤ maxSize) (each : ∀ a ∈ v, Reads reader (write a) a) :
    Reads (readVector reader) (writeVector write v) v :=
  (format_compactSize.reads v.length ⟨le.trans_lt (by decide), not_lt.mpr le⟩).bind
    (.many each)

end Stored

/-- Coins and undo records are read back, whatever follows them. -/
theorem coins_read_back (curve : Curve) :
    (∀ coin : Coin, coin.Storable →
      ∃ bytes, writeCoin curve coin = .ok bytes ∧ Reads (readCoin curve) bytes coin) ∧
    (∀ vprevout : List Coin, (∀ coin ∈ vprevout, coin.Storable) → vprevout.length ≤ maxSize →
      Reads (readTxUndo curve) (writeTxUndo curve vprevout) vprevout) ∧
    ∀ vtxundo : List (List Coin), (∀ vprevout ∈ vtxundo, ∀ coin ∈ vprevout, coin.Storable) →
      (∀ vprevout ∈ vtxundo, vprevout.length ≤ maxSize) → vtxundo.length ≤ maxSize →
      Reads (readBlockUndo curve) (writeBlockUndo curve vtxundo) vtxundo := by
  have undo : ∀ vprevout : List Coin, (∀ coin ∈ vprevout, coin.Storable) →
      vprevout.length ≤ maxSize → Reads (readTxUndo curve) (writeTxUndo curve vprevout) vprevout :=
    fun vprevout storable fits =>
      reads_vector fits fun coin member => reads_txInUndo curve (storable coin member)
  exact ⟨fun coin => reads_coin curve, undo, fun vtxundo storable fits size =>
    reads_vector size fun vprevout member => undo vprevout (storable _ member) (fits _ member)⟩

def exampleCurve : Curve where
  isFullyValid key := key = 4 :: replicate 64 0
  decompress key := if key = 2 :: replicate 32 0 then some (4 :: replicate 64 0) else none
  decompress_valid := by
    intro x y lengthX lengthY valid
    obtain ⟨-, whole⟩ := cons.inj (of_decide_eq_true valid)
    have halves : replicate 64 (0 : UInt8) = replicate 32 0 ++ replicate 32 0 := by decide
    obtain ⟨rfl, rfl⟩ : x = replicate 32 0 ∧ y = replicate 32 0 :=
      append_inj (whole.trans halves) (by simp [lengthX])
    decide

/-- A coin for that key, and a vector of more coins than are ever read. -/
def exampleKeyCoin : Coin :=
  ⟨⟨5000000000, 65 :: 4 :: (replicate 64 0 ++ [opCheckSig])⟩, true, 7⟩

theorem exampleKeyCoin_storable : exampleKeyCoin.Storable :=
  ⟨by decide, by decide, by decide⟩

theorem coins_read_back_key :
    ∃ bytes, writeCoin exampleCurve exampleKeyCoin = .ok bytes ∧
      Reads (readCoin exampleCurve) bytes exampleKeyCoin :=
  (coins_read_back exampleCurve).1 exampleKeyCoin exampleKeyCoin_storable

theorem undo_not_read_back : ∃ (curve : Curve) (vprevout : List Coin),
    (∀ coin ∈ vprevout, coin.Storable) ∧
      readTxUndo curve (writeTxUndo curve vprevout) = none := by
  refine ⟨exampleCurve, replicate (maxSize + 1) exampleKeyCoin, fun coin member => ?_, ?_⟩
  · rw [eq_of_mem_replicate member]
    exact exampleKeyCoin_storable
  rw [Option.eq_none_iff_forall_ne_some]
  rintro ⟨vprevout, rest⟩ read
  rw [writeTxUndo, writeVector, length_replicate] at read
  obtain ⟨count, mid, counted, -⟩ := bind_eq_some.mp read
  cases counted

end HobbyHash
