import HobbyHash.Wallet.Selections
import HobbyHash.Wallet.Spend
import Mathlib.Algebra.BigOperators.Ring.List

/-! # The fee of a created transaction

What a created transaction pays against what it has to pay. The sums are exact:
the change takes what is overpaid, and the shares taken from the recipients add up
to what is missing. What is paid without taking anything from the recipients is
estimated before the inputs are known, at one byte for their number and without
the change in the number of outputs; that is enough while neither count needs a
longer encoding.
-/

namespace HobbyHash.Wallet

open Machine Library List Function CRecipient CTxOut SelectionResult Except

variable {weight size : Int} {position : Option Nat} (txIsSegwit : Bool)

section FeeRate

variable {rate : CFeeRate}

variable (nonneg : 0 ≤ rate.nSatoshisPerK)
include nonneg

theorem getFee_eq (pos : 0 ≤ size) :
    rate.getFee size = -(-(rate.nSatoshisPerK * size) / 1000) := by
  rw [CFeeRate.getFee]
  split
  · split
    · rename_i paying
      have lt : 0 < rate.nSatoshisPerK * size :=
        mul_pos paying (by omega)
      omega
    · split
      · omega
      · rfl
  · rfl

theorem getFee_nonneg (pos : 0 ≤ size) : 0 ≤ rate.getFee size := by
  rw [getFee_eq nonneg pos]
  have le : 0 ≤ rate.nSatoshisPerK * size := mul_nonneg nonneg pos
  omega

theorem getFee_mono {size'} (pos : 0 ≤ size) (le : size ≤ size') :
    rate.getFee size ≤ rate.getFee size' := by
  rw [getFee_eq nonneg pos, getFee_eq nonneg (pos.trans le)]
  have product : rate.nSatoshisPerK * size ≤ rate.nSatoshisPerK * size' :=
    mul_le_mul_of_nonneg_left le nonneg
  omega

theorem getFee_add_le (pos : 0 ≤ size) (le : 0 ≤ size') :
    rate.getFee (size + size') ≤ rate.getFee size + rate.getFee size' := by
  rw [getFee_eq nonneg pos, getFee_eq nonneg le, getFee_eq nonneg (by omega), mul_add]
  omega

theorem getFee_sum_le {α : Type} {l : List α} {f : α → Int} (pos : ∀ a ∈ l, 0 ≤ f a) :
    rate.getFee (l.map f).sum ≤ (l.map fun a => rate.getFee (f a)).sum := by
  induction l with
  | nil =>
    rw [map_nil, sum_nil, getFee_eq nonneg (le_refl 0)]
    simp
  | cons a rest ih =>
    have later : ∀ b ∈ rest, 0 ≤ f b := (forall_mem_cons.mp pos).2
    have first := getFee_add_le nonneg (pos a mem_cons_self) (sum_map_nonneg later)
    have second := ih later
    simp only [map_cons, sum_cons]
    omega

end FeeRate

section Sizes

variable {env : SpendEnv} {vin : List COutPoint} {vout vout' : List CTxOut}

theorem getVirtualTransactionSize_le (nonneg : 0 ≤ size) (le : weight ≤ 4 * size) :
    0 ≤ getVirtualTransactionSize weight ∧ getVirtualTransactionSize weight ≤ size := by
  rw [getVirtualTransactionSize, witnessScaleFactor, Int.tdiv_eq_ediv_of_nonneg (by omega)]
  omega

theorem getSignedTxinWeight_le (known : getSignedTxinWeight env true prevout = some weight) :
    ∃ smaller, getSignedTxinWeight env txIsSegwit prevout = some smaller ∧ 0 ≤ smaller ∧
      smaller ≤ weight := by
  rw [getSignedTxinWeight] at known ⊢
  cases given : env.inputWeight prevout with
  | some preset =>
    simp only [given, Option.some.injEq] at known
    exact ⟨preset, rfl, by omega, by omega⟩
  | none =>
    simp only [given] at known
    obtain ⟨desc, isDesc, inferred⟩ := Option.bind_eq_some_iff.mp known
    simp only [isDesc, Option.bind_some]
    rw [maxInputWeight] at inferred ⊢
    split at inferred
    · simp only [Option.some.injEq, witnessScaleFactor] at inferred
      refine ⟨_, rfl, ?_, ?_⟩
      · simp only [witnessScaleFactor]
        cases desc.isSegwit <;> cases txIsSegwit <;>
          simp only [Bool.false_eq_true, if_true, if_false] <;> omega
      · rw [← inferred]
        simp only [witnessScaleFactor]
        cases desc.isSegwit <;> cases txIsSegwit <;> simp
    · cases inferred

/-- The weights of the inputs, as they are added up. -/
def inputWeights (env : SpendEnv) (txIsSegwit : Bool) (vin : List COutPoint) : Int :=
  (vin.map fun prevout => (getSignedTxinWeight env txIsSegwit prevout).getD 0).sum

theorem addInputWeights_eq {txIsSegwit : Bool}
    (known : ∀ prevout ∈ vin, ∃ weight, getSignedTxinWeight env true prevout = some weight) :
    addInputWeights env txIsSegwit vin start
      = .ok (some (start + inputWeights env txIsSegwit vin)) := by
  induction vin generalizing start with
  | nil => simp [addInputWeights, inputWeights]
  | cons prevout rest ih =>
    obtain ⟨largest, isLargest⟩ := known prevout mem_cons_self
    obtain ⟨weight, isWeight, nonneg, -⟩ := getSignedTxinWeight_le txIsSegwit isLargest
    have later := (forall_mem_cons.mp known).2
    simp only [addInputWeights, isWeight, show weight > -1 by omega, if_true]
    rw [ih later]
    simp [inputWeights, isWeight, add_assoc]

def signedWeight (env : SpendEnv) (vin : List COutPoint) (vout : List CTxOut) : Int :=
  baseWeight env vin vout + inputWeights env (anySegwit env vin) vin

theorem calculateMaximumSignedTxSize_eq
    (known : ∀ prevout ∈ vin, ∃ weight, getSignedTxinWeight env true prevout = some weight) :
    calculateMaximumSignedTxSize env vin vout
      = .ok (some (getVirtualTransactionSize (signedWeight env vin vout),
        signedWeight env vin vout)) := by
  simp only [calculateMaximumSignedTxSize, addInputWeights_eq known, bind, bind]
  rfl

/-- The weight does not depend on the order of the inputs, nor on the amounts and the
    order of the outputs. -/
theorem signedWeight_congr (inputs : vin.Perm vin')
    (outputs : (vout.map txOutSize).Perm (vout'.map txOutSize)) :
    signedWeight env vin vout = signedWeight env vin' vout' := by
  have segwit : anySegwit env vin = anySegwit env vin' := by
    rw [anySegwit, anySegwit, Bool.eq_iff_iff]
    simp only [any_eq_true]
    exact exists_congr fun prevout => and_congr_left fun _ => inputs.mem_iff
  have count : vout.length = vout'.length := by simpa using outputs.length_eq
  have sizes : (vout.map fun out => (txOutSize out : Int) * witnessScaleFactor).sum
      = (vout'.map fun out => (txOutSize out : Int) * witnessScaleFactor).sum := by
    have scaled := (outputs.map fun size : Nat => (size : Int) * witnessScaleFactor).sum_eq
    simpa [map_map, comp_def] using scaled
  have weights := (inputs.map fun prevout =>
    (getSignedTxinWeight env (anySegwit env vin') prevout).getD 0).sum_eq
  rw [signedWeight, signedWeight, segwit, inputWeights, inputWeights, weights, baseWeight,
    baseWeight, segwit, inputs.length_eq, count, sizes]

end Sizes

section Outputs

variable {env : SpendEnv} {vout vout' : List CTxOut} {changePos : Option Nat} {i : Nat}

theorem calculateOutputValue_set {old new} (here : vout[i]? = some old) :
    calculateOutputValue (vout.set i new)
    = calculateOutputValue vout + (new.nValue - old.nValue) := by
  obtain ⟨lt, rfl⟩ := List.getElem?_eq_some_iff.mp here
  rw [calculateOutputValue, map_set, sum_set', dif_pos (by simpa using lt), getElem_map,
    neg_add_eq_sub]
  rfl

theorem scripts_set {old new} (here : vout[i]? = some old)
    (eq : new.scriptPubKey = old.scriptPubKey) :
    (vout.set i new).map scriptPubKey = vout.map scriptPubKey := by
  obtain ⟨lt, rfl⟩ := List.getElem?_eq_some_iff.mp here
  have inside' : i < (vout.map scriptPubKey).length := by simpa using lt
  rw [map_set, eq, ← getElem_map scriptPubKey (h := inside'),
    set_getElem_self]

/-- Where the output of a recipient stands: `j` recipients on from the loop index `i`,
    the change skipped. -/
def slot (changePos : Option Nat) (i j : Nat) : Nat :=
  match changePos with
  | some position => if i ≤ position ∧ position ≤ i + j then i + j + 1 else i + j
  | none => i + j

theorem slot_zero (changePos : Option Nat) (i : Nat) :
    slot changePos i 0 = if changePos = some i then i + 1 else i := by
  cases changePos with
  | none => rfl
  | some position =>
    simp only [slot, Option.some.injEq]
    split <;> split <;> omega

theorem slot_succ (changePos : Option Nat) (i j : Nat) :
    slot changePos i (j + 1) = slot changePos (slot changePos i 0 + 1) j := by
  cases changePos with
  | none =>
    simp only [slot]
    omega
  | some position =>
    simp only [slot]
    repeat' split
    all_goals omega

theorem slot_inj (eq : slot changePos i j = slot changePos i k) : j = k := by
  cases changePos with
  | none =>
    simp only [slot] at eq
    omega
  | some position =>
    simp only [slot] at eq
    split at eq <;> split at eq <;> omega

/-- The outputs without the change. -/
def payments (changePos : Option Nat) (vout : List CTxOut) : List CTxOut :=
  match changePos with
  | some position => vout.eraseIdx position
  | none => vout

theorem payments_getElem? (changePos : Option Nat) (vout : List CTxOut) (j : Nat) :
    (payments changePos vout)[j]? = vout[slot changePos 0 j]? := by
  cases changePos with
  | none => simp [payments, slot]
  | some position =>
    simp only [payments, slot, getElem?_eraseIdx, Nat.zero_le, true_and, Nat.zero_add]
    split <;> split <;> first | rfl | omega

/-- The call ends with an error that is not reported as an internal one. -/
def Refused (stop : SpendStop) : Prop :=
  ∃ error, stop = .error error ∧ ∀ message, error ≠ .internalBug message

theorem refuse {α : Type} {post : α → Prop} {error : CreateError}
    (other : ∀ message, error ≠ .internalBug message) :
    Ensures (¬ Refused ·) (.error (.error error)) post :=
  .fail (not_not.mpr ⟨error, rfl, other⟩)

theorem reduceOutputs_spec {toReduce count recipients fFirst}
    (room : ∀ j < recipients.length, slot changePos i j < vout.length) :
    Ensures (¬ Refused ·) (reduceOutputs env changePos toReduce count recipients i fFirst vout)
      fun vout' => vout'.map scriptPubKey = vout.map scriptPubKey ∧
        calculateOutputValue vout' = calculateOutputValue vout
          - (recipients.countP fSubtractFeeFromAmount * toReduce.tdiv count
            + if fFirst ∧ 0 < recipients.countP fSubtractFeeFromAmount
              then toReduce.tmod count else 0) ∧
        ∀ position, (∀ j recipient, recipients[j]? = some recipient →
          recipient.fSubtractFeeFromAmount = true → slot changePos i j ≠ position) →
          vout'[position]? = vout[position]? := by
  induction recipients generalizing i fFirst vout with
  | nil => exact .pure (by simp)
  | cons recipient rest ih =>
    have later : ∀ j < rest.length, slot changePos (slot changePos i 0 + 1) j < vout.length := by
      intro j lt
      rw [← slot_succ]
      exact room (j + 1) (Nat.succ_lt_succ lt)
    rw [reduceOutputs]
    simp only [← slot_zero]
    cases subtracts : recipient.fSubtractFeeFromAmount with
    | false =>
      refine (ih later).mono ?_
      rintro vout' ⟨scripts, value, others⟩
      refine ⟨scripts, ?_, fun position apart => others position fun j other here subtracts' => ?_⟩
      · rw [value, countP_cons_of_neg (by simp [subtracts])]
      · rw [← slot_succ]
        exact apart (j + 1) other here subtracts'
    | true =>
      have here := getElem?_eq_getElem (room 0 (Nat.succ_pos _))
      generalize isShare :
        toReduce.tdiv count + (if fFirst then toReduce.tmod count else 0) = share
      simp only [here, if_true]
      split
      · split
        · exact refuse nofun
        · exact refuse nofun
      refine (ih (by simpa using later)).mono ?_
      rintro vout' ⟨scripts, value, others⟩
      refine ⟨?_, ?_, fun position apart => ?_⟩
      · rw [scripts]
        exact scripts_set here rfl
      · rw [value, calculateOutputValue_set here, countP_cons_of_pos subtracts]
        simp only [Bool.false_eq_true, false_and, if_false, Nat.succ_pos, and_true]
        push_cast
        rw [add_mul, one_mul, ← isShare]
        omega
      have ne : slot changePos i 0 ≠ position := apart 0 recipient rfl subtracts
      rw [others position fun j other here subtracts' => by
        rw [← slot_succ]
        exact apart (j + 1) other here subtracts']
      exact getElem?_set_ne ne

theorem adjustChange_spec {bad selectedValue feeNeeded currentFee}
    (lt : ∀ position, changePos = some position → position < vout.length)
    (balanced : currentFee = selectedValue - calculateOutputValue vout) :
    Ensures bad (adjustChange changePos selectedValue feeNeeded currentFee vout) fun adjusted =>
      adjusted.2 = selectedValue - calculateOutputValue adjusted.1 ∧
      payments changePos adjusted.1 = payments changePos vout ∧
      adjusted.1.map scriptPubKey = vout.map scriptPubKey ∧
      (feeNeeded ≤ adjusted.2 ↔ feeNeeded ≤ currentFee) := by
  cases changePos with
  | none => exact .pure ⟨balanced, rfl, rfl, Iff.rfl⟩
  | some position =>
    rw [adjustChange]
    by_cases over' : feeNeeded < currentFee
    · obtain ⟨change, here⟩ : ∃ change, vout[position]? = some change :=
        ⟨_, getElem?_eq_getElem (lt position rfl)⟩
      generalize isRaised :
          { change with nValue := change.nValue + (currentFee - feeNeeded) } = raised
      have value : calculateOutputValue (vout.set position raised)
          = calculateOutputValue vout + (currentFee - feeNeeded) := by
        rw [calculateOutputValue_set here, ← isRaised]
        simp
      have exact : feeNeeded = selectedValue - calculateOutputValue (vout.set position raised) := by
        omega
      simp only [if_pos over', here, isRaised, ← exact, ne_eq, not_true_eq_false, if_false]
      refine .pure ⟨exact, eraseIdx_set_eq, scripts_set here (by rw [← isRaised]), ?_⟩
      omega
    · rw [if_neg over']
      exact .pure ⟨balanced, rfl, rfl, Iff.rfl⟩

theorem subtractFee_spec {vecSend selectedValue feeNeeded currentFee}
    (asked : vecSend.any fSubtractFeeFromAmount = true)
    (le : vecSend.length ≤ (payments changePos vout).length)
    (balanced : currentFee = selectedValue - calculateOutputValue vout) :
    Ensures (¬ Refused ·)
      (subtractFee env vecSend changePos selectedValue feeNeeded currentFee vout) fun settled =>
        settled.2 = feeNeeded ∧ feeNeeded = selectedValue - calculateOutputValue settled.1 ∧
        settled.1.map scriptPubKey = vout.map scriptPubKey ∧
        ∀ j : Nat, (vecSend[j]?.any fSubtractFeeFromAmount = false) →
          (payments changePos settled.1)[j]? = (payments changePos vout)[j]? := by
  have slots : ∀ j < vecSend.length, slot changePos 0 j < vout.length := by
    intro j lt
    have within : j < (payments changePos vout).length := lt.trans_le le
    have here : vout[slot changePos 0 j]? = some (payments changePos vout)[j] := by
      rw [← payments_getElem?, getElem?_eq_getElem within]
    exact (List.getElem?_eq_some_iff.mp here).1
  rw [subtractFee, if_pos asked]
  refine (reduceOutputs_spec slots).bind ?_
  rintro reduced ⟨scripts, value, others⟩
  have some' : 0 < outputsToSubtractFeeFrom vecSend := by
    obtain ⟨recipient, mem, subtracts⟩ := any_eq_true.mp asked
    exact countP_pos_iff.mpr ⟨recipient, mem, subtracts⟩
  have taken := Int.mul_tdiv_add_tmod (feeNeeded - currentFee) (outputsToSubtractFeeFrom vecSend)
  have exact : feeNeeded = selectedValue - calculateOutputValue reduced := by
    rw [value, if_pos ⟨rfl, some'⟩]
    rw [outputsToSubtractFeeFrom] at taken ⊢
    omega
  simp only [← exact, ne_eq, not_true_eq_false, if_false]
  refine ⟨rfl, exact, scripts, fun j keeps => ?_⟩
  rw [payments_getElem?, payments_getElem?]
  refine others _ fun k recipient here subtracts same => ?_
  obtain rfl := slot_inj same
  simp [here, subtracts] at keeps

end Outputs

section Settling

variable {env : SpendEnv} {vecSend : List CRecipient} {changePos : Option Nat}
  {result : SelectionResult}

theorem txNoinputsSize_nonneg (vecSend : List CRecipient) : 0 ≤ txNoinputsSize vecSend := by
  have le : 0 ≤ (vecSend.map fun recipient => (txOutSize recipient.txout : Int)).sum :=
    sum_map_nonneg fun recipient _ => Int.natCast_nonneg _
  rw [txNoinputsSize]
  omega

/-- A selection of coins that covers the target, with the fee of each coin that of
    its signed input and nothing to bump. -/
structure Funded (env : SpendEnv) (vecSend : List CRecipient) (result : SelectionResult) :
    Prop where
  target : result.target = selectionTarget env vecSend
  useEffective : result.useEffective = !vecSend.any fSubtractFeeFromAmount
  discount : result.bumpFeeGroupDiscount = 0
  bump : ∀ coin ∈ result.selectedInputs, coin.ancestorBumpFees = 0
  fee : ∀ coin ∈ result.selectedInputs, ∃ weight,
    getSignedTxinWeight env true coin.outpoint = some weight ∧
    coin.fee = env.effectiveFeerate.getFee (getVirtualTransactionSize weight)
  enough : result.target ≤
    if result.useEffective then result.getSelectedEffectiveValue else result.getSelectedValue

theorem Funded.known (funded : Funded env vecSend result) :
    ∀ prevout ∈ (env.shuffle result.selectedInputs).map COutput.outpoint,
      ∃ weight, getSignedTxinWeight env true prevout = some weight := by
  intro prevout mem
  obtain ⟨coin, shuffled, rfl⟩ := mem_map.mp mem
  have sel := (env.shuffle_perm result.selectedInputs).mem_iff.mp shuffled
  obtain ⟨weight, isWeight, -⟩ := funded.fee coin sel
  exact ⟨weight, isWeight⟩

variable (env vecSend result)

def changeAmount : Int :=
  result.getChange (selectionParams env vecSend).minViableChange
    (selectionParams env vecSend).changeFee

/-- What the coins leave over for the fee. -/
def paidFee : Int :=
  result.getSelectedValue - recipientsSum vecSend - max (changeAmount env vecSend result) 0

/-- The outputs as far as their sizes are concerned. -/
def sizedOutputs : List CTxOut :=
  if 0 < changeAmount env vecSend result then
    changePrototype env :: vecSend.map txout
  else vecSend.map txout

def neededFee : Int :=
  env.effectiveFeerate.getFee (getVirtualTransactionSize
    (signedWeight env (result.selectedInputs.map COutput.outpoint)
      (sizedOutputs env vecSend result)))

variable {env vecSend result}

theorem txOutSizes_eq {vout vout' : List CTxOut}
    (scripts : vout.map scriptPubKey = vout'.map scriptPubKey) :
    vout.map txOutSize = vout'.map txOutSize := by
  have sizes := congrArg (map fun script => 8 + scriptSize script) scripts
  rw [map_map, map_map] at sizes
  exact sizes

/-- The outputs with the change in place: the requested ones around it. -/
structure Laid (env : SpendEnv) (vecSend : List CRecipient) (result : SelectionResult)
    (position : Option Nat) (vout : List CTxOut) : Prop where
  payments : payments position vout = vecSend.map txout
  inside : ∀ place, position = some place → place < vout.length
  value : result.getSelectedValue - calculateOutputValue vout = paidFee env vecSend result
  sizes : (vout.map txOutSize).Perm ((sizedOutputs env vecSend result).map txOutSize)

theorem placeChange_spec :
    Ensures (¬ Refused ·)
      (placeChange env changePos (changeAmount env vecSend result) (vecSend.map txout))
      fun placed => Laid env vecSend result placed.2 placed.1 := by
  have requested : calculateOutputValue (vecSend.map txout) = recipientsSum vecSend := by
    simp [calculateOutputValue, recipientsSum, map_map, comp_def, txout]
  have inserted : ∀ position ≤ (vecSend.map txout).length,
      0 < changeAmount env vecSend result →
      Laid env vecSend result (some position) ((vecSend.map txout).insertIdx position
        { nValue := changeAmount env vecSend result, scriptPubKey := env.scriptChange }) := by
    intro position inside pos
    have perm := perm_insertIdx
      { nValue := changeAmount env vecSend result, scriptPubKey := env.scriptChange : CTxOut }
      (vecSend.map txout) inside
    constructor
    case payments => exact eraseIdx_insertIdx_self _
    case inside =>
      rintro place ⟨⟩
      rw [length_insertIdx_of_le_length inside]
      omega
    case value =>
      have total := (perm.map nValue).sum_eq
      rw [map_cons, sum_cons, ← calculateOutputValue, ← calculateOutputValue,
        requested] at total
      rw [total, paidFee, max_eq_left pos.le]
      exact sub_add_eq_sub_sub_swap ..
    case sizes =>
      rw [sizedOutputs, if_pos pos]
      exact perm.map txOutSize
  rw [placeChange]
  by_cases pos : 0 < changeAmount env vecSend result
  · rw [if_pos pos]
    cases changePos with
    | none =>
      have inside := Nat.le_of_lt_succ
        (env.randPosition (vecSend.map txout).length).isLt
      exact .pure (inserted _ inside pos)
    | some position =>
      dsimp only
      split
      · exact refuse nofun
      · exact .pure (inserted position (not_lt.mp ‹_›) pos)
  · rw [if_neg pos]
    refine .pure ?_
    constructor
    case payments => rfl
    case inside => simp
    case value => rw [requested, paidFee, max_eq_right (not_lt.mp pos), sub_zero]
    case sizes => rw [sizedOutputs, if_neg pos]

theorem paidFee_le (funded : Funded env vecSend result)
    (paying : vecSend.any fSubtractFeeFromAmount = false) :
    (result.selectedInputs.map COutput.fee).sum
        + env.effectiveFeerate.getFee (txNoinputsSize vecSend)
        + (if 0 < changeAmount env vecSend result
          then env.effectiveFeerate.getFee (txOutSize (changePrototype env)) else 0)
      ≤ paidFee env vecSend result := by
  have effective : result.useEffective = true := by rw [funded.useEffective, paying]; rfl
  have enough := funded.enough
  rw [if_pos effective] at enough
  have isTarget : result.target
      = recipientsSum vecSend + env.effectiveFeerate.getFee (txNoinputsSize vecSend) := by
    rw [funded.target, selectionTarget]
    simp [selectionParams, paying]
  have fees : result.getSelectedEffectiveValue
      = result.getSelectedValue - (result.selectedInputs.map COutput.fee).sum := by
    rw [getSelectedEffectiveValue, funded.discount, add_zero, getSelectedValue, ← sum_map_sub]
    rfl
  by_cases pos : 0 < changeAmount env vecSend result
  · rw [if_pos pos, paidFee, max_eq_left pos.le]
    have le : changeAmount env vecSend result
        ≤ result.getSelectedEffectiveValue - result.target
          - env.effectiveFeerate.getFee (txOutSize (changePrototype env)) := by
      rw [changeAmount, getChange, if_pos effective] at pos ⊢
      split at pos
      · omega
      · rename_i viable
        rw [if_neg viable]
        exact le_refl _
    omega
  · rw [if_neg pos, paidFee, max_eq_right (not_lt.mp pos)]
    omega

theorem paidFee_nonneg (nonneg : 0 ≤ env.effectiveFeerate.nSatoshisPerK)
    (funded : Funded env vecSend result) : 0 ≤ paidFee env vecSend result := by
  cases asked : vecSend.any fSubtractFeeFromAmount with
  | true =>
    have gross : ¬ (result.useEffective = true) := by rw [funded.useEffective, asked]; decide
    have enough := funded.enough
    rw [if_neg gross] at enough
    have isTarget : result.target = recipientsSum vecSend := by
      rw [funded.target, selectionTarget]
      simp [selectionParams, asked, CFeeRate.getFee]
    have le : changeAmount env vecSend result
        ≤ max (result.getSelectedValue - result.target) 0 := by
      rw [changeAmount, getChange, if_neg gross]
      split <;> omega
    rw [paidFee]
    omega
  | false =>
    have covered := paidFee_le funded asked
    have fees : 0 ≤ (result.selectedInputs.map COutput.fee).sum :=
      sum_map_nonneg fun coin _ => coin.fee_nonneg
    have overhead : 0 ≤ env.effectiveFeerate.getFee (txNoinputsSize vecSend) :=
      getFee_nonneg nonneg (txNoinputsSize_nonneg vecSend)
    have le : 0 ≤ env.effectiveFeerate.getFee (txOutSize (changePrototype env)) :=
      getFee_nonneg nonneg (Int.natCast_nonneg _)
    split at covered <;> omega

def inputSize (env : SpendEnv) (coin : COutput) : Int :=
  getVirtualTransactionSize ((getSignedTxinWeight env true coin.outpoint).getD 0)

theorem inputWeights_le {coins : List COutput}
    (known : ∀ coin ∈ coins, ∃ weight, getSignedTxinWeight env true coin.outpoint = some weight) :
    inputWeights env txIsSegwit (coins.map COutput.outpoint)
        ≤ 4 * (coins.map (inputSize env)).sum ∧
      ∀ coin ∈ coins, 0 ≤ inputSize env coin := by
  induction coins with
  | nil => simp [inputWeights]
  | cons coin rest ih =>
    obtain ⟨total, each⟩ := ih (forall_mem_cons.mp known).2
    obtain ⟨largest, isLargest⟩ := known coin mem_cons_self
    obtain ⟨weight, isWeight, nonneg, le⟩ := getSignedTxinWeight_le txIsSegwit isLargest
    have size : inputSize env coin = (largest + 3) / 4 := by
      rw [inputSize, isLargest, Option.getD_some, getVirtualTransactionSize,
        max_eq_left (nonneg.trans le), witnessScaleFactor, Int.tdiv_eq_ediv_of_nonneg (by omega)]
      omega
    constructor
    · simp only [inputWeights, map_cons, sum_cons, isWeight, Option.getD_some] at total ⊢
      omega
    · intro other mem
      obtain rfl | mem := mem_cons.mp mem
      · omega
      · exact each other mem

theorem neededFee_le (nonneg : 0 ≤ env.effectiveFeerate.nSatoshisPerK)
    (funded : Funded env vecSend result)
    (paying : vecSend.any fSubtractFeeFromAmount = false)
    (inputs : getSizeOfCompactSize result.selectedInputs.length = 1)
    (outputs : getSizeOfCompactSize (sizedOutputs env vecSend result).length
      = getSizeOfCompactSize vecSend.length) :
    neededFee env vecSend result ≤ paidFee env vecSend result := by
  obtain ⟨weights, each⟩ := inputWeights_le (anySegwit env
    (result.selectedInputs.map COutput.outpoint)) fun coin mem =>
      (funded.fee coin mem).imp fun _ known => known.1
  have fees : (result.selectedInputs.map COutput.fee).sum
      = (result.selectedInputs.map fun coin => env.effectiveFeerate.getFee (inputSize env coin)).sum := by
    refine congrArg sum (map_congr_left fun coin mem => ?_)
    obtain ⟨weight, known, fee⟩ := funded.fee coin mem
    rw [fee, inputSize, known]
    rfl
  have inputFees := getFee_sum_le nonneg each
  have inputsNonneg := sum_map_nonneg each
  have overhead := txNoinputsSize_nonneg vecSend
  let changeSize :=
    if 0 < changeAmount env vecSend result then txOutSize (changePrototype env) else 0
  have outs : ((sizedOutputs env vecSend result).map fun out => (txOutSize out : Int)).sum
      = changeSize + (vecSend.map fun recipient => (txOutSize recipient.txout : Int)).sum := by
    simp only [sizedOutputs, changeSize]
    split <;> simp [map_map, comp_def]
  let weight := signedWeight env (result.selectedInputs.map COutput.outpoint)
    (sizedOutputs env vecSend result)
  have size : 0 ≤ getVirtualTransactionSize weight ∧ getVirtualTransactionSize weight
      ≤ (result.selectedInputs.map (inputSize env)).sum
        + (txNoinputsSize vecSend + changeSize) := by
    refine getVirtualTransactionSize_le (by omega) ?_
    dsimp only [weight]
    rw [signedWeight, baseWeight, sum_map_mul_right, outs, length_map, inputs, outputs]
    rw [txNoinputsSize, witnessScaleFactor]
    split <;> omega
  calc neededFee env vecSend result
      ≤ env.effectiveFeerate.getFee ((result.selectedInputs.map (inputSize env)).sum
          + (txNoinputsSize vecSend + changeSize)) :=
        getFee_mono nonneg size.1 size.2
    _ ≤ (result.selectedInputs.map COutput.fee).sum
          + (env.effectiveFeerate.getFee (txNoinputsSize vecSend)
            + env.effectiveFeerate.getFee changeSize) := by
        rw [fees]
        exact (getFee_add_le nonneg inputsNonneg (by omega)).trans
          (add_le_add inputFees (getFee_add_le nonneg overhead (Int.natCast_nonneg _)))
    _ ≤ paidFee env vecSend result := by
        refine le_trans (le_of_eq ?_) (paidFee_le funded paying)
        rw [← add_assoc]
        dsimp only [changeSize]
        split
        · rfl
        · simp [CFeeRate.getFee]

/-- The recipients pay the fee, or the numbers of inputs and outputs take no more bytes than
    were set aside before the coins were selected. -/
def Counted (env : SpendEnv) (vecSend : List CRecipient) (result : SelectionResult) : Prop :=
  vecSend.any fSubtractFeeFromAmount = true ∨ (result.selectedInputs.length < 253 ∧
    getSizeOfCompactSize (sizedOutputs env vecSend result).length
      = getSizeOfCompactSize vecSend.length)

/-- A transaction that pays what it must: the inputs are the outputs and the fee, the fee
    is that of the largest signed size, and the recipients get what they were promised. -/
structure Pays (env : SpendEnv) (vecSend : List CRecipient) (created : CreatedTransaction) :
    Prop where
  balanced : (created.coins.map COutput.nValue).sum
    = calculateOutputValue created.vout + created.fee
  rate : ∃ size weight, calculateMaximumSignedTxSize env (created.coins.map COutput.outpoint)
      created.vout = .ok (some (size, weight)) ∧
    env.effectiveFeerate.getFee size ≤ created.fee
  scripts : (payments created.changePos created.vout).map scriptPubKey
    = vecSend.map script
  amounts : ∀ (j : Nat) recipient, vecSend[j]? = some recipient →
    recipient.fSubtractFeeFromAmount = false →
    (payments created.changePos created.vout)[j]?.map nValue = some recipient.nAmount

theorem payments_scripts (scripts : vout.map scriptPubKey = vout'.map scriptPubKey) :
    (payments position vout).map scriptPubKey
      = (payments position vout').map scriptPubKey := by
  cases position with
  | none => exact scripts
  | some place => rw [payments, payments, ← eraseIdx_map, ← eraseIdx_map, scripts]

theorem Pays.of_outputs (funded : Funded env vecSend result)
    (laid : Laid env vecSend result position vout)
    (scripts : settled.map scriptPubKey = vout.map scriptPubKey)
    (balanced : fee = result.getSelectedValue - calculateOutputValue settled)
    (le : neededFee env vecSend result ≤ fee)
    (kept : ∀ j : Nat, vecSend[j]?.any fSubtractFeeFromAmount = false →
      (payments position settled)[j]? = (payments position vout)[j]?) :
    Pays env vecSend
      { coins := env.shuffle result.selectedInputs
        vout := settled
        fee := fee
        changePos := position } := by
  have shuffled := env.shuffle_perm result.selectedInputs
  constructor
  case balanced =>
    have total := (shuffled.map COutput.nValue).sum_eq
    rw [← getSelectedValue] at total
    change ((env.shuffle result.selectedInputs).map COutput.nValue).sum
      = calculateOutputValue settled + fee
    omega
  case rate =>
    refine ⟨_, _, calculateMaximumSignedTxSize_eq funded.known, le_trans (le_of_eq ?_) le⟩
    have sizes : (settled.map txOutSize).Perm
        ((sizedOutputs env vecSend result).map txOutSize) := by
      rw [txOutSizes_eq scripts]
      exact laid.sizes
    rw [neededFee, signedWeight_congr (shuffled.map COutput.outpoint) sizes]
  case scripts =>
    rw [payments_scripts scripts, laid.payments, map_map]
    rfl
  case amounts =>
    intro j recipient here keeps
    rw [kept j (by simp [here, keeps]), laid.payments, getElem?_map, here]
    rfl

theorem settleFee_spec (nonneg : 0 ≤ env.effectiveFeerate.nSatoshisPerK)
    (funded : Funded env vecSend result) :
    Ensures (fun stop => Counted env vecSend result ∧ ¬ Refused stop)
      (settleFee env vecSend changePos result) fun settled => Pays env vecSend settled.1 := by
  have shuffled := env.shuffle_perm result.selectedInputs
  have bumps : result.getTotalBumpFees = 0 := by
    rw [getTotalBumpFees, funded.discount, sub_zero]
    exact sum_eq_zero fun bump mem => by
      obtain ⟨coin, sel, rfl⟩ := mem_map.mp mem
      exact funded.bump coin sel
  refine (placeChange_spec.weaken fun _ => And.right).bind ?_
  rintro ⟨vout, position⟩ laid
  have needed : env.effectiveFeerate.getFee (getVirtualTransactionSize (signedWeight env
        ((env.shuffle result.selectedInputs).map COutput.outpoint) vout))
      = neededFee env vecSend result := by
    rw [neededFee, signedWeight_congr (shuffled.map COutput.outpoint) laid.sizes]
  refine .bindOk (calculateMaximumSignedTxSize_eq funded.known) ?_
  simp only [bumps, needed, add_zero, laid.value,
    if_neg (not_lt.mpr (paidFee_nonneg nonneg funded))]
  refine (adjustChange_spec laid.inside laid.value.symm).bind ?_
  rintro ⟨adjusted, afterChange⟩ ⟨balanced, same, scripts, enough⟩
  cases asked : vecSend.any fSubtractFeeFromAmount with
  | false =>
    simp only [subtractFee, asked, Bool.false_eq_true, if_false, ok_bind]
    split
    · rename_i short
      refine .fail fun ⟨counted, _⟩ => not_le.mpr short (enough.mpr ?_)
      obtain ⟨inputs, outputs⟩ := counted.resolve_left (by simp [asked])
      exact neededFee_le nonneg funded asked (if_pos inputs) outputs
    · rename_i paid
      exact .pure (Pays.of_outputs funded laid scripts balanced (not_lt.mp paid)
        fun j _ => by rw [same])
  | true =>
    refine ((subtractFee_spec asked (by rw [same, laid.payments, length_map]) balanced).weaken
      fun _ => And.right).bind ?_
    rintro ⟨reduced, paid⟩ ⟨rfl, exact, scripts', kept⟩
    simp only [gt_iff_lt, lt_self_iff_false, if_false]
    exact .pure (Pays.of_outputs funded laid (scripts'.trans scripts) exact (le_refl _)
      fun j keeps => by rw [kept j keeps, same])

theorem finishTransaction_spec :
    Ensures (¬ Refused ·) (finishTransaction env created weight) (· = created) := by
  rw [finishTransaction]
  simp only [ok_bind]
  repeat' split
  all_goals first
    | exact refuse nofun
    | exact .pure rfl

theorem createTransactionInternal_spec (nonneg : 0 ≤ env.effectiveFeerate.nSatoshisPerK)
    (funded : ∀ result, env.selectCoins (selectionParams env vecSend)
      (selectionTarget env vecSend) = .ok result → Funded env vecSend result) :
    Ensures (fun stop => (∀ result, env.selectCoins (selectionParams env vecSend)
        (selectionTarget env vecSend) = .ok result → Counted env vecSend result) ∧ ¬ Refused stop)
      (createTransactionInternal env vecSend changePos) (Pays env vecSend) := by
  rw [createTransactionInternal]
  simp only [throw, throwThe, MonadExceptOf.throw, bind, bind]
  -- the four checks before the selection
  iterate 4
    split
    · exact .fail fun bad => bad.2 ⟨_, rfl, nofun⟩
  cases selected : env.selectCoins (selectionParams env vecSend) (selectionTarget env vecSend) with
  | error message => exact .fail fun bad => bad.2 ⟨_, rfl, nofun⟩
  | ok result =>
    refine Ensures.bind ((settleFee_spec nonneg (funded result selected)).weaken
      fun stop => And.imp_left fun counted => counted result rfl) ?_
    rintro ⟨created, weight⟩ pays
    refine (finishTransaction_spec.weaken fun _ => And.right).mono ?_
    rintro _ rfl
    exact pays

/-- If the recipients pay the fee, or the number of inputs takes one byte and that of the
    outputs is not longer with the change, the call fails with no internal error. Every
    created transaction pays what it must. -/
theorem createTransactionInternal_pays (nonneg : 0 ≤ env.effectiveFeerate.nSatoshisPerK)
    (funded : ∀ result, env.selectCoins (selectionParams env vecSend)
      (selectionTarget env vecSend) = .ok result → Funded env vecSend result) :
    ((∀ result, env.selectCoins (selectionParams env vecSend)
        (selectionTarget env vecSend) = .ok result → Counted env vecSend result) →
      ∀ stop, createTransactionInternal env vecSend changePos = .error stop → Refused stop) ∧
    ∀ created, createTransactionInternal env vecSend changePos = .ok created →
      Pays env vecSend created := by
  have spec := @createTransactionInternal_spec env vecSend changePos nonneg funded
  refine ⟨fun counted stop failed => ?_, fun created run => spec.of_eq_ok run⟩
  rw [failed] at spec
  by_contra internal
  exact spec ⟨counted, internal⟩

end Settling

/-- A coin behind a public key hash, at one satoshi per byte. -/
def keyHashCoin (n : Nat) : COutput where
  address := n
  outpoint := { hash := 0, n := n }
  nValue := 2000000
  inputBytes := 68
  fee := 68
  longTermFee := 68
  ancestorBumpFees := 0
  fee_nonneg := by decide
  longTermFee_nonneg := by decide

def keyHashSelection (n : Nat) (target : Int) : SelectionResult where
  selectedInputs := (range n).map keyHashCoin
  target := target
  algo := .manual
  useEffective := true
  waste := none
  algoCompleted := true
  selectionsEvaluated := 0
  weight := 272 * n
  bumpFeeGroupDiscount := 0

/-- A wallet that selects so many coins, with signatures of maximal size. -/
def keyHashEnv (n : Nat) : SpendEnv where
  scriptChange := replicate 22 0
  changeSpendSize := 68
  effectiveFeerate := ⟨1000⟩
  discardFeerate := ⟨3000⟩
  requestedFeerate := none
  fallbackRefused := false
  randAmount := fun _ => 0
  randPosition := fun _ => 0
  dustThreshold := fun _ => 294
  isDust := fun out => out.nValue < 294
  hasSelected := false
  selectCoins := fun _ target => .ok (keyHashSelection n target)
  shuffle := id
  shuffle_perm := fun _ => .refl _
  inputWeight := fun _ => none
  getDescriptor := fun _ => some
    { maxSatisfactionWeight := fun _ => some 107, maxSatisfactionElems := some 2, isSegwit := true }
  useMaxSig := fun _ => true
  sign := false
  signTransaction := fun _ _ => none
  defaultMaxTxFee := 10000000
  chainLimits := fun _ _ => true

def payment : CRecipient where
  script := replicate 22 0
  nAmount := 1000
  fSubtractFeeFromAmount := false

theorem keyHash_funded (paying : vecSend.any fSubtractFeeFromAmount = false)
    (enough : selectionTarget (keyHashEnv n) vecSend
      ≤ (keyHashSelection n 0).getSelectedEffectiveValue) (result : SelectionResult)
    (sel : (keyHashEnv n).selectCoins (selectionParams (keyHashEnv n) vecSend)
      (selectionTarget (keyHashEnv n) vecSend) = .ok result) :
    Funded (keyHashEnv n) vecSend result := by
  obtain rfl : keyHashSelection n (selectionTarget (keyHashEnv n) vecSend) = result :=
    ok.inj sel
  have each : ∀ coin ∈ (range n).map keyHashCoin, ∃ i, keyHashCoin i = coin :=
    fun coin mem => (mem_map.mp mem).imp fun _ => And.right
  constructor
  case target => rfl
  case useEffective => rw [paying]; rfl
  case discount => rfl
  case bump =>
    intro coin mem
    obtain ⟨i, rfl⟩ := each coin mem
    rfl
  case fee =>
    intro coin mem
    obtain ⟨i, rfl⟩ := each coin mem
    exact ⟨272, rfl, rfl⟩
  case enough => exact enough

/-- One coin and one recipient: the transaction is created and pays what it must. A change
    position beyond the outputs is refused. -/
theorem createTransactionInternal_pays_one :
    (∃ created, createTransactionInternal (keyHashEnv 1) [payment] none = .ok created ∧
      Pays (keyHashEnv 1) [payment] created) ∧
    ∃ stop, createTransactionInternal (keyHashEnv 1) [payment] (some 2) = .error stop ∧
      Refused stop := by
  have funded := @keyHash_funded 1 [payment] (by decide) (by decide +kernel)
  have created : createTransactionInternal (keyHashEnv 1) [payment] none = .ok
      { coins := [keyHashCoin 0]
        vout := [{ nValue := 1998859, scriptPubKey := replicate 22 0 }, payment.txout]
        fee := 141
        changePos := some 0 } := by decide +kernel
  have refused : createTransactionInternal (keyHashEnv 1) [payment] (some 2)
      = .error (.error .changePositionOutOfRange) := by decide +kernel
  refine ⟨⟨_, created, (createTransactionInternal_pays (by decide) funded).2 _ created⟩,
    _, refused, (createTransactionInternal_pays (by decide) funded).1 ?_ _ refused⟩
  rintro _ ⟨⟩
  exact .inr (by decide +kernel)

/-- With 252 recipients the change makes the number of outputs two bytes longer, and with
    253 coins that of the inputs: nothing was set aside for them. -/
theorem createTransactionInternal_short :
    0 ≤ (keyHashEnv 1).effectiveFeerate.nSatoshisPerK ∧
    (∀ recipient ∈ replicate 252 payment, 0 ≤ recipient.nAmount) ∧
    (∀ result, (keyHashEnv 1).selectCoins (selectionParams (keyHashEnv 1) (replicate 252 payment))
      (selectionTarget (keyHashEnv 1) (replicate 252 payment)) = .ok result →
      Funded (keyHashEnv 1) (replicate 252 payment) result) ∧
    createTransactionInternal (keyHashEnv 1) (replicate 252 payment) none
      = .error (.error (.internalBug "Fee needed > fee paid")) ∧
    (∀ result, (keyHashEnv 253).selectCoins (selectionParams (keyHashEnv 253) [payment])
      (selectionTarget (keyHashEnv 253) [payment]) = .ok result →
      Funded (keyHashEnv 253) [payment] result) ∧
    createTransactionInternal (keyHashEnv 253) [payment] none
      = .error (.error (.internalBug "Fee needed > fee paid")) := by
  refine ⟨by decide, fun recipient member => ?_, ?_, by decide +kernel, ?_, by decide +kernel⟩
  · rw [eq_of_mem_replicate member]
    decide
  · exact keyHash_funded (by decide +kernel) (by decide +kernel)
  · exact keyHash_funded (by decide +kernel) (by decide +kernel)

end HobbyHash.Wallet
