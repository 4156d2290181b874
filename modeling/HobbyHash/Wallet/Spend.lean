import HobbyHash.Wallet.CoinSelection

/-! # Creating a transaction

`CreateTransactionInternal` of `wallet/spend.cpp` from the recipients to the fee it
reports, with the sizes it is computed from. What the wallet, the chain and coin
control decide is a record of answers (`SpendEnv`): fee rates, descriptors, the
selection of coins, random choices, signing. Sequence numbers, lock times and the
scripts of the inputs do not matter to the fee and are left out.
-/

namespace HobbyHash.Wallet

open Machine

structure CFeeRate where
  nSatoshisPerK : Int
  deriving DecidableEq

/-- `CFeeRate::GetFee`, with the quotient rounded up exactly. -/
def CFeeRate.getFee (rate : CFeeRate) (numBytes : Int) : Int :=
  let nFee := -(-(rate.nSatoshisPerK * numBytes) / 1000)
  if nFee = 0 ∧ numBytes ≠ 0 then
    if rate.nSatoshisPerK > 0 then 1 else if rate.nSatoshisPerK < 0 then -1 else nFee
  else nFee

/-- `GetVirtualTransactionSize` without signature operations. -/
def getVirtualTransactionSize (weight : Int) : Int :=
  (max weight 0 + witnessScaleFactor - 1).tdiv witnessScaleFactor

/-- `GetSerializeSize` of an output. -/
def txOutSize (out : CTxOut) : Nat :=
  8 + scriptSize out.scriptPubKey

/-- `CRecipient`, with the script of its destination. -/
structure CRecipient where
  script : CScript
  nAmount : Int
  fSubtractFeeFromAmount : Bool

/-- What is asked of a `Descriptor`. `MaxSatisfactionWeight` depends on whether
    signatures of maximal size are assumed. -/
structure Descriptor where
  maxSatisfactionWeight : Bool → Option Nat
  maxSatisfactionElems : Option Nat
  isSegwit : Bool

def maxInputWeight (desc : Descriptor) (useMaxSig txIsSegwit : Bool) : Option Int :=
  match desc.maxSatisfactionWeight useMaxSig, desc.maxSatisfactionElems with
  | some satWeight, some elemsCount =>
    let scriptsigLen : Int :=
      if desc.isSegwit then 1 else getSizeOfCompactSize (satWeight / 4)
    let witstackLen : Int :=
      if desc.isSegwit then getSizeOfCompactSize elemsCount else if txIsSegwit then 1 else 0
    some ((32 + 4 + 4 + scriptsigLen) * witnessScaleFactor + witstackLen + satWeight)
  | _, _ => none

/-- The fields of `CoinSelectionParams` that are computed here. -/
structure CoinSelectionParams where
  changeOutputSize : Int
  changeSpendSize : Int
  minChangeTarget : Int
  effectiveFeerate : CFeeRate
  discardFeerate : CFeeRate
  minViableChange : Int
  changeFee : Int
  costOfChange : Int
  txNoinputsSize : Int
  subtractFeeOutputs : Bool

/-- The answers of the wallet, the chain and coin control. -/
structure SpendEnv where
  scriptChange : CScript
  /-- `CalculateMaximumSignedInputSize` of a change output, -1 if it is unknown. -/
  changeSpendSize : Int
  effectiveFeerate : CFeeRate
  discardFeerate : CFeeRate
  /-- `coin_control.m_feerate` -/
  requestedFeerate : Option CFeeRate
  /-- The fee estimate fell back and the wallet does not allow that. -/
  fallbackRefused : Bool
  /-- `rng_fast.randrange` for the change target, and one above the number of outputs. -/
  randAmount : Int → Int
  randPosition : (outputs : Nat) → Fin (outputs + 1)
  /-- `GetDustThreshold` at the discard fee rate and `IsDust` at the relay dust fee. -/
  dustThreshold : CTxOut → Int
  isDust : CTxOut → Bool
  /-- `coin_control.HasSelected` -/
  hasSelected : Bool
  /-- `SelectCoins` on the coins available, with its error message. -/
  selectCoins : CoinSelectionParams → Int → Except String SelectionResult
  /-- `GetShuffledInputVector`, and the order given by coin control. -/
  shuffle : List COutput → List COutput
  shuffle_perm : ∀ coins, (shuffle coins).Perm coins
  /-- The weight given for an input by coin control. -/
  inputWeight : COutPoint → Option Nat
  /-- `GetDescriptor` for the script of a spent output. -/
  getDescriptor : COutPoint → Option Descriptor
  /-- `!can_grind_r || UseMaxSig(txin, coin_control)` -/
  useMaxSig : COutPoint → Bool
  sign : Bool
  /-- `SignTransaction`: the weight of the signed transaction. -/
  signTransaction : List COutPoint → List CTxOut → Option Int
  defaultMaxTxFee : Int
  /-- `checkChainLimits`, if it is asked for. -/
  chainLimits : List COutPoint → List CTxOut → Bool

/-- The errors of `CreateTransactionInternal`. -/
inductive CreateError where
  | feeRateTooLow
  | feeEstimationFailed
  | amountTooSmall
  | noTarget
  | selection (message : String)
  | changePositionOutOfRange
  | missingSolvingData
  | internalBug (message : String)
  | tooSmallToPayFee
  | tooSmallAfterFee
  | noChangeAddress
  | signingFailed
  | tooLarge
  | maxFeeExceeded
  | chainLimits
  deriving DecidableEq

/-- Ways in which the function does not return a transaction. -/
inductive SpendStop where
  | fault (fault : Fault)
  | error (error : CreateError)
  deriving DecidableEq

/-- `CreatedTransactionResult`: the coins spent, the outputs, the fee and the position
    of the change. -/
structure CreatedTransaction where
  coins : List COutput
  vout : List CTxOut
  fee : Int
  changePos : Option Nat
  deriving DecidableEq

variable (env : SpendEnv)

def getSignedTxinWeight (txIsSegwit : Bool) (prevout : COutPoint) : Option Int :=
  match env.inputWeight prevout with
  | some weight => some weight
  | none => (env.getDescriptor prevout).bind fun desc =>
    maxInputWeight desc (env.useMaxSig prevout) txIsSegwit

/-- The loop over the inputs of `CalculateMaximumSignedTxSize`; `none` if a weight is
    missing. -/
def addInputWeights (env : SpendEnv) (txIsSegwit : Bool) :
    List COutPoint → Int → Except SpendStop (Option Int)
  | [], weight => .ok (some weight)
  | prevout :: rest, weight =>
    match getSignedTxinWeight env txIsSegwit prevout with
    | none => .ok none
    | some txinWeight =>
      if txinWeight > -1 then addInputWeights env txIsSegwit rest (weight + txinWeight)
      else .error (.fault (.assertion "*txin_weight > -1"))

def anySegwit (vin : List COutPoint) : Bool :=
  vin.any fun prevout => (env.getDescriptor prevout).any Descriptor.isSegwit

/-- The part of the weight that does not come from the inputs. -/
def baseWeight (vin : List COutPoint) (vout : List CTxOut) : Int :=
  (4 + 4 + (getSizeOfCompactSize vin.length : Int) + getSizeOfCompactSize vout.length)
      * witnessScaleFactor
    + (if anySegwit env vin then 2 else 0)
    + (vout.map fun out => (txOutSize out : Int) * witnessScaleFactor).sum

/-- `CalculateMaximumSignedTxSize`: the virtual size and the weight. -/
def calculateMaximumSignedTxSize (vin : List COutPoint) (vout : List CTxOut) :
    Except SpendStop (Option (Int × Int)) := do
  let weight ← addInputWeights env (anySegwit env vin) vin (baseWeight env vin vout)
  return weight.map fun weight => (getVirtualTransactionSize weight, weight)

def calculateOutputValue (vout : List CTxOut) : Int :=
  (vout.map CTxOut.nValue).sum

def generateChangeTarget (randAmount : Int → Int) (paymentValue changeFee : Int) : Int :=
  if paymentValue ≤ changeLower / 2 then changeFee + changeLower
  else
    let upperBound := min (paymentValue * 2) 1000000
    changeFee + randAmount (upperBound - changeLower) + changeLower

variable (vecSend : List CRecipient)

/-- `recipients_sum` and the number of recipients the fee is subtracted from. -/
def recipientsSum : Int :=
  (vecSend.map CRecipient.nAmount).sum

def outputsToSubtractFeeFrom : Nat :=
  vecSend.countP CRecipient.fSubtractFeeFromAmount

def CRecipient.txout (recipient : CRecipient) : CTxOut :=
  { nValue := recipient.nAmount, scriptPubKey := recipient.script }

/-- `tx_noinputs_size` with all payees. -/
def txNoinputsSize : Int :=
  10 + getSizeOfCompactSize vecSend.length
    + (vecSend.map fun recipient => (txOutSize recipient.txout : Int)).sum

def changePrototype : CTxOut :=
  { nValue := 0, scriptPubKey := env.scriptChange }

/-- `coin_selection_params`, as it is when coins are selected. -/
def selectionParams : CoinSelectionParams :=
  let changeOutputSize : Int := txOutSize (changePrototype env)
  let changeSpendSize : Int := if env.changeSpendSize = -1 then 91 else env.changeSpendSize
  let changeFee := env.effectiveFeerate.getFee changeOutputSize
  let changeSpendFee := env.discardFeerate.getFee changeSpendSize
  { changeOutputSize := changeOutputSize
    changeSpendSize := changeSpendSize
    minChangeTarget :=
      generateChangeTarget env.randAmount (recipientsSum vecSend / vecSend.length) changeFee
    effectiveFeerate := env.effectiveFeerate
    discardFeerate := env.discardFeerate
    minViableChange := max (changeSpendFee + 1) (env.dustThreshold (changePrototype env))
    changeFee := changeFee
    costOfChange := changeSpendFee + changeFee
    txNoinputsSize := txNoinputsSize vecSend
    subtractFeeOutputs := vecSend.any CRecipient.fSubtractFeeFromAmount }

/-- `selection_target`: the recipients and the fee for everything but the inputs. -/
def selectionTarget : Int :=
  let params := selectionParams env vecSend
  recipientsSum vecSend + env.effectiveFeerate.getFee
    (if params.subtractFeeOutputs then 0 else params.txNoinputsSize)

def SelectionResult.getTotalBumpFees (result : SelectionResult) : Int :=
  (result.selectedInputs.map COutput.ancestorBumpFees).sum - result.bumpFeeGroupDiscount

variable (changePos : Option Nat)

/-- The outputs with the change put in, and its position. -/
def placeChange (changeAmount : Int) (vout : List CTxOut) :
    Except SpendStop (List CTxOut × Option Nat) :=
  if changeAmount > 0 then
    let change : CTxOut := { nValue := changeAmount, scriptPubKey := env.scriptChange }
    match changePos with
    | none =>
      let position : Nat := env.randPosition vout.length
      .ok (vout.insertIdx position change, some position)
    | some position =>
      if position > vout.length then .error (.error .changePositionOutOfRange)
      else .ok (vout.insertIdx position change, some position)
  else .ok (vout, none)

/-- The loop that reduces the outputs the fee is subtracted from. -/
def reduceOutputs (env : SpendEnv) (changePos : Option Nat) (toReduce : Int) (count : Nat) :
    List CRecipient → Nat → Bool → List CTxOut → Except SpendStop (List CTxOut)
  | [], _, _, vout => .ok vout
  | recipient :: rest, i, fFirst, vout =>
    let i := if changePos = some i then i + 1 else i
    if recipient.fSubtractFeeFromAmount then
      match vout[i]? with
      | none => .error (.fault (.exception "vector index out of range"))
      | some txout =>
        let share := toReduce.tdiv count + if fFirst then toReduce.tmod count else 0
        let reduced := { txout with nValue := txout.nValue - share }
        if env.isDust reduced then
          if reduced.nValue < 0 then .error (.error .tooSmallToPayFee)
          else .error (.error .tooSmallAfterFee)
        else reduceOutputs env changePos toReduce count rest (i + 1) false (vout.set i reduced)
    else reduceOutputs env changePos toReduce count rest (i + 1) fFirst vout

/-- The change takes what is overpaid; `current_fee` afterwards. -/
def adjustChange (selectedValue feeNeeded currentFee : Int) (vout : List CTxOut) :
    Except SpendStop (List CTxOut × Int) :=
  match changePos with
  | some position =>
    if feeNeeded < currentFee then
      match vout[position]? with
      | none => .error (.fault (.exception "vector index out of range"))
      | some change =>
        let vout := vout.set position
          { change with nValue := change.nValue + (currentFee - feeNeeded) }
        let currentFee := selectedValue - calculateOutputValue vout
        if feeNeeded ≠ currentFee then
          .error (.error (.internalBug "Change adjustment: Fee needed != fee paid"))
        else .ok (vout, currentFee)
    else .ok (vout, currentFee)
  | none => .ok (vout, currentFee)

/-- The fee taken from the recipients, if that was asked for. -/
def subtractFee (selectedValue feeNeeded currentFee : Int) (vout : List CTxOut) :
    Except SpendStop (List CTxOut × Int) :=
  if vecSend.any CRecipient.fSubtractFeeFromAmount then do
    let vout ← reduceOutputs env changePos (feeNeeded - currentFee)
      (outputsToSubtractFeeFrom vecSend) vecSend 0 true vout
    let currentFee := selectedValue - calculateOutputValue vout
    if feeNeeded ≠ currentFee then
      .error (.error (.internalBug "SFFO: Fee needed != fee paid"))
    else .ok (vout, currentFee)
  else .ok (vout, currentFee)

/-- From the selected coins to the outputs and the fee. -/
def settleFee (result : SelectionResult) : Except SpendStop (CreatedTransaction × Int) := do
  let params := selectionParams env vecSend
  let changeAmount := result.getChange params.minViableChange params.changeFee
  let (vout, changePos) ← placeChange env changePos changeAmount (vecSend.map CRecipient.txout)
  let coins := env.shuffle result.selectedInputs
  match ← calculateMaximumSignedTxSize env (coins.map COutput.outpoint) vout with
  | none => .error (.error .missingSolvingData)
  | some (nBytes, weight) =>
    let feeNeeded := env.effectiveFeerate.getFee nBytes + result.getTotalBumpFees
    let currentFee := result.getSelectedValue - calculateOutputValue vout
    if currentFee < 0 then .error (.error (.internalBug "Fee paid < 0"))
    else
      let (vout, currentFee) ← adjustChange changePos result.getSelectedValue feeNeeded
        currentFee vout
      let (vout, currentFee) ← subtractFee env vecSend changePos result.getSelectedValue
        feeNeeded currentFee vout
      if feeNeeded > currentFee then .error (.error (.internalBug "Fee needed > fee paid"))
      else .ok ({ coins := coins, vout := vout, fee := currentFee, changePos := changePos },
        weight)

def maxStandardTxWeight : Int := 400000

def finishTransaction (created : CreatedTransaction) (weight : Int) :
    Except SpendStop CreatedTransaction := do
  let vin := created.coins.map COutput.outpoint
  if env.scriptChange = [] ∧ created.changePos.isSome then .error (.error .noChangeAddress)
  else
    let size ← if env.sign then
        match env.signTransaction vin created.vout with
        | none => .error (.error .signingFailed)
        | some signedWeight => .ok signedWeight
      else .ok weight
    if size > maxStandardTxWeight then .error (.error .tooLarge)
    else if created.fee > env.defaultMaxTxFee then .error (.error .maxFeeExceeded)
    else if !env.chainLimits vin created.vout then .error (.error .chainLimits)
    else .ok created

def createTransactionInternal : Except SpendStop CreatedTransaction := do
  if env.requestedFeerate.any fun rate =>
      decide (env.effectiveFeerate.nSatoshisPerK > rate.nSatoshisPerK) then
    throw (.error .feeRateTooLow)
  if env.fallbackRefused then throw (.error .feeEstimationFailed)
  if vecSend.any fun recipient => env.isDust recipient.txout then throw (.error .amountTooSmall)
  let target := selectionTarget env vecSend
  if target = 0 ∧ !env.hasSelected then throw (.error .noTarget)
  match env.selectCoins (selectionParams env vecSend) target with
  | .error message =>
    throw (.error (.selection (if message.isEmpty then "Insufficient funds" else message)))
  | .ok result =>
    let (created, weight) ← settleFee env vecSend changePos result
    finishTransaction env created weight

end HobbyHash.Wallet
