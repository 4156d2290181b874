import HobbyHash.Library.Loop
import HobbyHash.Primitives

/-! # Coin selection

Branch-and-bound and CoinGrinder of `wallet/coinselection.cpp` and the `SelectionResult`
they fill in. A group is the list of its coins: the sums that `OutputGroup::Insert`
keeps are functions of that list. Whether fees are taken from the recipients is
fixed for a whole selection by its parameters, so it is a parameter of the type
of groups and two groups of one pool cannot differ in it. `std::sort` is an argument.

The sums that the algorithms keep, and the weight of a result, are checked. What
`SelectionResult` adds up over its coins is added exactly.
-/

namespace HobbyHash.Wallet

open Library Machine Consensus

def changeLower : Int := 50000

def witnessScaleFactor : Int := 4

def totalTries : Nat := 100000

/-- A `COutput` whose fee has been set. Both fees come from a fee rate. -/
structure COutput where
  /-- Of the object, which is shared by pointers. -/
  address : Nat
  outpoint : COutPoint
  /-- `txout.nValue` -/
  nValue : Int
  /-- The size of the signed input, negative if it could not be calculated. -/
  inputBytes : Int
  fee : Int
  longTermFee : Int
  ancestorBumpFees : Int
  fee_nonneg : 0 ≤ fee
  longTermFee_nonneg : 0 ≤ longTermFee
  deriving DecidableEq

def COutput.effectiveValue (coin : COutput) : Int :=
  coin.nValue - coin.fee

def COutput.weight (coin : COutput) : Int :=
  max coin.inputBytes 0 * witnessScaleFactor

/-- `OutputGroup`, for selections with the given `m_subtract_fee_outputs`. -/
structure OutputGroup (subtractFeeOutputs : Bool) where
  outputs : List COutput
  deriving DecidableEq

variable {subtract : Bool}

namespace OutputGroup

def value (group : OutputGroup subtract) : Int :=
  (group.outputs.map COutput.nValue).sum

def effectiveValue (group : OutputGroup subtract) : Int :=
  (group.outputs.map COutput.effectiveValue).sum

def fee (group : OutputGroup subtract) : Int :=
  (group.outputs.map COutput.fee).sum

def longTermFee (group : OutputGroup subtract) : Int :=
  (group.outputs.map COutput.longTermFee).sum

def weight (group : OutputGroup subtract) : Int :=
  (group.outputs.map COutput.weight).sum

def getSelectionAmount (group : OutputGroup subtract) : Int :=
  if subtract then group.value else group.effectiveValue

end OutputGroup

inductive SelectionAlgorithm where
  | bnb
  | knapsack
  | srd
  | cg
  | manual
  deriving DecidableEq, Repr

/-- The errors of the algorithms: the plain `util::Error()` and
    `ErrorMaxWeightExceeded()`. -/
inductive SelectionError where
  | noSelection
  | maxWeightExceeded
  deriving DecidableEq, Repr

/-- `SelectionResult`. The set of inputs is a list without repetitions of an address. -/
structure SelectionResult where
  selectedInputs : List COutput
  target : Int
  algo : SelectionAlgorithm
  useEffective : Bool
  waste : Option Int
  algoCompleted : Bool
  selectionsEvaluated : Nat
  weight : Int
  bumpFeeGroupDiscount : Int
  deriving DecidableEq

namespace SelectionResult

def new (target : Int) (algo : SelectionAlgorithm) : SelectionResult where
  selectedInputs := []
  target := target
  algo := algo
  useEffective := false
  waste := none
  algoCompleted := true
  selectionsEvaluated := 0
  weight := 0
  bumpFeeGroupDiscount := 0

def insertPointer (set : List COutput) (coin : COutput) : List COutput :=
  if coin.address ∈ set.map COutput.address then set else coin :: set

def sharedUtxos : Fault := .exception "Shared UTXOs among selection results"

variable (result : SelectionResult)

def insertInputs (inputs : List COutput) :
    Except Fault SelectionResult :=
  let expectedCount := result.selectedInputs.length + inputs.length
  let merged := inputs.foldl insertPointer result.selectedInputs
  if merged.length ≠ expectedCount then .error sharedUtxos
  else .ok { result with selectedInputs := merged }

def addInput (group : OutputGroup subtract) :
    Except Fault SelectionResult := do
  let result ← result.insertInputs group.outputs
  let weight ← int (result.weight + group.weight)
  return { result with useEffective := !subtract, weight := weight }

def getSelectedValue : Int :=
  (result.selectedInputs.map COutput.nValue).sum

def getSelectedEffectiveValue : Int :=
  (result.selectedInputs.map COutput.effectiveValue).sum + result.bumpFeeGroupDiscount

def getChange (minViableChange changeFee : Int) : Int :=
  let change :=
    if result.useEffective then result.getSelectedEffectiveValue - result.target - changeFee
    else result.getSelectedValue - result.target
  if change < minViableChange then 0 else change

def getSelectionWaste (changeCost target : Int) (useEffectiveValue : Bool) : Except Fault Int := do
  assert (!result.selectedInputs.isEmpty) "!m_selected_inputs.empty()"
  let waste := (result.selectedInputs.map fun coin => coin.fee - coin.longTermFee).sum
    - result.bumpFeeGroupDiscount
  if changeCost ≠ 0 then
    assert (changeCost > 0) "change_cost > 0"
    return waste + changeCost
  else
    let selectedEffectiveValue :=
      if useEffectiveValue then result.getSelectedEffectiveValue else result.getSelectedValue
    assert (selectedEffectiveValue ≥ target) "selected_effective_value >= target"
    return waste + (selectedEffectiveValue - target)

def computeAndSetWaste (minViableChange changeCost changeFee : Int) :
    Except Fault SelectionResult := do
  let change := result.getChange minViableChange changeFee
  let waste ← result.getSelectionWaste (if change > 0 then changeCost else 0) result.target
    result.useEffective
  return { result with waste := some waste }

end SelectionResult

/-- What an algorithm returns when the program does not stop: a
    `util::Result<SelectionResult>`. -/
abbrev Selection := Except Fault (Except SelectionError SelectionResult)

/-- `descending`: larger amounts first, and on a tie the lower waste. -/
def descending (a b : OutputGroup subtract) : Bool :=
  if a.getSelectionAmount = b.getSelectionAmount then
    a.fee - a.longTermFee < b.fee - b.longTermFee
  else a.getSelectionAmount > b.getSelectionAmount

/-- `descending_effval_weight`: larger amounts first, and on a tie the lower weight. -/
def descendingEffvalWeight (a b : OutputGroup subtract) : Bool :=
  if a.getSelectionAmount = b.getSelectionAmount then a.weight < b.weight
  else a.getSelectionAmount > b.getSelectionAmount

/-- What `std::sort` promises about its result for one call. -/
structure IsSort (less : OutputGroup subtract → OutputGroup subtract → Bool)
    (before after : List (OutputGroup subtract)) : Prop where
  perm : after.Perm before
  ordered : after.Pairwise fun a b => less b a = false

/-- `utxo_pool.at(i)`, and `utxo_pool[i]`, which is undefined outside the vector. -/
def atIndex {α : Type} (pool : List α) (i : Nat) : Except Fault α :=
  match pool[i]? with
  | some entry => .ok entry
  | none => .error (.exception "vector index out of range")

section BranchAndBound

/-- The variables of the search of `SelectCoinsBnB`. Selections are lists of
    indices, newest first. -/
structure BnbState where
  currValue : Int
  currSelection : List Nat
  currSelectionWeight : Int
  currAvailableValue : Int
  currWaste : Int
  bestSelection : List Nat
  bestWaste : Int
  maxTxWeightExceeded : Bool
  utxoPoolIndex : Nat

def BnbState.start (available : Int) : BnbState where
  currValue := 0
  currSelection := []
  currSelectionWeight := 0
  currAvailableValue := available
  currWaste := 0
  bestSelection := []
  bestWaste := maxMoney
  maxTxWeightExceeded := false
  utxoPoolIndex := 0

/-- The arguments of `SelectCoinsBnB`, its pool sorted. -/
structure BnbSearch (subtract : Bool) where
  pool : List (OutputGroup subtract)
  selectionTarget : Int
  costOfChange : Int
  maxWeight : Int
  isFeerateHigh : Bool

/-- The conditions for starting a backtrack. A selection within range is compared
    with the best one so far, its excess counted as waste. -/
def bnbEvaluate (search : BnbSearch subtract) (s : BnbState) : Except Fault (BnbState × Bool) := do
  let reachable ← int64 (s.currValue + s.currAvailableValue)
  if reachable < search.selectionTarget then return (s, true)
  let upper ← int64 (search.selectionTarget + search.costOfChange)
  if s.currValue > upper ∨ (s.currWaste > s.bestWaste ∧ search.isFeerateHigh) then
    return (s, true)
  else if s.currSelectionWeight > search.maxWeight then
    return ({ s with maxTxWeightExceeded := true }, true)
  else if s.currValue ≥ search.selectionTarget then
    let excess ← int64 (s.currValue - search.selectionTarget)
    let currWaste ← int64 (s.currWaste + excess)
    if currWaste ≤ s.bestWaste then
      return ({ s with bestSelection := s.currSelection, bestWaste := currWaste }, true)
    else return (s, true)
  else return (s, false)

/-- `for (--utxo_pool_index; utxo_pool_index > back; --utxo_pool_index)`: the omitted
    groups return to the available value. An index below zero wraps around. -/
def bnbRestore (pool : List (OutputGroup subtract)) (back : Nat) :
    Nat → Int → Except Fault (Nat × Int)
  | 0, _ => .error (.exception "vector index out of range")
  | index + 1, available =>
    if index > back then do
      let utxo ← atIndex pool index
      let available ← int64 (available + utxo.getSelectionAmount)
      bnbRestore pool back index available
    else .ok (index, available)

variable (pool : List (OutputGroup subtract))

/-- Backtracking; `none` when no branch is untraversed. -/
def bnbBacktrack (s : BnbState) :
    Except Fault (Option BnbState) :=
  match s.currSelection with
  | [] => .ok none
  | back :: rest => do
    let (index, available) ← bnbRestore pool back s.utxoPoolIndex s.currAvailableValue
    assert (index == back) "utxo_pool_index == curr_selection.back()"
    let utxo ← atIndex pool index
    let value ← int64 (s.currValue - utxo.getSelectionAmount)
    let extraFee ← int64 (utxo.fee - utxo.longTermFee)
    let waste ← int64 (s.currWaste - extraFee)
    let weight ← int (s.currSelectionWeight - utxo.weight)
    return some { s with
      currAvailableValue := available
      currValue := value
      currWaste := waste
      currSelectionWeight := weight
      currSelection := rest
      utxoPoolIndex := index + 1 }

/-- Whether the group at the index is included: not if the group before it is
    equivalent and was left out. -/
def bnbIncludes (selection : List Nat) (index : Nat) (utxo : OutputGroup subtract) :
    Except Fault Bool :=
  match selection with
  | [] => .ok true
  | back :: _ =>
    if index - 1 == back then .ok true
    else do
      let previous ← atIndex pool (index - 1)
      return utxo.getSelectionAmount != previous.getSelectionAmount
        || utxo.fee != previous.fee

/-- Moving forwards, inclusion branch first. -/
def bnbForward (s : BnbState) : Except Fault BnbState := do
  let utxo ← atIndex pool s.utxoPoolIndex
  let available ← int64 (s.currAvailableValue - utxo.getSelectionAmount)
  let s' := { s with currAvailableValue := available, utxoPoolIndex := s.utxoPoolIndex + 1 }
  if ← bnbIncludes pool s.currSelection s.utxoPoolIndex utxo then
    let value ← int64 (s.currValue + utxo.getSelectionAmount)
    let extraFee ← int64 (utxo.fee - utxo.longTermFee)
    let waste ← int64 (s.currWaste + extraFee)
    let weight ← int (s.currSelectionWeight + utxo.weight)
    return { s' with
      currSelection := s.utxoPoolIndex :: s.currSelection
      currValue := value
      currWaste := waste
      currSelectionWeight := weight }
  else return s'

/-- One pass of the search loop, which ends when no branch is untraversed. -/
def bnbRound (search : BnbSearch subtract) (s : BnbState) :
    Except Fault (BnbState ⊕ BnbState) := do
  let (s, backtrack) ← bnbEvaluate search s
  if backtrack then
    match ← bnbBacktrack search.pool s with
    | none => return .inr s
    | some next => return .inl next
  else return .inl (← bnbForward search.pool s)

/-- The sum of the amounts, each asserted to be positive. -/
def bnbAvailable : Except Fault Int :=
  pool.foldlM (fun available utxo => do
    assert (utxo.getSelectionAmount > 0) "utxo.GetSelectionAmount() > 0"
    int64 (available + utxo.getSelectionAmount)) 0

variable (sort : List (OutputGroup subtract) → List (OutputGroup subtract))

/-- The set up of the search, which is not started if all groups together do not
    reach the target. -/
def bnbSetUp (utxoPool : List (OutputGroup subtract))
    (selectionTarget costOfChange maxWeight : Int) :
    Except Fault (Option (BnbSearch subtract × BnbState)) := do
  let available ← bnbAvailable utxoPool
  if available < selectionTarget then return none
  let pool := sort utxoPool
  let first ← atIndex pool 0
  return some (
    { pool := pool
      selectionTarget := selectionTarget
      costOfChange := costOfChange
      maxWeight := maxWeight
      isFeerateHigh := first.fee > first.longTermFee },
    BnbState.start available)

/-- The selected groups put into the result, oldest index first. -/
def addInputs (selection : List Nat) (result : SelectionResult) : Except Fault SelectionResult :=
  selection.reverse.foldlM (fun result i => do
    let utxo ← atIndex pool i
    result.addInput utxo) result

/-- What follows the loop of `SelectCoinsBnB`. -/
def bnbFinish (search : BnbSearch subtract) (s : BnbState) : Selection := do
  if s.bestSelection.isEmpty then
    return .error (if s.maxTxWeightExceeded then .maxWeightExceeded else .noSelection)
  let result ← addInputs search.pool s.bestSelection (.new search.selectionTarget .bnb)
  let result ← result.computeAndSetWaste search.costOfChange search.costOfChange 0
  assert (result.waste == some s.bestWaste) "best_waste == result.GetWaste()"
  return .ok result

/-- `SelectCoinsBnB`, together with whether its search exhausted the tree. A search
    that is not started has nothing to visit. -/
def selectCoinsBnB (utxoPool : List (OutputGroup subtract))
    (selectionTarget costOfChange maxWeight : Int) :
    Except Fault (Except SelectionError SelectionResult × Bool) := do
  match ← bnbSetUp sort utxoPool selectionTarget costOfChange maxWeight with
  | none => return (.error .noSelection, true)
  | some (search, start) =>
    match ← loopUpTo (bnbRound search) totalTries start with
    | .inl s => return (← bnbFinish search s, false)
    | .inr s => return (← bnbFinish search s, true)

end BranchAndBound

section CoinGrinder

def intMax : Int := 2 ^ 31 - 1

/-- One entry of `lookahead` and `min_tail_weight`: what the groups after an index
    amount to, and the least of their weights. -/
structure Tail where
  lookahead : Int
  minTailWeight : Int

/-- The tables over the pool, with `total_available` and `min_group_weight`. -/
def cgTails : List (OutputGroup subtract) → Except Fault (List Tail × Int × Int)
  | [] => .ok ([], 0, intMax)
  | utxo :: rest => do
    let (tails, totalAvailable, minGroupWeight) ← cgTails rest
    let total ← int64 (totalAvailable + utxo.getSelectionAmount)
    return ({ lookahead := totalAvailable, minTailWeight := minGroupWeight } :: tails,
      total, min minGroupWeight utxo.weight)

/-- The variables of the search of `CoinGrinder`. -/
structure CgState where
  currSelection : List Nat
  bestSelection : List Nat
  currAmount : Int
  bestSelectionAmount : Int
  currWeight : Int
  bestSelectionWeight : Int
  maxTxWeightExceeded : Bool
  nextUtxo : Nat
  currTry : Nat

def CgState.start (maxWeight : Int) : CgState where
  currSelection := []
  bestSelection := []
  currAmount := 0
  bestSelectionAmount := maxMoney
  currWeight := 0
  bestSelectionWeight := maxWeight
  maxTxWeightExceeded := false
  nextUtxo := 0
  currTry := 0

/-- What the search of `CoinGrinder` reads: the sorted pool and its tables. -/
structure CgSearch (subtract : Bool) where
  pool : List (OutputGroup subtract)
  tails : List Tail
  totalTarget : Int
  maxWeight : Int

/-- How to go on after a selection was evaluated. -/
inductive CgMove where
  | explore
  | shift
  | cut
  deriving DecidableEq, Repr

variable (search : CgSearch subtract) (s : CgState)

def cgSelect : Except Fault CgState := do
  let utxo ← atIndex search.pool s.nextUtxo
  let amount ← int64 (s.currAmount + utxo.getSelectionAmount)
  let weight ← int (s.currWeight + utxo.weight)
  return { s with
    currAmount := amount
    currWeight := weight
    currSelection := s.nextUtxo :: s.currSelection
    nextUtxo := s.nextUtxo + 1
    currTry := s.currTry + 1 }

/-- `curr_weight + int64_t{min_tail_weight} * ((total_target - curr_amount + amount - 1)
    / amount)`: the least weight at which the missing amount could still be found. -/
def cgTailEstimate (minTailWeight amount : Int) :
    Except Fault Int := do
  let missing ← int64 (search.totalTarget - s.currAmount)
  let padded ← int64 (missing + amount)
  let numerator ← int64 (padded - 1)
  let count ← divInt64 numerator amount
  let tailWeight ← int64 (minTailWeight * count)
  int64 (s.currWeight + tailWeight)

/-- Evaluating the current selection, whose last member is `tail`. -/
def cgEvaluate (tail : Nat) :
    Except Fault (CgState × CgMove) := do
  let utxo ← atIndex search.pool tail
  let ahead ← atIndex search.tails tail
  let leave : CgMove := if utxo.weight ≤ ahead.minTailWeight then .cut else .shift
  let reachable ← int64 (s.currAmount + ahead.lookahead)
  if reachable < search.totalTarget then return (s, .cut)
  else if s.currWeight > s.bestSelectionWeight then
    if s.currWeight > search.maxWeight then
      return ({ s with maxTxWeightExceeded := true }, leave)
    else return (s, leave)
  else if s.currAmount ≥ search.totalTarget then
    if s.currWeight < s.bestSelectionWeight
        ∨ (s.currWeight = s.bestSelectionWeight ∧ s.currAmount < s.bestSelectionAmount) then
      return ({ s with
        bestSelection := s.currSelection
        bestSelectionWeight := s.currWeight
        bestSelectionAmount := s.currAmount }, .shift)
    else return (s, .shift)
  else if s.bestSelection.isEmpty then return (s, .explore)
  else
    let estimate ← cgTailEstimate search s ahead.minTailWeight utxo.getSelectionAmount
    return (s, if estimate > s.bestSelectionWeight then leave else .explore)

/-- `deselect_last`, with the selection split into its last member and the rest. -/
def cgDeselect (back : Nat) (rest : List Nat) :
    Except Fault CgState := do
  let utxo ← atIndex search.pool back
  let amount ← int64 (s.currAmount - utxo.getSelectionAmount)
  let weight ← int (s.currWeight - utxo.weight)
  return { s with currAmount := amount, currWeight := weight, currSelection := rest }

/-- Skipping clones of the group before `next_utxo`. The flag says that the end of
    the pool was reached. At most as many passes are made as there are groups. -/
def cgSkipClones (pool : List (OutputGroup subtract)) : Nat → Nat → Except Fault (Nat × Bool)
  | 0, _ => .error (.exception "vector index out of range")
  | passes + 1, nextUtxo => do
    let previous ← atIndex pool (nextUtxo - 1)
    let utxo ← atIndex pool nextUtxo
    if previous.getSelectionAmount = utxo.getSelectionAmount then
      if nextUtxo ≥ pool.length - 1 then return (nextUtxo, true)
      else cgSkipClones pool passes (nextUtxo + 1)
    else return (nextUtxo, false)

/-- `while (should_shift)`; `none` when the search space is exhausted. -/
def cgShift (search : CgSearch subtract) : List Nat → CgState → Except Fault (Option CgState)
  | [], _ => .ok none
  | back :: rest, s => do
    let s ← cgDeselect search s back rest
    let (nextUtxo, shouldShift) ← cgSkipClones search.pool search.pool.length (back + 1)
    let s := { s with nextUtxo := nextUtxo }
    if shouldShift then cgShift search rest s else return some s

/-- What follows the evaluation of a selection with last member `tail`. -/
def cgAdvance (move : CgMove) :
    Except Fault (Option CgState) := do
  if move = .cut ∨ s.nextUtxo = search.pool.length then
    match s.currSelection with
    | [] => .error (.exception "vector index out of range")
    | back :: rest =>
      let s ← cgDeselect search s back rest
      cgShift search s.currSelection s
  else if move = .shift then cgShift search s.currSelection s
  else return some s

/-- One pass of the main loop: the next state, or the last one and whether the
    search was completed. -/
def cgRound :
    Except Fault (CgState ⊕ CgState × Bool) := do
  let s' ← cgSelect search s
  let (evaluated, move) ← cgEvaluate search s' s.nextUtxo
  if evaluated.currTry ≥ totalTries then return .inr (evaluated, false)
  match ← cgAdvance search evaluated move with
  | none => return .inr (evaluated, true)
  | some next => return .inl next

variable (sort : List (OutputGroup subtract) → List (OutputGroup subtract))

/-- The part of `CoinGrinder` before its loop; `none` for insufficient funds. -/
def cgSetUp (utxoPool : List (OutputGroup subtract))
    (selectionTarget changeTarget maxWeight : Int) :
    Except Fault (Option (CgSearch subtract)) := do
  let pool := sort utxoPool
  let (tails, totalAvailable, _) ← cgTails pool
  let totalTarget ← int64 (selectionTarget + changeTarget)
  if totalAvailable < totalTarget then return none
  return some { pool := pool, tails := tails, totalTarget := totalTarget, maxWeight := maxWeight }

/-- What follows the loop of `CoinGrinder`. -/
def cgFinish (selectionTarget : Int) (s : CgState) (completed : Bool) : Selection := do
  if s.bestSelection.isEmpty then
    return .error (if s.maxTxWeightExceeded then .maxWeightExceeded else .noSelection)
  let result ← addInputs search.pool s.bestSelection
    { SelectionResult.new selectionTarget .cg with
      algoCompleted := completed
      selectionsEvaluated := s.currTry }
  return .ok result

/-- `CoinGrinder`, together with whether its search was completed. -/
def coinGrinder (utxoPool : List (OutputGroup subtract))
    (selectionTarget changeTarget maxWeight : Int) :
    Except Fault (Except SelectionError SelectionResult × Bool) := do
  match ← cgSetUp sort utxoPool selectionTarget changeTarget maxWeight with
  | none => return (.error .noSelection, true)
  | some search =>
    match ← loopUpTo (cgRound search) totalTries (.start maxWeight) with
    | .inl s => return (← cgFinish search selectionTarget s false, false)
    | .inr (s, completed) => return (← cgFinish search selectionTarget s completed, completed)

end CoinGrinder

end HobbyHash.Wallet
