import HobbyHash.Coins

/-! # Transaction checks

`CheckTransaction` of `tx_check.cpp` and the functions of `tx_verify.cpp` that
`ConnectBlock` calls. The interpreter stands outside: which scripts are valid and
how many signature operations they count comes from an `Env`. Rejections carry
the result and the reject reason of the source; debug messages are left out.
-/

namespace HobbyHash.Validation

open Machine Consensus

/-- `TxValidationResult`, as far as these checks use it. -/
inductive TxValidationResult where
  | txConsensus
  | txMissingInputs
  | txPrematureSpend
  deriving DecidableEq, Repr

/-- How a check can end other than by passing. -/
inductive Failure (ρ : Type) where
  | fault (f : Fault)
  | invalid (result : ρ) (rejectReason : String)
  /-- `state.Error`, for what is no verdict on the block. -/
  | error (message : String)
  deriving DecidableEq, Repr

/-- A computation without verdicts inside a check. -/
def lift {ρ α : Type} (x : Except Fault α) : Except (Failure ρ) α :=
  x.mapError .fault

theorem lift_eq_ok {ρ α : Type} {x a} :
    (lift x : Except (Failure ρ) α) = .ok a ↔ x = .ok a := by
  cases x <;> simp [lift, Except.mapError]

/-- What the checks take from the rest of the node. -/
structure Env where
  params : Params
  /-- `CBlockHeader::GetHash`. -/
  hash : CBlockHeader → Uint256
  /-- `CTransaction::GetHash`. -/
  txid : CTransaction → Uint256
  /-- The hash of two tree nodes, from `SHA256D64`. -/
  hashPair : Uint256 → Uint256 → Uint256
  getSigOpCount : CScript → Bool → UInt32
  /-- `CScript::GetSigOpCount(const CScript& scriptSig)`, of an output script. -/
  getP2SHSigOps : CScript → CScript → UInt32
  countWitnessSigOps : CTxIn → CScript → UInt32 → UInt32
  /-- Whether the scripts of a block are checked at all; see `-assumevalid`. -/
  fScriptChecks : CBlockIndex → Bool
  /-- The reject reason of the first failing input script, given the outputs that
      are spent and the script flags. -/
  checkInputScripts : CTransaction → List CTxOut → UInt32 → Option String

def maxBlockWeight : Nat := 4000000

def witnessScaleFactor : Nat := 4

def maxBlockSigopsCost : Int := 80000

def coinbaseMaturity : Int := 100

/-- The loop of `CheckTransaction` over the outputs. -/
def checkOutput (nValueOut : Int) (txout : CTxOut) :
    Except (Failure TxValidationResult) Int :=
  if txout.nValue < 0 then .error (.invalid .txConsensus "bad-txns-vout-negative")
  else if txout.nValue > maxMoney then .error (.invalid .txConsensus "bad-txns-vout-toolarge")
  else do
    let sum ← lift (int64 (nValueOut + txout.nValue))
    if ¬ moneyRange sum then .error (.invalid .txConsensus "bad-txns-txouttotal-toolarge")
    else return sum

/-- The loop over the inputs, which collects their outpoints in `vInOutPoints`. -/
def insertInput (vInOutPoints : List COutPoint) (txin : CTxIn) :
    Except (Failure TxValidationResult) (List COutPoint) :=
  if txin.prevout ∈ vInOutPoints then .error (.invalid .txConsensus "bad-txns-inputs-duplicate")
  else .ok (txin.prevout :: vInOutPoints)

variable (tx : CTransaction)

/-- The last part of `CheckTransaction`. -/
def checkPrevouts : Except (Failure TxValidationResult) Unit :=
  if tx.isCoinBase then
    if tx.vin.any (fun txin => txin.scriptSig.length < 2 || txin.scriptSig.length > 100) then
      .error (.invalid .txConsensus "bad-cb-length")
    else .ok ()
  else if tx.vin.any (·.prevout.isNull) then
    .error (.invalid .txConsensus "bad-txns-prevout-null")
  else .ok ()

def checkTransaction : Except (Failure TxValidationResult) Unit :=
  if tx.vin.isEmpty then .error (.invalid .txConsensus "bad-txns-vin-empty")
  else if tx.vout.isEmpty then .error (.invalid .txConsensus "bad-txns-vout-empty")
  else if tx.strippedSize * witnessScaleFactor > maxBlockWeight then
    .error (.invalid .txConsensus "bad-txns-oversize")
  else do
    let _ ← tx.vout.foldlM checkOutput 0
    let _ ← tx.vin.foldlM insertInput []
    checkPrevouts tx

/-- The loop of `HaveInputs`. -/
def haveAll : List CTxIn → CCoinsViewCache → Bool × CCoinsViewCache
  | [], v => (true, v)
  | txin :: rest, v =>
    match v.haveCoin txin.prevout with
    | (true, v') => haveAll rest v'
    | (false, v') => (false, v')

def haveInputs (v : CCoinsViewCache) : Bool × CCoinsViewCache :=
  if tx.isCoinBase then (true, v) else haveAll tx.vin v

/-- The loop of `CheckTxInputs`: `nValueIn` and the view. -/
def addInput (nSpendHeight : Int) (st : Int × CCoinsViewCache) (txin : CTxIn) :
    Except (Failure TxValidationResult) (Int × CCoinsViewCache) :=
  match st.2.accessCoin txin.prevout with
  | (coin, v) => do
    lift (assert (!coin.isSpent) "!coin.IsSpent()")
    if coin.fCoinBase ∧ nSpendHeight - coin.nHeight < coinbaseMaturity then
      .error (.invalid .txPrematureSpend "bad-txns-premature-spend-of-coinbase")
    else
      let nValueIn ← lift (int64 (st.1 + coin.out.nValue))
      if ¬ moneyRange coin.out.nValue ∨ ¬ moneyRange nValueIn then
        .error (.invalid .txConsensus "bad-txns-inputvalues-outofrange")
      else return (nValueIn, v)

/-- `CheckTxInputs`: the fee and the view. -/
def checkTxInputs (inputs : CCoinsViewCache) (nSpendHeight : Int) :
    Except (Failure TxValidationResult) (Int × CCoinsViewCache) :=
  match haveInputs tx inputs with
  | (false, _) => .error (.invalid .txMissingInputs "bad-txns-inputs-missingorspent")
  | (true, v) => do
    let (nValueIn, v) ← tx.vin.foldlM (addInput nSpendHeight) (0, v)
    let valueOut ← lift tx.getValueOut
    if nValueIn < valueOut then .error (.invalid .txConsensus "bad-txns-in-belowout")
    else
      let txfee ← lift (int64 (nValueIn - valueOut))
      if ¬ moneyRange txfee then .error (.invalid .txConsensus "bad-txns-fee-outofrange")
      else return (txfee, v)

/-- One coin after another, as a loop of `AccessCoin` reads them. -/
def accessCoins : List CTxIn → CCoinsViewCache → List Coin × CCoinsViewCache
  | [], v => ([], v)
  | txin :: rest, v =>
    match v.accessCoin txin.prevout with
    | (coin, v') =>
      match accessCoins rest v' with
      | (coins, v'') => (coin :: coins, v'')

/-- The same loop where it asserts that every coin is unspent. -/
def accessUnspent (vin : List CTxIn) (v : CCoinsViewCache) :
    Except Fault (List Coin × CCoinsViewCache) :=
  match accessCoins vin v with
  | (coins, v') => do
    assert (coins.all (!·.isSpent)) "!coin.IsSpent()"
    return (coins, v')

def locktimeVerifySequence : UInt32 := 1

def sequenceLocktimeDisableFlag : UInt32 := 0x80000000
def sequenceLocktimeTypeFlag : UInt32 := 0x00400000
def sequenceLocktimeMask : UInt32 := 0x0000ffff
def sequenceLocktimeGranularity : Nat := 9

/-- The loop of `CalculateSequenceLocks` over one input and the height of its
    coin. -/
def sequenceLock (block : CBlockIndex) (lock : Int × Int) (input : CTxIn × Nat) :
    Except Fault (Int × Int) :=
  let masked : Int := (input.1.nSequence &&& sequenceLocktimeMask).toNat
  if input.1.nSequence &&& sequenceLocktimeDisableFlag ≠ 0 then .ok lock
  else if input.1.nSequence &&& sequenceLocktimeTypeFlag ≠ 0 then
    match block.getAncestor (max ((input.2 : Int) - 1) 0) with
    | none => .error (.assertion "block.GetAncestor(std::max(nCoinHeight - 1, 0))")
    | some coinParent =>
      let nCoinTime := coinParent.getMedianTimePast
      .ok (lock.1, max lock.2 (nCoinTime + masked * 2 ^ sequenceLocktimeGranularity - 1))
  else .ok (max lock.1 (input.2 + masked - 1), lock.2)

def calculateSequenceLocks (flags : UInt32) (prevHeights : List Nat) (block : CBlockIndex) :
    Except Fault (Int × Int) := do
  assert (prevHeights.length == tx.vin.length) "prevHeights.size() == tx.vin.size()"
  if tx.nVersion.toUInt32 ≥ 2 ∧ flags &&& locktimeVerifySequence ≠ 0 then
    (tx.vin.zip prevHeights).foldlM (sequenceLock block) (-1, -1)
  else return (-1, -1)

def evaluateSequenceLocks (block : CBlockIndex) (lockPair : Int × Int) : Except Fault Bool :=
  match block.pprev with
  | none => .error (.assertion "block.pprev")
  | some pprev => .ok (!(lockPair.1 ≥ block.nHeight || lockPair.2 ≥ pprev.getMedianTimePast))

def sequenceLocks (flags : UInt32) (prevHeights : List Nat) (block : CBlockIndex) :
    Except Fault Bool := do
  evaluateSequenceLocks block (← calculateSequenceLocks tx flags prevHeights block)

def isPayToScriptHash (script : CScript) : Bool :=
  script.length == 23 && script.head? == some 0xa9 && script[1]? == some 0x14 &&
    script[22]? == some 0x87

/-- `GetLegacySigOpCount`, in the 32 bits of the source. -/
def getLegacySigOpCount (env : Env) (tx : CTransaction) : UInt32 :=
  tx.vout.foldl (fun nSigOps txout => nSigOps + env.getSigOpCount txout.scriptPubKey false)
    (tx.vin.foldl (fun nSigOps txin => nSigOps + env.getSigOpCount txin.scriptSig false) 0)

/-- `GetP2SHSigOpCount` of inputs and the coins they spend. -/
def getP2SHSigOpCount (env : Env) (vin : List CTxIn) (coins : List Coin) : UInt32 :=
  (vin.zip coins).foldl (fun nSigOps input =>
    if isPayToScriptHash input.2.out.scriptPubKey then
      nSigOps + env.getP2SHSigOps input.2.out.scriptPubKey input.1.scriptSig
    else nSigOps) 0

/-- The last loop of `GetTransactionSigOpCost`. -/
def getWitnessSigOpCount (env : Env) (flags : UInt32) (vin : List CTxIn)
    (coins : List Coin) : Nat :=
  ((vin.zip coins).map fun input =>
    (env.countWitnessSigOps input.1 input.2.out.scriptPubKey flags).toNat).sum

/-- `GetTransactionSigOpCost`: the cost and the view. -/
def getTransactionSigOpCost (env : Env) (tx : CTransaction) (inputs : CCoinsViewCache)
    (flags : UInt32) : Except Fault (Int × CCoinsViewCache) :=
  let legacy : Int := (getLegacySigOpCount env tx * 4).toNat
  if tx.isCoinBase then .ok (legacy, inputs)
  else do
    let (coins, v) ← accessUnspent tx.vin inputs
    let p2sh : Int :=
      if flags &&& scriptVerifyP2SH ≠ 0 then (getP2SHSigOpCount env tx.vin coins * 4).toNat else 0
    return (legacy + p2sh + getWitnessSigOpCount env flags tx.vin coins, v)

end HobbyHash.Validation
