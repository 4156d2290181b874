import HobbyHash.Pow
import HobbyHash.Validation.Transaction

/-! # Connecting and disconnecting blocks

`CheckBlock`, `ConnectBlock` and `DisconnectBlock` of `validation.cpp`. Undo data
is returned by the one and passed to the other instead of going through a file.
Script checks run in line, without the check queue, and the marks by which a
block remembers that it was checked are not kept.
-/

namespace HobbyHash.Validation

open Machine Consensus

/-- `BlockValidationResult`, as far as these functions use it. -/
inductive BlockValidationResult where
  | blockConsensus
  | blockInvalidHeader
  | blockMutated
  deriving DecidableEq, Repr

/-- A transaction failure inside a block is a consensus failure of the block with
    the same reject reason. -/
def ofTx {α : Type} (x : Except (Failure TxValidationResult) α) :
    Except (Failure BlockValidationResult) α :=
  x.mapError fun
    | .fault f => .fault f
    | .invalid _ rejectReason => .invalid .blockConsensus rejectReason
    | .error message => .error message

theorem ofTx_eq_ok {α : Type} {x : Except (Failure TxValidationResult) α} {a : α} :
    ofTx x = .ok a ↔ x = .ok a := by
  cases x <;> simp [ofTx, Except.mapError]

/-- `state.Invalid(BLOCK_CONSENSUS, rejectReason)`. -/
def reject {α : Type} (rejectReason : String) : Except (Failure BlockValidationResult) α :=
  .error (.invalid .blockConsensus rejectReason)

/-- One level of the tree; the last node of an odd level is paired with itself. -/
def merkleLevel (hashPair : Uint256 → Uint256 → Uint256) : List Uint256 → List Uint256
  | a :: b :: rest => hashPair a b :: merkleLevel hashPair rest
  | [a] => [hashPair a a]
  | [] => []

def equalPair : List Uint256 → Bool
  | a :: b :: rest => a == b || equalPair rest
  | _ => false

/-- The loop of `ComputeMerkleRoot`. Levels shrink, so the number of leaves is
    enough fuel. -/
def merkleLoop (hashPair : Uint256 → Uint256 → Uint256) :
    Nat → List Uint256 → Bool → Uint256 × Bool
  | fuel + 1, a :: b :: rest, mutation =>
    merkleLoop hashPair fuel (merkleLevel hashPair (a :: b :: rest))
      (mutation || equalPair (a :: b :: rest))
  | _, [a], mutation => (a, mutation)
  | _, _, mutation => (0, mutation)

/-- `ComputeMerkleRoot`: the root and whether the leaves were mutated. -/
def computeMerkleRoot (hashPair : Uint256 → Uint256 → Uint256) (hashes : List Uint256) :
    Uint256 × Bool :=
  merkleLoop hashPair hashes.length hashes false

variable (env : Env) (block : CBlock)

def checkMerkleRoot : Except (Failure BlockValidationResult) Unit :=
  match computeMerkleRoot env.hashPair (block.vtx.map env.txid) with
  | (merkleRoot, mutated) =>
    if block.hashMerkleRoot ≠ merkleRoot then .error (.invalid .blockMutated "bad-txnmrklroot")
    else if mutated then .error (.invalid .blockMutated "bad-txns-duplicate")
    else .ok ()

def checkTransactions : Except (Failure BlockValidationResult) Unit :=
  match block.vtx with
  | [] => reject "bad-blk-length"
  | coinbase :: rest =>
    if block.vtx.length * witnessScaleFactor > maxBlockWeight ∨
        block.strippedSize * witnessScaleFactor > maxBlockWeight then reject "bad-blk-length"
    else if !coinbase.isCoinBase then reject "bad-cb-missing"
    else if rest.any CTransaction.isCoinBase then reject "bad-cb-multiple"
    else do
      block.vtx.forM fun tx => ofTx (checkTransaction tx)
      let nSigOps := block.vtx.foldl (fun nSigOps tx => nSigOps + getLegacySigOpCount env tx) 0
      if ((nSigOps * 4).toNat : Int) > maxBlockSigopsCost then reject "bad-blk-sigops"
      else return ()

def checkBlock (fCheckPOW fCheckMerkleRoot : Bool) :
    Except (Failure BlockValidationResult) Unit :=
  if fCheckPOW && !Pow.checkProofOfWork (env.hash block.toCBlockHeader) block.nBits env.params then
    .error (.invalid .blockInvalidHeader "high-hash")
  else do
    if fCheckMerkleRoot then checkMerkleRoot env block
    checkTransactions env block

/-- The outputs of a transaction with their outpoints, from a given index on. -/
def outputsFrom (txid : Uint256) : Nat → List CTxOut → List (COutPoint × CTxOut)
  | _, [] => []
  | i, out :: rest => (⟨txid, i⟩, out) :: outputsFrom txid (i + 1) rest

def outputs (tx : CTransaction) : List (COutPoint × CTxOut) :=
  outputsFrom (env.txid tx) 0 tx.vout

theorem outputsFrom_map_snd (txid : Uint256) (i : Nat) (vout : List CTxOut) :
    (outputsFrom txid i vout).map Prod.snd = vout := by
  induction vout generalizing i with
  | nil => rfl
  | cons out rest ih => simp only [outputsFrom, List.map_cons, ih]

theorem mem_vout_of_mem_outputs {env : Env} (mem : output ∈ outputs env tx) :
    output.2 ∈ tx.vout := by
  rw [← outputsFrom_map_snd (env.txid tx) 0 tx.vout]
  exact List.mem_map_of_mem mem

/-- The loop of `AddCoins`. -/
def addOutput (checkForOverwrite fCoinbase : Bool) (nHeight : Nat) (cache : CCoinsViewCache)
    (output : COutPoint × CTxOut) : Except Fault CCoinsViewCache :=
  let (overwrite, cache) :=
    if checkForOverwrite then cache.haveCoin output.1 else (fCoinbase, cache)
  cache.addCoin output.1 ⟨output.2, fCoinbase, nHeight⟩ overwrite

def addCoins (cache : CCoinsViewCache) (tx : CTransaction) (nHeight : Nat)
    (checkForOverwrite : Bool) : Except Fault CCoinsViewCache :=
  (outputs env tx).foldlM (addOutput checkForOverwrite tx.isCoinBase nHeight) cache

/-- The loop of `UpdateCoins` over the inputs: `vprevout` and the view. -/
def spendInput (st : List Coin × CCoinsViewCache) (txin : CTxIn) :
    Except Fault (List Coin × CCoinsViewCache) :=
  match st.2.spendCoin txin.prevout with
  | (none, _) => .error (.assertion "is_spent")
  | (some coin, v) => .ok (st.1 ++ [coin], v)

def spendInputs (tx : CTransaction) (inputs : CCoinsViewCache) :
    Except Fault (List Coin × CCoinsViewCache) :=
  if tx.isCoinBase then .ok ([], inputs) else tx.vin.foldlM spendInput ([], inputs)

/-- `UpdateCoins`: `CTxUndo::vprevout` and the view. -/
def updateCoins (tx : CTransaction) (inputs : CCoinsViewCache) (nHeight : Nat) :
    Except Fault (List Coin × CCoinsViewCache) := do
  let (vprevout, inputs) ← spendInputs tx inputs
  return (vprevout, ← addCoins env inputs tx nHeight false)

variable (pindex : CBlockIndex)

def isBIP30Repeat : Bool :=
  (pindex.nHeight == 91842 && pindex.getBlockHash env.hash ==
      0x00000000000a4d0a398161ffc163c503763b1f4360639393e0e4c8e300e0caec) ||
    (pindex.nHeight == 91880 && pindex.getBlockHash env.hash ==
      0x00000000000743f190a18c5577a3c2d2a1f610ae9601ac046a38084ccb7cd721)

def bip34ImpliesBIP30Limit : Nat := 1983702

/-- Whether `ConnectBlock` makes the BIP30 check for a block. -/
def enforceBIP30 (pprev pindex : CBlockIndex) : Bool :=
  let known :=
    match pprev.getAncestor env.params.bip34Height with
    | none => false
    | some pindexBIP34height => pindexBIP34height.getBlockHash env.hash == env.params.bip34Hash
  (!isBIP30Repeat env pindex && !known) || decide (pindex.nHeight ≥ bip34ImpliesBIP30Limit)

/-- The loop of the BIP30 check. -/
def checkNoOverwrite (view : CCoinsViewCache) (output : COutPoint × CTxOut) :
    Except (Failure BlockValidationResult) CCoinsViewCache :=
  match view.haveCoin output.1 with
  | (true, _) => reject "bad-txns-BIP30"
  | (false, view) => .ok view

def checkBIP30 (pprev pindex : CBlockIndex) (view : CCoinsViewCache) :
    Except (Failure BlockValidationResult) CCoinsViewCache :=
  if enforceBIP30 env pprev pindex then
    (block.vtx.flatMap (outputs env)).foldlM checkNoOverwrite view
  else .ok view

def getBlockScriptFlags : UInt32 :=
  let height : Int := pindex.nHeight
  let flags :=
    (env.params.scriptFlagExceptions.lookup (pindex.getBlockHash env.hash)).getD
      (scriptVerifyP2SH ||| scriptVerifyWITNESS ||| scriptVerifyTAPROOT)
  flags ||| (if height ≥ env.params.bip66Height then scriptVerifyDERSIG else 0) |||
    (if height ≥ env.params.bip65Height then scriptVerifyCHECKLOCKTIMEVERIFY else 0) |||
    (if height ≥ env.params.csvHeight then scriptVerifyCHECKSEQUENCEVERIFY else 0) |||
    (if height ≥ env.params.segwitHeight then scriptVerifyNULLDUMMY else 0)

/-- What the loop of `ConnectBlock` carries from one transaction to the next. -/
structure ConnectState where
  view : CCoinsViewCache
  nFees : Int
  nSigOpsCost : Int
  /-- `CBlockUndo::vtxundo`. -/
  vtxundo : List (List Coin)

/-- The checks of a transaction that spends coins, up to its lock times. -/
def connectInputs (nLockTimeFlags : UInt32) (tx : CTransaction) (st : ConnectState) :
    Except (Failure BlockValidationResult) ConnectState :=
  if tx.isCoinBase then .ok st
  else do
    let (txfee, view) ← ofTx (checkTxInputs tx st.view pindex.nHeight)
    let nFees ← lift (int64 (st.nFees + txfee))
    if ¬ moneyRange nFees then reject "bad-txns-accumulated-fee-outofrange"
    else
      match accessCoins tx.vin view with
      | (coins, view) => do
        if ← lift (sequenceLocks tx nLockTimeFlags (coins.map (·.nHeight)) pindex) then
          return { st with view, nFees }
        else reject "bad-txns-nonfinal"

def connectSigOps (flags : UInt32) (tx : CTransaction) (st : ConnectState) :
    Except (Failure BlockValidationResult) ConnectState := do
  let (cost, view) ← lift (getTransactionSigOpCost env tx st.view flags)
  let nSigOpsCost ← lift (int64 (st.nSigOpsCost + cost))
  if nSigOpsCost > maxBlockSigopsCost then reject "bad-blk-sigops"
  else return { st with view, nSigOpsCost }

def connectScripts (flags : UInt32) (tx : CTransaction) (st : ConnectState) :
    Except (Failure BlockValidationResult) ConnectState :=
  if tx.isCoinBase || !env.fScriptChecks pindex then .ok st
  else do
    let (coins, view) ← lift (accessUnspent tx.vin st.view)
    match env.checkInputScripts tx (coins.map (·.out)) flags with
    | some rejectReason => reject rejectReason
    | none => return { st with view }

/-- The checks of one transaction, before its coins are updated. -/
def checkTx (nLockTimeFlags flags : UInt32) (tx : CTransaction) (st : ConnectState) :
    Except (Failure BlockValidationResult) ConnectState := do
  let st ← connectInputs pindex nLockTimeFlags tx st
  let st ← connectSigOps env flags tx st
  connectScripts env pindex flags tx st

/-- The body of the loop of `ConnectBlock`. The undo data of the first
    transaction is dropped. -/
def connectTx (nLockTimeFlags flags : UInt32) (st : ConnectState) (input : CTransaction × Nat) :
    Except (Failure BlockValidationResult) ConnectState := do
  let st ← checkTx env pindex nLockTimeFlags flags input.1 st
  let (vprevout, view) ← lift (updateCoins env input.1 st.view pindex.nHeight)
  return { st with view, vtxundo := if input.2 > 0 then st.vtxundo ++ [vprevout] else st.vtxundo }

/-- `ConnectBlock` from the script flags on, for a block that has a parent. -/
def connectTransactions (pindex : CBlockIndex) (view : CCoinsViewCache) :
    Except (Failure BlockValidationResult) ConnectState := do
  let nLockTimeFlags : UInt32 :=
    if (pindex.nHeight : Int) ≥ env.params.csvHeight then locktimeVerifySequence else 0
  let flags := getBlockScriptFlags env pindex
  let st ← block.vtx.zipIdx.foldlM (connectTx env pindex nLockTimeFlags flags) ⟨view, 0, 0, []⟩
  let blockReward ← lift (int64 (st.nFees + getBlockSubsidy pindex.nHeight env.params))
  match block.vtx with
  | [] => .error (.fault (.exception "block.vtx[0]"))
  | coinbase :: _ => do
    if (← lift coinbase.getValueOut) > blockReward then reject "bad-cb-amount"
    else return st

/-- `ConnectBlock`: the view and the undo data it writes. -/
def connectBlock (pindex : CBlockIndex) (view : CCoinsViewCache) (fJustCheck : Bool) :
    Except (Failure BlockValidationResult) (CCoinsViewCache × List (List Coin)) := do
  let blockHash := env.hash block.toCBlockHeader
  lift (assert (pindex.getBlockHash env.hash == blockHash) "*pindex->phashBlock == block_hash")
  match checkBlock env block (!fJustCheck) (!fJustCheck) with
  | .error (.invalid .blockMutated _) =>
    .error (.error
      "Corrupt block found indicating potential hardware failure; shutting down")
  | .error failure => .error failure
  | .ok () =>
    let hashPrevBlock :=
      match pindex.pprev with
      | none => 0
      | some pprev => pprev.getBlockHash env.hash
    match view.getBestBlock with
    | (bestBlock, view) => do
      lift (assert (hashPrevBlock == bestBlock) "hashPrevBlock == view.GetBestBlock()")
      if blockHash = env.params.hashGenesisBlock then
        return (if fJustCheck then view else view.setBestBlock (pindex.getBlockHash env.hash), [])
      else
        match pindex.pprev with
        | none => .error (.fault (.assertion "pindex->pprev"))
        | some pprev => do
          let view ← checkBIP30 env block pprev pindex view
          let st ← connectTransactions env block pindex view
          return (if fJustCheck then st.view
            else st.view.setBestBlock (pindex.getBlockHash env.hash), st.vtxundo)

end HobbyHash.Validation
