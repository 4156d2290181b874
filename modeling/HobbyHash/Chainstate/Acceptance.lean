import HobbyHash.Chainstate.Selection
import HobbyHash.Validation.Block

/-! # Accepting headers and blocks

`AcceptBlockHeader` and `AcceptBlock` of `validation.cpp`. The answer of
`CheckBlock` and `ContextualCheckBlock` on a block is an argument, as is the time
that the header is compared with, in nanoseconds.
-/

namespace HobbyHash

open Machine

/-- `BlockValidationResult`, as far as the functions about headers use it. -/
inductive HeaderValidationResult where
  | blockInvalidHeader
  | blockCachedInvalid
  | blockMissingPrev
  | blockInvalidPrev
  | blockTimeFuture
  | blockCheckpoint
  | blockHeaderLowWork
  deriving DecidableEq, Repr

abbrev HeaderRejection := HeaderValidationResult × String

def minBlocksToKeep : Nat := 288

/-- `%08x` of a version. -/
def versionHex (nVersion : Int32) : String :=
  let digits := String.ofList (Nat.toDigits 16 nVersion.toUInt32.toNat)
  "".pushn '0' (8 - digits.length) ++ digits

namespace ChainstateManager

variable (env : IndexEnv) (s : ChainstateManager)

def getLastCheckpoint : Option CBlockIndex :=
  env.checkpoints.findSome? fun checkpoint => s.find env checkpoint.2

/-- Versions that a soft fork has retired at the given height. -/
def outdatedVersion (nVersion : Int32) (nHeight : Int) : Bool :=
  (decide (nVersion < 2) && decide (nHeight ≥ env.params.bip34Height)) ||
    (decide (nVersion < 3) && decide (nHeight ≥ env.params.bip66Height)) ||
    (decide (nVersion < 4) && decide (nHeight ≥ env.params.bip65Height))

/-- `ContextualCheckBlockHeader`: why a header is refused after `pindexPrev`. -/
def contextualCheckBlockHeader (now : Int) (block : CBlockHeader) (pindexPrev : CBlockIndex) :
    Except Fault (Option HeaderRejection) := do
  let nHeight := pindexPrev.nHeight + 1
  let required ← Pow.getNextWorkRequired pindexPrev block.toHeaderFields env.params
  if block.nBits ≠ required then return some (.blockInvalidHeader, "bad-diffbits")
  else if env.checkpointsEnabled &&
      (s.getLastCheckpoint env).any fun pcheckpoint => decide (nHeight < pcheckpoint.nHeight) then
    return some (.blockCheckpoint, "bad-fork-prior-to-checkpoint")
  else if (block.nTime.toNat : Int) ≤ pindexPrev.getMedianTimePast then
    return some (.blockInvalidHeader, "time-too-old")
  else if block.nTime.toNat * 10 ^ 9 > now + maxFutureBlockTime * 10 ^ 9 then
    return some (.blockTimeFuture, "time-too-new")
  else if outdatedVersion env block.nVersion nHeight then
    return some (.blockInvalidHeader, "bad-version(0x" ++ versionHex block.nVersion ++ ")")
  else return none

/-- The first element of `m_failed_blocks`, in the order of the addresses, that is
    an ancestor of a block. -/
def failedAncestor (pindexPrev : CBlockIndex) : List CBlockIndex → Option CBlockIndex
  | [] => none
  | failed :: rest =>
    let later := failedAncestor pindexPrev rest
    if pindexPrev.getAncestor failed.nHeight = some failed then
      match later with
      | none => some failed
      | some other => if env.address other < env.address failed then some other else some failed
    else later

/-- Marks the blocks from `pindexPrev` down to a failed one, which is not marked. -/
def markFailedChildren (pindexPrev failed : CBlockIndex) : ChainstateManager :=
  (pindexPrev.path.drop (failed.nHeight + 1)).foldl
    (fun s b => s.modifyStatus b fun status => { status with failedChild := true }) s

/-- The end of `AcceptBlockHeader`, for a header that passed the checks. -/
def addHeader (minPowChecked : Bool) (block : CBlockHeader) :
    ChainstateManager × Except HeaderRejection CBlockIndex :=
  if minPowChecked then
    match s.addToBlockIndex env block with
    | (s, pindex) => (s, .ok pindex)
  else (s, .error (.blockHeaderLowWork, "too-little-chainwork"))

/-- `AcceptBlockHeader` for a header with a known parent that has not failed. -/
def acceptAfter (now : Int) (minPowChecked : Bool) (block : CBlockHeader)
    (pindexPrev : CBlockIndex) :
    Except Fault (ChainstateManager × Except HeaderRejection CBlockIndex) := do
  match ← s.contextualCheckBlockHeader env now block pindexPrev with
  | some rejection => return (s, .error rejection)
  | none =>
    if (s.nStatus pindexPrev).isValid .scripts then return s.addHeader env minPowChecked block
    else
      match failedAncestor env pindexPrev s.failedBlocks with
      | none => return s.addHeader env minPowChecked block
      | some failed => do
        assert (s.nStatus failed).failedValid "failedit->nStatus & BLOCK_FAILED_VALID"
        return (s.markFailedChildren pindexPrev failed,
          .error (.blockInvalidPrev, "bad-prevblk"))

def acceptBlockHeader (now : Int) (minPowChecked : Bool) (block : CBlockHeader) :
    Except Fault (ChainstateManager × Except HeaderRejection CBlockIndex) :=
  if env.hash block = env.params.hashGenesisBlock then .ok (s.addHeader env minPowChecked block)
  else
    match s.find env (env.hash block) with
    | some pindex =>
      if (s.nStatus pindex).failed then .ok (s, .error (.blockCachedInvalid, "duplicate"))
      else .ok (s, .ok pindex)
    | none =>
      if !Pow.checkProofOfWork (env.hash block) block.nBits env.params then
        .ok (s, .error (.blockInvalidHeader, "high-hash"))
      else
        match s.find env block.hashPrevBlock with
        | none => .ok (s, .error (.blockMissingPrev, "prev-blk-not-found"))
        | some pindexPrev =>
          if (s.nStatus pindexPrev).failed then
            .ok (s, .error (.blockInvalidPrev, "bad-prevblk"))
          else s.acceptAfter env now minPowChecked block pindexPrev

/-- Whether `AcceptBlock` leaves the data of an accepted header aside. -/
def skipData (fRequested : Bool) (pindex : CBlockIndex) : Bool :=
  let fAlreadyHave := (s.nStatus pindex).haveData
  let fHasMoreOrSameWork := s.tip.all fun tip => decide (pindex.nChainWork ≥ tip.nChainWork)
  let activeHeight : Int := s.tip.elim (-1) fun tip => tip.nHeight
  let fTooFarAhead := decide ((pindex.nHeight : Int) > activeHeight + minBlocksToKeep)
  fAlreadyHave || (!fRequested && ((s.entry pindex).nTx != 0 || !fHasMoreOrSameWork ||
    fTooFarAhead || decide (pindex.nChainWork < env.minimumChainWork)))

/-- A block as it arrives: its data, how it was asked for, the answer of its
    checks and the place its data is written to. -/
structure BlockArrival where
  block : CBlock
  fRequested : Bool
  minPowChecked : Bool
  /-- The result of `CheckBlock` and `ContextualCheckBlock` if one of them fails. -/
  failure : Option Validation.BlockValidationResult
  blockPos : FlatFilePos

/-- `AcceptBlock` after its header was accepted. The result says whether the block
    was accepted. -/
def acceptData (arrival : BlockArrival) (pindex : CBlockIndex) : ChainstateManager × Bool :=
  if s.skipData env arrival.fRequested pindex then (s, true)
  else
    match arrival.failure with
    | some .blockMutated => (s, false)
    | some _ => (s.modifyStatus pindex fun status => { status with failedValid := true }, false)
    | none => (s.receivedBlockTransactions env arrival.block pindex arrival.blockPos, true)

def acceptBlock (now : Int) (arrival : BlockArrival) : Except Fault (ChainstateManager × Bool) := do
  match ← s.acceptBlockHeader env now arrival.minPowChecked arrival.block.toCBlockHeader with
  | (s, .error _) => return (s, false)
  | (s, .ok pindex) => return s.acceptData env arrival pindex

end ChainstateManager

end HobbyHash
