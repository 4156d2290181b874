import HobbyHash.Pow

/-! # Headers presync and redownload

`HeadersSyncState` of `headerssync.cpp`. A peer's headers are downloaded twice:
in `PRESYNC` they are only counted and committed to, and once the chain has shown
enough work they are downloaded again, compared with the commitments, buffered
and released. The members that never change after construction, the header hash
and the salted hasher are one structure, the rest is the state. A check that
fails says which one it was; the source returns `false` and logs the reason.
-/

namespace HobbyHash

open Machine Consensus

def headerCommitmentPeriod : Nat := 606

def redownloadBufferSize : Nat := 14441

/-- The seconds from the median time past of the chain start to the latest time
    that a header may have, for a clock that reads `now` nanoseconds. -/
def secondsAllowed (now : Int) (chainStart : CBlockIndex) : Int :=
  (now - chainStart.getMedianTimePast * 10 ^ 9).tdiv (10 ^ 9) + maxFutureBlockTime

/-- `m_max_commitments`. The product is signed; dividing it by a `size_t` makes it
    unsigned first. -/
def maxCommitmentsAt (now : Int) (chainStart : CBlockIndex) : Nat :=
  (6 * secondsAllowed now chainStart % 2 ^ 64).toNat / headerCommitmentPeriod

/-- The constant members of `HeadersSyncState` and the two hash functions. -/
structure HeadersSync where
  getHash : CBlockHeader → Uint256
  hasher : Uint256 → UInt64
  commitOffset : Fin headerCommitmentPeriod
  consensusParams : Params
  chainStart : CBlockIndex
  minimumRequiredWork : Nat
  maxCommitments : Nat

inductive HeadersSyncState.State where
  | presync
  | redownload
  | final
  deriving DecidableEq, Repr

structure HeadersSyncState where
  downloadState : HeadersSyncState.State
  currentChainWork : Nat
  headerCommitments : List Bool
  lastHeaderReceived : CBlockHeader
  currentHeight : Nat
  redownloadedHeaders : List HeaderFields
  redownloadBufferLastHeight : Nat
  redownloadBufferLastHash : Uint256
  redownloadBufferFirstPrevHash : Uint256
  redownloadChainWork : Nat
  processAllRemainingHeaders : Bool
  deriving DecidableEq, Repr

namespace HeadersSync

inductive Failure where
  | wrongState
  | nonContinuousHeaders
  | invalidDifficultyTransition
  | exceededMaxCommitments
  | commitmentOverrun
  | commitmentMismatch
  deriving DecidableEq, Repr

structure ProcessingResult where
  powValidatedHeaders : List CBlockHeader := []
  success : Bool := false
  requestMore : Bool := false
  deriving DecidableEq, Repr

def nullHeader : CBlockHeader where
  nVersion := 0
  hashMerkleRoot := 0
  nTime := 0
  nBits := 0
  nNonce := 0
  hashPrevBlock := 0

def getFullHeader (header : HeaderFields) (hashPrevBlock : Uint256) : CBlockHeader :=
  { header with hashPrevBlock }

/-- What a header check returns: the state it left, and the failure if it was one. -/
abbrev Checked := Except Fault (HeadersSyncState × Option Failure)

/-- A loop over headers that ends at the first failure. -/
def checkEach (check : HeadersSyncState → CBlockHeader → Checked) :
    HeadersSyncState → List CBlockHeader → Checked
  | s, [] => .ok (s, none)
  | s, header :: rest => do
    let checked ← check s header
    match checked.2 with
    | some failure => return (checked.1, some failure)
    | none => checkEach check checked.1 rest

/-- The constructor, with the offset that `GetRand` returned and the time that
    `NodeClock::now` did. -/
def construct (getHash : CBlockHeader → Uint256) (hasher : Uint256 → UInt64)
    (commitOffset : Fin headerCommitmentPeriod) (now : Int) (consensusParams : Params)
    (chainStart : CBlockIndex) (minimumRequiredWork : Nat) : HeadersSync where
  getHash
  hasher
  commitOffset
  consensusParams
  chainStart
  minimumRequiredWork
  maxCommitments := maxCommitmentsAt now chainStart

variable (sync : HeadersSync)

def initial : HeadersSyncState where
  downloadState := .presync
  currentChainWork := sync.chainStart.nChainWork
  headerCommitments := []
  lastHeaderReceived := sync.chainStart.getBlockHeader sync.getHash
  currentHeight := sync.chainStart.nHeight
  redownloadedHeaders := []
  redownloadBufferLastHeight := 0
  redownloadBufferLastHash := 0
  redownloadBufferFirstPrevHash := 0
  redownloadChainWork := 0
  processAllRemainingHeaders := false

/-- The commitment to a header: the low bit of its salted hash. -/
def commitment (header : CBlockHeader) : Bool :=
  sync.hasher (sync.getHash header) &&& 1 == 1

def Commits (height : Nat) : Prop :=
  height % headerCommitmentPeriod = sync.commitOffset

instance (height : Nat) : Decidable (sync.Commits height) :=
  inferInstanceAs (Decidable (_ = _))

variable (s : HeadersSyncState)

def finalize : HeadersSyncState :=
  { s with
    headerCommitments := []
    lastHeaderReceived := nullHeader
    redownloadedHeaders := []
    redownloadBufferLastHash := 0
    redownloadBufferFirstPrevHash := 0
    processAllRemainingHeaders := false
    currentHeight := 0
    downloadState := .final }

/-- The commitment of `ValidateAndProcessSingleHeader`. -/
def storeCommitment (nextHeight : Nat) (current : CBlockHeader) :
    HeadersSyncState × Option Failure :=
  if sync.Commits nextHeight then
    let stored := { s with headerCommitments := s.headerCommitments ++ [sync.commitment current] }
    if stored.headerCommitments.length > sync.maxCommitments then
      (stored, some .exceededMaxCommitments)
    else (stored, none)
  else (s, none)

def validateAndProcessSingleHeader (current : CBlockHeader) : Checked :=
  if s.downloadState ≠ .presync then .ok (s, some .wrongState)
  else do
    let nextHeight := s.currentHeight + 1
    let permitted ← Pow.permittedDifficultyTransition sync.consensusParams nextHeight
      s.lastHeaderReceived.nBits current.nBits
    if permitted then
      let stored := sync.storeCommitment s nextHeight current
      match stored.2 with
      | some failure => return (stored.1, some failure)
      | none =>
        return ({ stored.1 with
          currentChainWork := (s.currentChainWork + CBlockIndex.getBlockProof current.nBits) %
            ArithUint256.modulus
          lastHeaderReceived := current
          currentHeight := nextHeight }, none)
    else return (s, some .invalidDifficultyTransition)

/-- The end of `ValidateAndStoreHeadersCommitments`: with enough work the headers
    are asked for again, from the chain start on. -/
def switchToRedownload : HeadersSyncState :=
  if s.currentChainWork ≥ sync.minimumRequiredWork then
    { s with
      redownloadedHeaders := []
      redownloadBufferLastHeight := sync.chainStart.nHeight
      redownloadBufferFirstPrevHash := sync.chainStart.getBlockHash sync.getHash
      redownloadBufferLastHash := sync.chainStart.getBlockHash sync.getHash
      redownloadChainWork := sync.chainStart.nChainWork
      downloadState := .redownload }
  else s

def validateAndStoreHeadersCommitments : List CBlockHeader → Checked
  | [] => .ok (s, none)
  | first :: rest =>
    if s.downloadState ≠ .presync then .ok (s, some .wrongState)
    else if first.hashPrevBlock ≠ sync.getHash s.lastHeaderReceived then
      .ok (s, some .nonContinuousHeaders)
    else do
      let checked ← checkEach sync.validateAndProcessSingleHeader s (first :: rest)
      match checked.2 with
      | some failure => return (checked.1, some failure)
      | none => return (sync.switchToRedownload checked.1, none)

/-- `previous_nBits`: of the last buffered header, else of the chain start. -/
def previousBits : UInt32 :=
  match s.redownloadedHeaders.getLast? with
  | some last => last.nBits
  | none => sync.chainStart.nBits

def trackWork (header : CBlockHeader) : HeadersSyncState :=
  let work := (s.redownloadChainWork + CBlockIndex.getBlockProof header.nBits) %
    ArithUint256.modulus
  { s with
    redownloadChainWork := work
    processAllRemainingHeaders :=
      s.processAllRemainingHeaders || decide (work ≥ sync.minimumRequiredWork) }

def storeHeader (nextHeight : Nat) (header : CBlockHeader) :
    HeadersSyncState :=
  { s with
    redownloadedHeaders := s.redownloadedHeaders ++ [header.toHeaderFields]
    redownloadBufferLastHeight := nextHeight
    redownloadBufferLastHash := sync.getHash header }

/-- The commitment check of `ValidateAndStoreRedownloadedHeader`, which ends once
    the work is reached: the peer may have extended its chain since. -/
def checkCommitment (nextHeight : Nat) (header : CBlockHeader) :
    HeadersSyncState × Option Failure :=
  if s.processAllRemainingHeaders = false ∧ sync.Commits nextHeight then
    match s.headerCommitments with
    | [] => (s, some .commitmentOverrun)
    | expected :: later =>
      let popped := { s with headerCommitments := later }
      if sync.commitment header ≠ expected then (popped, some .commitmentMismatch)
      else (sync.storeHeader popped nextHeight header, none)
  else (sync.storeHeader s nextHeight header, none)

def validateAndStoreRedownloadedHeader (header : CBlockHeader) : Checked :=
  if s.downloadState ≠ .redownload then .ok (s, some .wrongState)
  else if header.hashPrevBlock ≠ s.redownloadBufferLastHash then
    .ok (s, some .nonContinuousHeaders)
  else do
    let nextHeight := s.redownloadBufferLastHeight + 1
    let permitted ← Pow.permittedDifficultyTransition sync.consensusParams nextHeight
      (sync.previousBits s) header.nBits
    if permitted then return sync.checkCommitment (sync.trackWork s header) nextHeight header
    else return (s, some .invalidDifficultyTransition)

/-- The loop of `PopHeadersReadyForAcceptance`: the released headers, the ones
    that stay, and the hash that the first of these builds on. -/
def popHeaders (processAll : Bool) :
    Uint256 → List HeaderFields → List CBlockHeader × List HeaderFields × Uint256
  | prevHash, [] => ([], [], prevHash)
  | prevHash, front :: rest =>
    if (front :: rest).length > redownloadBufferSize ∨ processAll then
      let full := getFullHeader front prevHash
      let later := popHeaders processAll (sync.getHash full) rest
      (full :: later.1, later.2)
    else ([], front :: rest, prevHash)

def popHeadersReadyForAcceptance : HeadersSyncState × List CBlockHeader :=
  if s.downloadState ≠ .redownload then (s, [])
  else
    let popped := sync.popHeaders s.processAllRemainingHeaders s.redownloadBufferFirstPrevHash
      s.redownloadedHeaders
    ({ s with
      redownloadedHeaders := popped.2.1
      redownloadBufferFirstPrevHash := popped.2.2 }, popped.1)

/-- The end of `ProcessNextHeaders`. -/
def finish (ret : ProcessingResult) : HeadersSyncState × ProcessingResult :=
  if ret.success ∧ ret.requestMore then (s, ret) else (finalize s, ret)

/-- The part of `ProcessNextHeaders` that follows a redownloaded batch. -/
def release (fullHeadersMessage : Bool) :
    HeadersSyncState × ProcessingResult :=
  let popped := sync.popHeadersReadyForAcceptance s
  let complete := popped.1.redownloadedHeaders.isEmpty && popped.1.processAllRemainingHeaders
  finish popped.1 ⟨popped.2, true, !complete && fullHeadersMessage⟩

def processNextHeaders (receivedHeaders : List CBlockHeader) (fullHeadersMessage : Bool) :
    Except Fault (HeadersSyncState × ProcessingResult) :=
  if receivedHeaders.isEmpty then .ok (s, {})
  else
    match s.downloadState with
    | .final => .ok (s, {})
    | .presync => do
      let checked ← sync.validateAndStoreHeadersCommitments s receivedHeaders
      match checked.2 with
      | some _ => return finish checked.1 {}
      | none =>
        let requestMore := fullHeadersMessage || checked.1.downloadState == .redownload
        return finish checked.1 ⟨[], true, requestMore⟩
    | .redownload => do
      let checked ← checkEach sync.validateAndStoreRedownloadedHeader s receivedHeaders
      match checked.2 with
      | some _ => return finish checked.1 {}
      | none => return sync.release checked.1 fullHeadersMessage

end HeadersSync

end HobbyHash
