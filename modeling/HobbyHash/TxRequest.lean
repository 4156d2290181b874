import HobbyHash.Consensus.Params
import HobbyHash.Library.OrderedView
import HobbyHash.Machine
import Mathlib.Data.List.Sort
import Mathlib.Data.Prod.Lex

/-! # The transaction request tracker

`TxRequestTracker` of `txrequest.cpp`. The announcements are kept in one container that
is seen in three orders; where the code goes to the next or the previous element of an
order, or walks along it, so does the model. Elements with equal keys may stand in any
order, and in another one after each change of the container. An iterator is the
announcement it points to.
-/

namespace HobbyHash.TxRequest

open Machine Library OrderedView

abbrev NodeId := Int

inductive State where
  | candidateDelayed
  | candidateReady
  | candidateBest
  | requested
  | completed
  deriving DecidableEq, Repr

def State.rank : State → Nat
  | candidateDelayed => 0
  | candidateReady => 1
  | candidateBest => 2
  | requested => 3
  | completed => 4

structure GenTxid where
  isWtxid : Bool
  hash : Uint256
  deriving DecidableEq, Repr

structure Source where
  txhash : Uint256
  peer : NodeId
  preferred : Bool
  isWtxid : Bool
  deriving DecidableEq, Repr

/-- `Announcement`. The time is the reqtime of a candidate and the expiry of a request. -/
structure Announcement extends Source where
  sequence : Nat
  time : Int
  state : State
  deriving DecidableEq, Repr

def Source.toGenTxid (source : Source) : GenTxid := ⟨source.isWtxid, source.txhash⟩

namespace Announcement

variable (ann : Announcement)

def isSelected : Bool :=
  ann.state = .candidateBest || ann.state = .requested

def isWaiting : Bool :=
  ann.state = .requested || ann.state = .candidateDelayed

def isSelectable : Bool :=
  ann.state = .candidateReady || ann.state = .candidateBest

def setState (state : State) : Announcement := { ann with state := state }

variable {ann : Announcement} {state : State}

@[simp] theorem setState_state : (ann.setState state).state = state := rfl

@[simp] theorem setState_toSource : (ann.setState state).toSource = ann.toSource := rfl

@[simp] theorem setState_time : (ann.setState state).time = ann.time := rfl

@[simp] theorem setState_sequence : (ann.setState state).sequence = ann.sequence := rfl

@[simp] theorem setState_self : ann.setState ann.state = ann := rfl

@[simp] theorem isSelected_iff :
    ann.isSelected = true ↔ ann.state = .candidateBest ∨ ann.state = .requested := by
  simp [isSelected]

@[simp] theorem isWaiting_iff :
    ann.isWaiting = true ↔ ann.state = .requested ∨ ann.state = .candidateDelayed := by
  simp [isWaiting]

@[simp] theorem isSelectable_iff :
    ann.isSelectable = true ↔ ann.state = .candidateReady ∨ ann.state = .candidateBest := by
  simp [isSelectable]

end Announcement

variable (sipHash : Uint256 → NodeId → UInt64)

/-- `PriorityComputer`, with the salted hash of a txhash and a peer as a parameter. -/
def computePriority (source : Source) : UInt64 :=
  let low_bits := sipHash source.txhash source.peer >>> 1
  let preferred : UInt64 := if source.preferred then 1 else 0
  low_bits ||| preferred <<< 63

variable (ann : Announcement)

def priority : UInt64 :=
  computePriority sipHash ann.toSource

@[simp] theorem priority_setState {sipHash : Uint256 → NodeId → UInt64} {ann : Announcement} :
    priority sipHash (ann.setState state) = priority sipHash ann := rfl

def byPeerView (peer : NodeId) (best : Bool) (txhash : Uint256) : ℤ ×ₗ ℕ ×ₗ ℕ :=
  toLex (peer, toLex (if best then 1 else 0, txhash.toNat))

/-- `ByPeerViewExtractor`. -/
def byPeerKey : ℤ ×ₗ ℕ ×ₗ ℕ :=
  byPeerView ann.peer (ann.state = .candidateBest) ann.txhash

def byTxHashView (txhash : Uint256) (state : State) (priority : Nat) : ℕ ×ₗ ℕ ×ₗ ℕ :=
  toLex (txhash.toNat, toLex (state.rank, priority))

/-- `ByTxHashViewExtractor`. -/
def byTxHashKey : ℕ ×ₗ ℕ ×ₗ ℕ :=
  byTxHashView ann.txhash ann.state
    (if ann.state = .candidateReady then (priority sipHash ann).toNat else 0)

/-- `GetWaitState`: future events, no events, past events. -/
def getWaitState : Nat :=
  if ann.isWaiting then 0 else if ann.isSelectable then 2 else 1

/-- `ByTimeViewExtractor`. -/
def byTimeKey : ℕ ×ₗ ℤ := toLex (getWaitState ann, ann.time)

/-- The three orders of `Index`, at each revision of the container. -/
structure Views (sipHash : Uint256 → NodeId → UInt64) where
  byPeer : Nat → OrderedView byPeerKey
  byTxHash : Nat → OrderedView (byTxHashKey sipHash)
  byTime : Nat → OrderedView byTimeKey

structure PeerInfo where
  total : Nat := 0
  completed : Nat := 0
  requested : Nat := 0
  deriving DecidableEq, Repr

/-- `TxRequestTracker::Impl`. The revision counts the changes of the container. -/
structure Tracker where
  currentSequence : Nat
  index : List Announcement
  revision : Nat
  peerinfo : NodeId → Option PeerInfo

def Tracker.empty : Tracker := ⟨0, [], 0, fun _ => none⟩

def inState (state : State) : Nat := if ann.state = state then 1 else 0

def replace (index : List Announcement) (ann next : Announcement) : List Announcement :=
  index.map fun a => if a = ann then next else a

def erase (tracker : Tracker) (ann : Announcement) : Except Fault Tracker :=
  match tracker.peerinfo ann.peer with
  | none => .error (.exception "peerit")
  | some info =>
    let info : PeerInfo := ⟨info.total - 1, info.completed - inState ann .completed,
      info.requested - inState ann .requested⟩
    .ok { tracker with
      index := tracker.index.erase ann
      revision := tracker.revision + 1
      peerinfo := Function.update tracker.peerinfo ann.peer
        (if info.total = 0 then none else some info) }

def modify (tracker : Tracker) (ann next : Announcement) : Except Fault Tracker :=
  match tracker.peerinfo ann.peer with
  | none => .error (.exception "peerit")
  | some info =>
    let info : PeerInfo := ⟨info.total,
      info.completed - inState ann .completed + inState next .completed,
      info.requested - inState ann .requested + inState next .requested⟩
    .ok { tracker with
      index := replace tracker.index ann next
      revision := tracker.revision + 1
      peerinfo := Function.update tracker.peerinfo ann.peer (some info) }

def eraseAll (tracker : Tracker) : List Announcement → Except Fault Tracker
  | [] => .ok tracker
  | ann :: anns => do
    let tracker ← erase tracker ann
    eraseAll tracker anns

section Impl

variable {sipHash : Uint256 → NodeId → UInt64} (views : Views sipHash)

def byPeer (tracker : Tracker) : List Announcement :=
  (views.byPeer tracker.revision).order tracker.index

def byTxHash (tracker : Tracker) : List Announcement :=
  (views.byTxHash tracker.revision).order tracker.index

def byTime (tracker : Tracker) : List Announcement :=
  (views.byTime tracker.revision).order tracker.index

variable (tracker : Tracker) (it : Announcement)

def promoteCandidateReady : Except Fault Tracker := do
  assert (it.state = .candidateDelayed) "it->GetState() == State::CANDIDATE_DELAYED"
  let ready := it.setState .candidateReady
  let tracker ← modify tracker it ready
  match next (byTxHash views tracker) ready with
  | none => modify tracker ready (it.setState .candidateBest)
  | some it_next =>
    if it_next.txhash ≠ ready.txhash ∨ it_next.state = .completed then
      modify tracker ready (it.setState .candidateBest)
    else if it_next.state = .candidateBest then
      let priority_old := priority sipHash it_next
      let priority_new := priority sipHash ready
      if priority_new > priority_old then do
        let tracker ← modify tracker it_next (it_next.setState .candidateReady)
        modify tracker ready (it.setState .candidateBest)
      else return tracker
    else return tracker

def changeAndReselect (new_state : State) :
    Except Fault Tracker := do
  assert (new_state = .completed || new_state = .candidateDelayed)
    "new_state == State::COMPLETED || new_state == State::CANDIDATE_DELAYED"
  if it.isSelected then
    match prev (byTxHash views tracker) it with
    | none => modify tracker it (it.setState new_state)
    | some it_prev =>
      if it_prev.txhash = it.txhash ∧ it_prev.state = .candidateReady then do
        let tracker ← modify tracker it_prev (it_prev.setState .candidateBest)
        modify tracker it (it.setState new_state)
      else modify tracker it (it.setState new_state)
  else modify tracker it (it.setState new_state)

def isOnlyNonCompleted : Except Fault Bool := do
  assert (it.state ≠ .completed) "it->GetState() != State::COMPLETED"
  let view := byTxHash views tracker
  if (prev view it).any (·.txhash = it.txhash) then return false
  if (next view it).any fun a => a.txhash = it.txhash ∧ a.state ≠ .completed then
    return false
  return true

/-- `MakeCompleted`: whether the announcement still exists. -/
def makeCompleted : Except Fault (Bool × Tracker) := do
  if it.state = .completed then return (true, tracker)
  if ← isOnlyNonCompleted views tracker it then
    let others := following (·.txhash = it.txhash)
      (byTxHash views tracker) it
    return (false, ← eraseAll tracker (it :: others))
  return (true, ← changeAndReselect views tracker it .completed)

/-- The first loop of `SetTimePoint`, with the requests that have expired so far. -/
def expireLoop (now : Int) : Nat → Tracker → List (NodeId × GenTxid) →
    Except Fault (Tracker × List (NodeId × GenTxid))
  | 0, _, _ => .error (.exception "SetTimePoint")
  | fuel + 1, tracker, expired =>
    match (byTime views tracker).head? with
    | none => .ok (tracker, expired)
    | some it =>
      if it.state = .candidateDelayed ∧ it.time ≤ now then do
        let tracker ← promoteCandidateReady views tracker it
        expireLoop now fuel tracker expired
      else if it.state = .requested ∧ it.time ≤ now then do
        let (_, tracker) ← makeCompleted views tracker it
        expireLoop now fuel tracker (expired ++ [(it.peer, it.toGenTxid)])
      else .ok (tracker, expired)

/-- The second loop of `SetTimePoint`, for a clock that went backwards. -/
def demoteLoop (now : Int) : Nat → Tracker → Except Fault Tracker
  | 0, _ => .error (.exception "SetTimePoint")
  | fuel + 1, tracker =>
    match (byTime views tracker).getLast? with
    | none => .ok tracker
    | some it =>
      if it.isSelectable ∧ it.time > now then do
        let tracker ← changeAndReselect views tracker it .candidateDelayed
        demoteLoop now fuel tracker
      else .ok tracker

/-- `SetTimePoint`. The loops handle each announcement at most once. -/
def setTimePoint (now : Int) :
    Except Fault (Tracker × List (NodeId × GenTxid)) := do
  let (tracker, expired) ← expireLoop views now (tracker.index.length + 1) tracker []
  let tracker ← demoteLoop views now (tracker.index.length + 1) tracker
  return (tracker, expired)

def disconnectLoop (peer : NodeId) : Nat → Tracker → Option Announcement → Except Fault Tracker
  | 0, _, _ => .error (.exception "DisconnectedPeer")
  | _ + 1, tracker, none => .ok tracker
  | fuel + 1, tracker, some it =>
    if it.peer = peer then do
      let it_next := (next (byPeer views tracker) it).filter (·.peer = peer)
      let (exists_, tracker) ← makeCompleted views tracker it
      if exists_ then do
        let tracker ← erase tracker (it.setState .completed)
        disconnectLoop peer fuel tracker it_next
      else disconnectLoop peer fuel tracker it_next
    else .ok tracker

variable (peer : NodeId)

/-- `DisconnectedPeer`. Each iteration deletes an announcement. -/
def disconnectedPeer : Except Fault Tracker :=
  disconnectLoop views peer (tracker.index.length + 1) tracker
    (from_ byPeerKey (byPeerView peer false 0) (byPeer views tracker)).head?

def forgetTxHash (txhash : Uint256) : Except Fault Tracker :=
  let it := byTxHashView txhash .candidateDelayed 0
  eraseAll tracker ((from_ (byTxHashKey sipHash) it (byTxHash views tracker)).takeWhile
    (·.txhash = txhash))

def findByPeer (best : Bool) (txhash : Uint256) :
    Option Announcement :=
  tracker.index.find? fun ann =>
    ann.peer = peer && decide (ann.state = .candidateBest) == best && ann.txhash = txhash

def receivedInv (gtxid : GenTxid) (preferred : Bool) (reqtime : Int) : Tracker :=
  if (findByPeer tracker peer true gtxid.hash).isSome then tracker
  else if (findByPeer tracker peer false gtxid.hash).isSome then tracker
  else
    -- `m_sequence` has 59 bits, `m_current_sequence` has 64.
    let ann : Announcement :=
      ⟨⟨gtxid.hash, peer, preferred, gtxid.isWtxid⟩, tracker.currentSequence % 2 ^ 59, reqtime,
        .candidateDelayed⟩
    let info := (tracker.peerinfo peer).getD {}
    { currentSequence := (tracker.currentSequence + 1) % 2 ^ 64
      index := tracker.index ++ [ann]
      revision := tracker.revision + 1
      peerinfo := Function.update tracker.peerinfo peer
        (some { info with total := info.total + 1 }) }

/-- `GetRequestable`, with the requests that have expired. -/
def getRequestable (now : Int) :
    Except Fault (List GenTxid × List (NodeId × GenTxid) × Tracker) := do
  let (tracker, expired) ← setTimePoint views tracker now
  let it_peer := from_ byPeerKey (byPeerView peer true 0) (byPeer views tracker)
  let selected := it_peer.takeWhile fun a => a.peer = peer && a.state = .candidateBest
  let sorted := selected.insertionSort fun a b => a.sequence ≤ b.sequence
  return (sorted.map (·.toGenTxid), expired, tracker)

def requestedTx (txhash : Uint256) (expiry : Int) :
    Except Fault Tracker := do
  let request (tracker : Tracker) (it : Announcement) :=
    modify tracker it { it with state := .requested, time := expiry }
  match findByPeer tracker peer true txhash with
  | some it => request tracker it
  | none =>
    match findByPeer tracker peer false txhash with
    | none => return tracker
    | some it =>
      if it.state ≠ .candidateDelayed ∧ it.state ≠ .candidateReady then return tracker
      else
        let lower := byTxHashView txhash .candidateBest 0
        match (from_ (byTxHashKey sipHash) lower (byTxHash views tracker)).head? with
        | none => request tracker it
        | some it_old =>
          if it_old.txhash = txhash ∧ it_old.state = .candidateBest then do
            let tracker ← modify tracker it_old (it_old.setState .candidateReady)
            request tracker it
          else if it_old.txhash = txhash ∧ it_old.state = .requested then do
            let tracker ← modify tracker it_old (it_old.setState .completed)
            request tracker it
          else request tracker it

def receivedResponse (txhash : Uint256) :
    Except Fault Tracker := do
  match (findByPeer tracker peer false txhash).or (findByPeer tracker peer true txhash) with
  | none => return tracker
  | some it =>
    let (_, tracker) ← makeCompleted views tracker it
    return tracker

end Impl

def countInFlight (tracker : Tracker) (peer : NodeId) : Nat :=
  match tracker.peerinfo peer with
  | some info => info.requested
  | none => 0

def countCandidates (tracker : Tracker) (peer : NodeId) : Nat :=
  match tracker.peerinfo peer with
  | some info => info.total - info.requested - info.completed
  | none => 0

def count (tracker : Tracker) (peer : NodeId) : Nat :=
  match tracker.peerinfo peer with
  | some info => info.total
  | none => 0

def size (tracker : Tracker) : Nat := tracker.index.length

end HobbyHash.TxRequest
