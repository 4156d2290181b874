import HobbyHash.TxRequest
import Mathlib.Data.List.Perm.Subperm

/-! # The tracker's specification

The specification in `txrequest.h`, and the naive structure that the fuzz test compares
the tracker with: one record for each peer and txhash, a candidate, requested or
completed, in announcement order. No record is marked as the best; the choice is made
anew each time. Where two candidates have the same priority either may be chosen.
-/

namespace HobbyHash.TxRequest

open List

inductive Call where
  | receivedInv (peer : NodeId) (gtxid : GenTxid) (preferred : Bool) (reqtime : Int)
  | requestedTx (peer : NodeId) (txhash : Uint256) (expiry : Int)
  | receivedResponse (peer : NodeId) (txhash : Uint256)
  | forgetTxHash (txhash : Uint256)
  | disconnectedPeer (peer : NodeId)
  | getRequestable (peer : NodeId) (now : Int)
  deriving DecidableEq, Repr

/-- What a call returns, and what the tracker reports after it. -/
structure Results where
  requestable : List GenTxid
  expired : List (NodeId × GenTxid)
  inFlight : NodeId → Nat
  candidates : NodeId → Nat
  total : NodeId → Nat
  size : Nat

namespace Naive

inductive Status where
  | candidate (reqtime : Int)
  | requested (expiry : Int)
  | completed
  deriving DecidableEq, Repr

/-- What is known of a peer and a txhash. -/
structure Record extends Source where
  status : Status
  deriving DecidableEq, Repr

namespace Record

def isOf (peer : NodeId) (txhash : Uint256) (record : Record) : Bool :=
  record.peer = peer && record.txhash = txhash

def isCandidate (record : Record) : Bool :=
  match record.status with
  | .candidate _ => true
  | _ => false

def isRequested (record : Record) : Bool :=
  match record.status with
  | .requested _ => true
  | _ => false

/-- Whether the record is a candidate whose reqtime has passed. -/
def isReady (now : Int) (record : Record) : Bool :=
  match record.status with
  | .candidate reqtime => reqtime ≤ now
  | _ => false

def isExpired (now : Int) (record : Record) : Bool :=
  match record.status with
  | .requested expiry => expiry ≤ now
  | _ => false

def setStatus (status : Status) (record : Record) : Record := { record with status := status }

end Record

/-- Deletes the txhashes of which only completed records are left. -/
def cleanup (records : List Record) : List Record :=
  records.filter fun r => records.any fun q => q.txhash = r.txhash && q.status ≠ .completed

/-- Completes records and deletes what is over. -/
def complete (which : Record → Bool) (records : List Record) : List Record :=
  cleanup (records.map fun r => if which r then r.setStatus .completed else r)

section Cleanup

variable {records : List Record}

theorem mem_cleanup :
    record ∈ cleanup records ↔ record ∈ records ∧
      ∃ q ∈ records, q.txhash = record.txhash ∧ q.status ≠ .completed := by
  simp [cleanup]

theorem cleanup_eq_self
    (alive : ∀ r ∈ records, ∃ q ∈ records, q.txhash = r.txhash ∧ q.status ≠ .completed) :
    cleanup records = records := by
  apply filter_eq_self.mpr
  intro r mem
  simpa using alive r mem

theorem cleanup_filter (byTxhash : ∀ r q, r.txhash = q.txhash → keep r = keep q)
    (open_ : ∀ r ∈ records, r.status ≠ .completed → keep r) :
    cleanup (records.filter keep) = cleanup records := by
  rw [cleanup, cleanup, filter_filter]
  apply filter_congr
  intro r mem
  rw [Bool.eq_iff_iff]
  simp only [any_eq_true, mem_filter, Bool.and_eq_true, decide_eq_true_eq]
  constructor
  · rintro ⟨⟨q, ⟨inQ, -⟩, same⟩, -⟩
    exact ⟨q, inQ, same⟩
  · rintro ⟨q, inQ, same, isOpen⟩
    have kept := open_ q inQ isOpen
    exact ⟨⟨q, ⟨inQ, kept⟩, same, isOpen⟩, byTxhash q r same ▸ kept⟩

theorem cleanup_filterMap_cleanup (txhash : ∀ r q, change r = some q → q.txhash = r.txhash)
    (completed : ∀ r q, change r = some q → r.status = .completed → q.status = .completed) :
    cleanup ((cleanup records).filterMap change) = cleanup (records.filterMap change) := by
  let alive : Record → Bool := fun r => records.any fun q =>
    q.txhash = r.txhash && q.status ≠ .completed
  have byTxhash (r q : Record) (same : r.txhash = q.txhash) : alive r = alive q := by
    simp [alive, same]
  have moved : (cleanup records).filterMap change = (records.filterMap change).filter alive := by
    rw [cleanup, filterMap_filter, filter_filterMap]
    apply filterMap_congr
    intro r _
    cases changed : change r with
    | none => simp
    | some q => simp [Option.filter, alive, txhash r q changed]
  rw [moved]
  apply cleanup_filter byTxhash
  intro q mem isOpen
  obtain ⟨r, inR, changed⟩ := mem_filterMap.mp mem
  have ne : r.status ≠ .completed := fun isOver => isOpen (completed r q changed isOver)
  simp only [alive, any_eq_true, Bool.and_eq_true, decide_eq_true_eq]
  exact ⟨r, inR, (txhash r q changed).symm, ne⟩

end Cleanup

def step (records : List Record) : Call → List Record
  | .receivedInv peer gtxid preferred reqtime =>
    if records.any (Record.isOf peer gtxid.hash) then records
    else records ++ [⟨⟨gtxid.hash, peer, preferred, gtxid.isWtxid⟩, .candidate reqtime⟩]
  | .requestedTx peer txhash expiry =>
    if records.any fun r => r.isOf peer txhash && r.isCandidate then
      records.map fun r =>
        if r.isOf peer txhash then r.setStatus (.requested expiry)
        else if r.txhash = txhash && r.isRequested then r.setStatus .completed
        else r
    else records
  | .receivedResponse peer txhash => complete (Record.isOf peer txhash) records
  | .forgetTxHash txhash => records.filter (·.txhash ≠ txhash)
  | .disconnectedPeer peer => cleanup (records.filter (·.peer ≠ peer))
  | .getRequestable _ now => complete (Record.isExpired now) records

section Selection

variable (sipHash : Uint256 → NodeId → UInt64)

/-- Whether the record could be requested now: it is ready, and its txhash is not requested. -/
def eligible (now : Int) (records : List Record) (record : Record) : Bool :=
  record.isReady now && !records.any fun r => r.txhash = record.txhash && r.isRequested

/-- Whether no record of the same txhash that could be requested has a higher priority. -/
def isBest (now : Int) (records : List Record) (record : Record) : Bool :=
  eligible now records record &&
    records.all fun r => r.txhash = record.txhash && eligible now records r →
      computePriority sipHash r.toSource ≤ computePriority sipHash record.toSource

/-- A best record of every txhash that can be requested, in announcement order. -/
structure Selection (now : Int) (records selected : List Record) : Prop where
  sublist : selected.Sublist (records.filter (isBest sipHash now records))
  once : (selected.map (·.txhash)).Nodup
  all : ∀ r ∈ records, eligible now records r → ∃ s ∈ selected, s.txhash = r.txhash

/-- Without ties of priority the selection is determined. -/
theorem Selection.eq_of_nodup (selection : Selection sipHash now records sel)
    (noTies : ((records.filter (isBest sipHash now records)).map (·.txhash)).Nodup) :
    sel = records.filter (isBest sipHash now records) := by
  apply selection.sublist.eq_of_length_le
  have covered : (records.filter (isBest sipHash now records)).map (·.txhash) ⊆
      sel.map (·.txhash) := ?_
  · simpa using (subperm_of_subset noTies covered).length_le
  intro txhash mem
  obtain ⟨r, best, rfl⟩ := mem_map.mp mem
  obtain ⟨inRecords, best⟩ := mem_filter.mp best
  obtain ⟨s, inSelected, same⟩ := selection.all r inRecords (Bool.and_eq_true_iff.mp best).1
  exact mem_map.mpr ⟨s, inSelected, same⟩

/-- What a call may return: the requestable transactions, compared by `same`, and the
    requests that have expired, in any order. -/
def Returns (same : List GenTxid → List GenTxid → Prop) (records : List Record) (call : Call)
    (requestable : List GenTxid) (expired : List (NodeId × GenTxid)) : Prop :=
  match call with
  | .getRequestable peer now =>
    (∃ selected, Selection sipHash now (step records call) selected ∧
      same requestable ((selected.filter (·.peer = peer)).map (·.toGenTxid))) ∧
    expired.Perm ((records.filter (·.isExpired now)).map fun r => (r.peer, r.toGenTxid))
  | _ => requestable = [] ∧ expired = []

structure Counts (records : List Record) (results : Results) : Prop where
  inFlight : ∀ peer, results.inFlight peer = records.countP fun r => r.peer = peer && r.isRequested
  candidates : ∀ peer,
    results.candidates peer = records.countP fun r => r.peer = peer && r.isCandidate
  total : ∀ peer, results.total peer = records.countP (·.peer = peer)
  size : results.size = records.length

/-- The answers to a call that the specification allows. -/
def Answers (same : List GenTxid → List GenTxid → Prop) (records : List Record) (call : Call)
    (results : Results) : Prop :=
  Returns sipHash same records call results.requestable results.expired ∧
    Counts (step records call) results

/-- Every call is answered as the specification allows. -/
def Agrees (same : List GenTxid → List GenTxid → Prop) :
    List Record → List Call → List Results → Prop
  | _, [], results => results = []
  | _, _ :: _, [] => False
  | records, call :: calls, result :: results =>
    Answers sipHash same records call result ∧ Agrees same (step records call) calls results

end Selection

/-- The number of announcements that the calls add. -/
def announced : List Record → List Call → Nat
  | _, [] => 0
  | records, call :: calls =>
    ((step records call).length - records.length) + announced (step records call) calls

end Naive

end HobbyHash.TxRequest
