import HobbyHash.TxRequest.Disconnect

/-! # The tracker refines its specification

Runs of the tracker, from any sequence of calls with a clock that may go backwards. The
announcements without their marks are the records of the specification after the same
calls, and every answer is one that the specification allows. The requestable
transactions come in announcement order until the sequence numbers run out.
-/

namespace HobbyHash.TxRequest

open Machine Library Naive List

variable {remaining : List Announcement}

section Run

variable {sipHash : Uint256 → NodeId → UInt64} (views : Views sipHash)

def call (tracker : Tracker) :
    Call → Except Fault (List GenTxid × List (NodeId × GenTxid) × Tracker)
  | .receivedInv peer gtxid preferred reqtime =>
    return ([], [], receivedInv tracker peer gtxid preferred reqtime)
  | .requestedTx peer txhash expiry => return ([], [], ← requestedTx views tracker peer txhash expiry)
  | .receivedResponse peer txhash => return ([], [], ← receivedResponse views tracker peer txhash)
  | .forgetTxHash txhash => return ([], [], ← forgetTxHash views tracker txhash)
  | .disconnectedPeer peer => return ([], [], ← disconnectedPeer views tracker peer)
  | .getRequestable peer now => getRequestable views tracker peer now

def report (requestable : List GenTxid) (expired : List (NodeId × GenTxid)) (tracker : Tracker) :
    Results :=
  ⟨requestable, expired, countInFlight tracker, countCandidates tracker, count tracker,
    size tracker⟩

def run (tracker : Tracker) : List Call → Except Fault (List Results × Tracker)
  | [] => .ok ([], tracker)
  | first :: rest => do
    let (requestable, expired, tracker') ← call views tracker first
    let (results, last) ← run tracker' rest
    return (report requestable expired tracker' :: results, last)

end Run

section Counts

variable {index : List Announcement} {sequence revision : Nat} (peer : NodeId)

theorem countP_forget {p : Record → Bool} {q : Announcement → Bool} (same : ∀ a, p a.forget = q a) :
    (index.map (·.forget)).countP (fun r => r.peer = peer && p r) =
      index.countP fun a => a.peer = peer && q a := by
  rw [countP_map]
  apply countP_congr
  intro a _
  rw [Function.comp_apply, same]
  exact Iff.rfl

theorem peerinfo_holding (f : PeerInfo → Nat)
    (zero : (tally index peer).total = 0 → f (tally index peer) = 0) :
    (match recomputePeerInfo index peer with | some info => f info | none => 0) =
      f (tally index peer) := by
  rw [recomputePeerInfo]
  by_cases empty : (tally index peer).total = 0
  · rw [if_pos empty, zero empty]
  · rw [if_neg empty]

end Counts

section Simulation

variable {sipHash : Uint256 → NodeId → UInt64} (views : Views sipHash)

/-- The tracker stands for the records after so many announcements. -/
structure Simulates (sipHash : Uint256 → NodeId → UInt64) (announced : Nat) (tracker : Tracker)
    (records : List Record) : Prop where
  counted : tracker.peerinfo = recomputePeerInfo tracker.index
  sane : Sane sipHash tracker.index
  records : tracker.index.map (·.forget) = records
  sequence : tracker.currentSequence = announced % 2 ^ 64
  ordered : announced ≤ 2 ^ 59 → (tracker.index.map (·.sequence)).Pairwise (· < ·) ∧
    ∀ a ∈ tracker.index, a.sequence < announced

theorem simulates_empty : Simulates sipHash 0 Tracker.empty [] where
  counted := by rfl
  sane := ⟨nodup_nil, fun _ => .inl fun _ inA => absurd inA not_mem_nil,
      fun _ inA => absurd inA not_mem_nil⟩
  records := by rfl
  sequence := by rfl
  ordered := fun _ => ⟨.nil, fun _ inA => absurd inA not_mem_nil⟩

variable {announced : Nat} {tracker : Tracker} {records : List Record} {bad : Fault → Prop}

section

variable (simulates : Simulates sipHash announced tracker records)
include simulates

theorem Simulates.holding_eq :
    holding tracker.currentSequence tracker.revision tracker.index = tracker := by
  rw [holding, ← simulates.counted]

theorem Simulates.of_sublist {after records'} (sane : Sane sipHash remaining)
    (eq : remaining.map (·.forget) = records')
    (ordered : (remaining.map (·.sequence)).Sublist (tracker.index.map (·.sequence))) :
    Simulates sipHash announced (holding tracker.currentSequence after remaining) records' where
  counted := by rfl
  sane := sane
  records := eq
  sequence := simulates.sequence
  ordered := by
    intro few
    obtain ⟨mono, lt⟩ := simulates.ordered few
    refine ⟨mono.sublist ordered, ?_⟩
    intro a inA
    have inOld := ordered.mem (mem_map.mpr ⟨a, inA, rfl⟩)
    obtain ⟨b, inB, eq⟩ := mem_map.mp inOld
    exact eq ▸ lt b inB

theorem Simulates.counts (requestable : List GenTxid) (expired : List (NodeId × GenTxid)) :
    Counts records (report requestable expired tracker) := by
  rw [← simulates.records, ← simulates.holding_eq]
  constructor
  case inFlight =>
    intro peer
    rw [countP_forget peer fun a => Bool.eq_iff_iff.mpr (forget_isRequested.trans decide_eq_true_iff.symm)]
    exact @peerinfo_holding tracker.index peer (·.requested) fun none => tally_eq_zero none _
  case candidates =>
    intro peer
    have parts : (tally tracker.index peer).total =
        (tracker.index.map (·.forget)).countP (fun r => r.peer = peer && r.isCandidate) +
          (tally tracker.index peer).requested + (tally tracker.index peer).completed := by
      rw [countP_forget peer fun a => rfl]
      simp only [tally]
      induction tracker.index with
      | nil => rfl
      | cons a index ih =>
        simp only [countP_cons, ih]
        by_cases ofPeer : a.peer = peer
        · cases state : a.state <;>
            simp [ofPeer, Announcement.forget, Record.isCandidate, state] <;> omega
        · simp [ofPeer]
    refine (@peerinfo_holding tracker.index peer
      (fun info => info.total - info.requested - info.completed) fun none => ?_).trans ?_
    · omega
    · dsimp only [holding]
      omega
  case total =>
    intro peer
    rw [countP_map]
    exact @peerinfo_holding tracker.index peer (·.total) id
  case size => exact (length_map _).symm

end

structure Follows (sipHash : Uint256 → NodeId → UInt64) (announced : Nat) (records : List Record)
    (request : Call) (requestable : List GenTxid) (expired : List (NodeId × GenTxid))
    (tracker : Tracker) : Prop where
  simulates : Simulates sipHash
    (announced + ((step records request).length - records.length)) tracker (step records request)
  returns : Returns sipHash List.Perm records request requestable expired
  ordered : announced ≤ 2 ^ 59 → Returns sipHash Eq records request requestable expired

theorem length_cleanup_le (records : List Record) : (cleanup records).length ≤ records.length :=
  length_filter_le _ _

variable (simulates : Simulates sipHash announced tracker records)
include simulates

theorem Simulates.receivedInv (peer : NodeId) (gtxid : GenTxid) (preferred : Bool) (reqtime : Int) :
    Follows sipHash announced records (.receivedInv peer gtxid preferred reqtime) [] []
      (TxRequest.receivedInv tracker peer gtxid preferred reqtime) := by
  obtain ⟨next, after, added, run, sane, same, kind⟩ := @receivedInv_holding _ _
    tracker.currentSequence tracker.revision simulates.sane peer gtxid preferred reqtime
  rw [simulates.holding_eq] at run
  rw [simulates.records] at same
  have grown : (step records (.receivedInv peer gtxid preferred reqtime)).length - records.length =
      added.length := by
    rw [← same, ← simulates.records, length_map, length_map, length_append]
    omega
  refine ⟨?_, ⟨rfl, rfl⟩, fun _ => ⟨rfl, rfl⟩⟩
  rw [run, grown]
  rcases kind with ⟨rfl, rfl⟩ | ⟨numbered, rfl⟩
  · rw [append_nil] at sane same ⊢
    exact simulates.of_sublist sane same (.refl _)
  have single : added.length = 1 := by
    have lengths := congrArg length numbered
    rwa [length_map] at lengths
  rw [single]
  constructor
  case counted => rfl
  case sane => exact sane
  case records => exact same
  case sequence =>
    have next := Nat.mod_add_mod announced (2 ^ 64) 1
    rwa [← simulates.sequence] at next
  case ordered =>
    intro few
    obtain ⟨mono, lt⟩ := simulates.ordered (by omega)
    -- No wrap so far: the new sequence number is the number of announcements.
    have number : tracker.currentSequence % 2 ^ 59 = announced := by
      rw [simulates.sequence]
      omega
    rw [number] at numbered
    have isNew (a : Announcement) (inA : a ∈ added) : a.sequence = announced := by
      have mem : a.sequence ∈ added.map (·.sequence) := mem_map.mpr ⟨a, inA, rfl⟩
      rw [numbered] at mem
      exact mem_singleton.mp mem
    constructor
    · rw [holding, map_append, numbered, pairwise_append]
      refine ⟨mono, pairwise_singleton _ _, ?_⟩
      intro old inOld new inNew
      obtain ⟨a, inA, rfl⟩ := mem_map.mp inOld
      rw [mem_singleton.mp inNew]
      exact lt a inA
    · intro a inA
      rcases mem_append.mp inA with old | new
      · exact Nat.lt_succ_of_lt (lt a old)
      · rw [isNew a new]
        exact Nat.lt_succ_self _

theorem Simulates.follows {request : Call} {after : Nat}
    (returns : ∀ eq, Returns sipHash eq records request [] [])
    (le : (step records request).length ≤ records.length) (sane : Sane sipHash remaining)
    (eq : remaining.map (·.forget) = step records request)
    (ordered : (remaining.map (·.sequence)).Sublist (tracker.index.map (·.sequence))) :
    Follows sipHash announced records request [] []
      (holding tracker.currentSequence after remaining) where
  simulates := by
    rw [Nat.sub_eq_zero_of_le le, Nat.add_zero]
    exact simulates.of_sublist sane eq ordered
  returns := returns _
  ordered := fun _ => returns _

theorem Simulates.call (request : Call) :
    Ensures bad (call views tracker request) fun answer =>
      Follows sipHash announced records request answer.1 answer.2.1 answer.2.2 := by
  rw [← simulates.holding_eq]
  cases request with
  | receivedInv peer gtxid preferred reqtime =>
    rw [simulates.holding_eq]
    exact .pure (simulates.receivedInv peer gtxid preferred reqtime)
  | requestedTx peer txhash expiry =>
    refine (requestedTx_spec views simulates.sane peer txhash expiry).bind ?_
    rintro _ ⟨after, remaining, rfl, requests⟩
    refine .pure (simulates.follows (fun _ => ⟨rfl, rfl⟩) ?_ requests.sane ?_ ?_)
    · rw [step]
      split
      · simp
      · exact le_rfl
    · rw [requests.records, simulates.records]
    · rw [requests.ordered]
  | receivedResponse peer txhash =>
    refine (receivedResponse_spec views simulates.sane peer txhash).bind ?_
    rintro _ ⟨after, remaining, rfl, sane, eq, ordered⟩
    rw [simulates.records] at eq
    exact .pure (simulates.follows (fun _ => ⟨rfl, rfl⟩)
      ((length_cleanup_le _).trans (length_map _).le) sane eq ordered)
  | forgetTxHash txhash =>
    refine (forgetTxHash_spec views simulates.sane txhash).bind ?_
    rintro _ ⟨after, _, rfl, rfl⟩
    refine .pure (simulates.follows (fun _ => ⟨rfl, rfl⟩) (length_filter_le _ _)
      (simulates.sane.forget txhash) ?_ (filter_sublist.map _))
    rw [step, ← simulates.records, filter_map]
    rfl
  | disconnectedPeer peer =>
    refine (disconnectedPeer_spec views simulates.sane peer).bind ?_
    rintro _ ⟨after, remaining, rfl, disconnects⟩
    refine .pure (simulates.follows (fun _ => ⟨rfl, rfl⟩)
      ((length_cleanup_le _).trans (length_filter_le _ _)) disconnects.sane ?_ disconnects.ordered)
    rw [disconnects.records, simulates.records]
  | getRequestable peer now =>
    refine (getRequestable_spec views simulates.sane peer now).mono ?_
    rintro ⟨requestable, expired, _⟩
      ⟨after, remaining, rfl, expires, sel, selection, perm, ordered⟩
    have eq : remaining.map (·.forget) = step records (.getRequestable peer now) := by
      rw [expires.records, simulates.records, step]
    rw [eq] at selection
    have reported : expired.Perm
        ((records.filter (·.isExpired now)).map fun r => (r.peer, r.toGenTxid)) := by
      have overdue : (tracker.index.filter (isOverdue now)).map TxRequest.request =
          (records.filter (·.isExpired now)).map fun r => (r.peer, r.toGenTxid) := by
        rw [← simulates.records, filter_map, map_map]
        have alike : ∀ a ∈ tracker.index, isOverdue now a =
            ((fun r : Record => r.isExpired now) ∘ fun a => a.forget) a := by
          intro a _
          rw [Bool.eq_iff_iff, Function.comp_apply, forget_isExpired]
          simp [isOverdue]
        rw [filter_congr alike]
        rfl
      rw [← overdue]
      exact expires.reported
    constructor
    case simulates =>
      have le : (step records (.getRequestable peer now)).length ≤ records.length :=
        (length_cleanup_le _).trans (length_map _).le
      rw [Nat.sub_eq_zero_of_le le, Nat.add_zero]
      exact simulates.of_sublist expires.sane eq expires.ordered
    case returns => exact ⟨⟨sel, selection, perm⟩, reported⟩
    case ordered =>
      intro few
      exact ⟨⟨sel, selection, ordered (simulates.ordered few).1⟩, reported⟩

theorem run_spec (calls : List Call) :
    Ensures bad (run views tracker calls) fun done =>
      Simulates sipHash (announced + Naive.announced records calls) done.2
        (calls.foldl step records) ∧
      Agrees sipHash List.Perm records calls done.1 ∧
      (announced + Naive.announced records calls ≤ 2 ^ 59 →
        Agrees sipHash Eq records calls done.1) := by
  induction calls generalizing announced tracker records with
  | nil => exact .pure ⟨simulates, rfl, fun _ => rfl⟩
  | cons first rest ih =>
    refine (simulates.call views first).bind fun ⟨requestable, expired, middle⟩ follows => ?_
    refine (ih follows.simulates).bind fun ⟨results, after⟩ ⟨simulates', agrees, ordered⟩ => ?_
    have counts := follows.simulates.counts requestable expired
    rw [Naive.announced, ← Nat.add_assoc]
    refine .pure ⟨simulates', ⟨⟨follows.returns, counts⟩, agrees⟩, fun few => ?_⟩
    refine ⟨⟨follows.ordered ?_, counts⟩, ordered few⟩
    omega

theorem run_simulates (calls : List Call) :
    ∃ results after,
      run views tracker calls = .ok (results, after) ∧
      Simulates sipHash (announced + Naive.announced records calls) after
        (calls.foldl step records) ∧
      Agrees sipHash List.Perm records calls results ∧
      (announced + Naive.announced records calls ≤ 2 ^ 59 →
        Agrees sipHash Eq records calls results) := by
  obtain ⟨⟨results, after⟩, runs, spec⟩ :=
    (run_spec views simulates calls).exists_ok fun _ => trivial
  exact ⟨results, after, runs, spec⟩

end Simulation

end HobbyHash.TxRequest
