import HobbyHash.TxRequest.Refinement

/-! # Requests of obedient callers

A caller that requests only what `GetRequestable` returned. It keeps a ledger of what it
was advised to request and of the requests that are outstanding. Then no txhash is
requested from two peers at the same time, none before its reqtime, and none again from
a peer that still has its announcement.
-/

namespace HobbyHash.TxRequest

open Machine Library Naive List Record

/-- What a caller knows of its own requests. The clock is that of the last
    `GetRequestable`. -/
structure Ledger where
  advised : List (NodeId × Uint256)
  outstanding : List (NodeId × Uint256)
  now : Option Int

def Ledger.empty : Ledger := ⟨[], [], none⟩

/-- The ledger after a call. Advice is replaced by new advice and lasts until it is used or
    its announcement is answered or forgotten. A request is outstanding until it is
    answered, expired or forgotten. -/
def Ledger.note (ledger : Ledger) (results : Results) : Call → Ledger
  | .receivedInv _ _ _ _ => ledger
  | .requestedTx peer txhash _ =>
    { ledger with
      advised := ledger.advised.filter (· ≠ (peer, txhash))
      outstanding := (peer, txhash) :: ledger.outstanding }
  | .receivedResponse peer txhash =>
    { ledger with
      advised := ledger.advised.filter (· ≠ (peer, txhash))
      outstanding := ledger.outstanding.filter (· ≠ (peer, txhash)) }
  | .forgetTxHash txhash =>
    { ledger with
      advised := ledger.advised.filter (·.2 ≠ txhash)
      outstanding := ledger.outstanding.filter (·.2 ≠ txhash) }
  | .disconnectedPeer peer =>
    { ledger with
      advised := ledger.advised.filter (·.1 ≠ peer)
      outstanding := ledger.outstanding.filter (·.1 ≠ peer) }
  | .getRequestable peer now =>
    { advised := results.requestable.map fun gtxid => (peer, gtxid.hash)
      outstanding := ledger.outstanding.filter
        (· ∉ results.expired.map fun expired => (expired.1, expired.2.hash))
      now := some now }

def Ledger.noteAll (ledger : Ledger) : List Call → List Results → Ledger
  | call :: calls, result :: results => (ledger.note result call).noteAll calls results
  | _, _ => ledger

/-- A caller that requests only what it was advised to request. -/
def Obedient : Ledger → List Call → List Results → Prop
  | ledger, call :: calls, result :: results =>
    (match call with
      | .requestedTx peer txhash _ => (peer, txhash) ∈ ledger.advised
      | _ => True) ∧ Obedient (ledger.note result call) calls results
  | _, _, _ => True

section Records

variable {records : List Record} {which : Record → Bool} {r : Record} {peer : NodeId}
  {txhash : Uint256}

theorem mem_cleanup_of_open (mem : r ∈ records) (ne : r.status ≠ .completed) :
    r ∈ cleanup records :=
  mem_cleanup.mpr ⟨mem, r, mem, rfl, ne⟩

theorem mem_complete_of_open (mem : r ∈ records) (other : ¬which r)
    (ne : r.status ≠ .completed) : r ∈ complete which records := by
  apply mem_cleanup_of_open _ ne
  exact mem_map.mpr ⟨r, mem, if_neg other⟩

theorem of_mem_complete (mem : r ∈ complete which records) (ne : r.status ≠ .completed) :
    r ∈ records ∧ ¬which r := by
  obtain ⟨q, inQ, same⟩ := mem_map.mp (mem_cleanup.mp mem).1
  by_cases chosen : which q
  · rw [if_pos chosen] at same
    rw [← same] at ne
    exact absurd rfl ne
  · rw [if_neg chosen] at same
    exact same ▸ ⟨inQ, chosen⟩

theorem open_of_isRequested (requested : r.isRequested) : r.status ≠ .completed := by
  intro completed
  simp [isRequested, completed] at requested

theorem open_of_isCandidate (cand : r.isCandidate) : r.status ≠ .completed := by
  intro completed
  simp [isCandidate, completed] at cand

theorem isOf_iff : r.isOf peer txhash = true ↔ r.peer = peer ∧ r.txhash = txhash := by
  simp [isOf]

end Records

/-- Every outstanding request is a requested record, and all advice is for a candidate whose
    reqtime has passed, of a txhash that is not requested. -/
structure Fair (ledger : Ledger) (records : List Record) : Prop where
  outstandingOnce : ledger.outstanding.Nodup
  outstanding : ∀ slot ∈ ledger.outstanding, ∃ r ∈ records, r.isOf slot.1 slot.2 ∧ r.isRequested
  advisedOnce : (ledger.advised.map Prod.snd).Nodup
  advised : ∀ slot ∈ ledger.advised,
    (∃ r ∈ records, r.isOf slot.1 slot.2 ∧ ∃ now, ledger.now = some now ∧ r.isReady now) ∧
    ∀ q ∈ records, q.txhash = slot.2 → ¬q.isRequested

theorem fair_empty : Fair Ledger.empty [] :=
  ⟨nodup_nil, by simp [Ledger.empty], nodup_nil, by simp [Ledger.empty]⟩

section Fair

variable {sipHash : Uint256 → NodeId → UInt64} {ledger : Ledger} {records : List Record}

theorem isCandidate_of_isReady {r : Record} (ready : r.isReady now) : r.isCandidate := by
  cases status : r.status <;> simp_all [isReady, isCandidate]

variable (fair : Fair ledger records)
include fair

/-- What is kept in the ledger is of records that are left. -/
theorem Fair.discard (keep : NodeId × Uint256 → Bool) {records' : List Record}
    (keeps : ∀ slot, keep slot → ∀ r ∈ records, r.isOf slot.1 slot.2 → r.status ≠ .completed →
      r ∈ records')
    (fewer : ∀ r ∈ records', r.isRequested → r ∈ records) :
    Fair ⟨ledger.advised.filter keep, ledger.outstanding.filter keep, ledger.now⟩ records' where
  outstandingOnce := fair.outstandingOnce.filter _
  outstanding := by
    intro slot inSlot
    obtain ⟨old, kept⟩ := mem_filter.mp inSlot
    obtain ⟨r, inR, of, requested⟩ := fair.outstanding slot old
    exact ⟨r, keeps slot kept r inR of (open_of_isRequested requested), of, requested⟩
  advisedOnce := fair.advisedOnce.sublist (filter_sublist.map _)
  advised := by
    intro slot inSlot
    obtain ⟨old, kept⟩ := mem_filter.mp inSlot
    obtain ⟨⟨r, inR, of, clock, isClock, ready⟩, free⟩ := fair.advised slot old
    have open_ := open_of_isCandidate (isCandidate_of_isReady ready)
    refine ⟨⟨r, keeps slot kept r inR of open_, of, clock, isClock, ready⟩, ?_⟩
    exact fun q inQ same requested => free q (fewer q inQ requested) same requested

theorem Fair.receivedInv (peer : NodeId) (gtxid : GenTxid) (preferred : Bool) (reqtime : Int) :
    Fair ledger (step records (.receivedInv peer gtxid preferred reqtime)) := by
  have all := @Fair.discard _ _ fair (fun _ => true)
    (step records (.receivedInv peer gtxid preferred reqtime)) (fun _ _ r inR _ _ => ?_) ?_
  · simpa only [filter_true] using all
  · rw [step]
    split
    · exact inR
    · exact mem_append_left _ inR
  intro r inR requested
  rw [step] at inR
  split at inR
  · exact inR
  · rcases mem_append.mp inR with old | new
    · exact old
    · rw [mem_singleton.mp new] at requested
      simp [isRequested] at requested

variable (results : Results)

theorem Fair.receivedResponse (peer : NodeId) (txhash : Uint256) :
    Fair (ledger.note results (.receivedResponse peer txhash))
      (step records (.receivedResponse peer txhash)) := by
  apply fair.discard
  · intro slot other r inR of open_
    apply mem_complete_of_open inR _ open_
    rw [isOf_iff] at of ⊢
    rintro ⟨rfl, rfl⟩
    exact of_decide_eq_true other (Prod.ext of.1.symm of.2.symm)
  · exact fun r inR requested => (of_mem_complete inR (open_of_isRequested requested)).1

theorem Fair.forgetTxHash (txhash : Uint256) :
    Fair (ledger.note results (.forgetTxHash txhash)) (step records (.forgetTxHash txhash)) := by
  apply fair.discard
  · intro slot other r inR of _
    have other := (isOf_iff.mp of).2.trans_ne (of_decide_eq_true other)
    exact mem_filter.mpr ⟨inR, decide_eq_true other⟩
  · exact fun r inR _ => (mem_filter.mp inR).1

theorem Fair.disconnectedPeer (peer : NodeId) :
    Fair (ledger.note results (.disconnectedPeer peer))
    (step records (.disconnectedPeer peer)) := by
  apply fair.discard
  · intro slot other r inR of open_
    apply mem_cleanup_of_open _ open_
    have other := (isOf_iff.mp of).1.trans_ne (of_decide_eq_true other)
    exact mem_filter.mpr ⟨inR, decide_eq_true other⟩
  · exact fun r inR _ => (mem_filter.mp (mem_cleanup.mp inR).1).1

/-- New advice is for the best records, and the requests that expired are over. -/
theorem Fair.getRequestable {results : Results} {peer now}
    (returns : Returns sipHash List.Perm records (.getRequestable peer now) results.requestable
      results.expired) :
    Fair (ledger.note results (.getRequestable peer now))
      (step records (.getRequestable peer now)) := by
  obtain ⟨⟨sel, selection, perm⟩, reported⟩ := returns
  have slots : (ledger.note results (.getRequestable peer now)).advised.Perm
      ((sel.filter (·.peer = peer)).map fun r => (peer, r.txhash)) := by
    have mapped := perm.map fun gtxid => (peer, gtxid.hash)
    rwa [map_map] at mapped
  constructor
  case outstandingOnce => exact fair.outstandingOnce.sublist filter_sublist
  case outstanding =>
    intro slot inSlot
    obtain ⟨inOld, notExpired⟩ := mem_filter.mp inSlot
    obtain ⟨r, inR, of, requested⟩ := fair.outstanding slot inOld
    refine ⟨r, mem_complete_of_open inR ?_ (open_of_isRequested requested), of, requested⟩
    intro expired
    apply of_decide_eq_true notExpired
    have mem : (r.peer, r.toGenTxid) ∈ results.expired :=
      reported.mem_iff.mpr (mem_map.mpr ⟨r, mem_filter.mpr ⟨inR, expired⟩, rfl⟩)
    have of := isOf_iff.mp of
    exact mem_map.mpr ⟨_, mem, Prod.ext of.1 of.2⟩
  case advisedOnce =>
    have once : ((sel.filter (·.peer = peer)).map (·.txhash)).Nodup :=
      selection.once.sublist (filter_sublist.map _)
    have hashes := (slots.map Prod.snd)
    rw [map_map] at hashes
    exact hashes.nodup_iff.mpr once
  case advised =>
    intro slot inSlot
    obtain ⟨r, inR, rfl⟩ := mem_map.mp (slots.mem_iff.mp inSlot)
    obtain ⟨inR, ofPeer⟩ := mem_filter.mp inR
    obtain ⟨inRecords, best⟩ := mem_filter.mp (selection.sublist.mem inR)
    rw [isBest, Bool.and_eq_true, eligible, Bool.and_eq_true, Bool.not_eq_true'] at best
    refine ⟨⟨r, inRecords, isOf_iff.mpr ⟨of_decide_eq_true ofPeer, rfl⟩, now, rfl, best.1.1⟩, ?_⟩
    intro q inQ same requested
    have none := any_eq_false.mp best.1.2 q inQ
    exact none (Bool.and_eq_true_iff.mpr ⟨decide_eq_true same, requested⟩)

theorem Fair.requestedTx (expiry : Int) (advised : (peer, txhash) ∈ ledger.advised) :
    Fair (ledger.note results (.requestedTx peer txhash expiry))
      (step records (.requestedTx peer txhash expiry)) := by
  obtain ⟨⟨r, inR, of, clock, isClock, ready⟩, free⟩ := fair.advised _ advised
  have cand := isCandidate_of_isReady ready
  have known : records.any (fun r => r.isOf peer txhash && r.isCandidate) = true :=
    any_eq_true.mpr ⟨r, inR, Bool.and_eq_true_iff.mpr ⟨of, cand⟩⟩
  have others (q : Record) (inQ : q ∈ records) (other : ¬q.isOf peer txhash) :
      (if q.isOf peer txhash then q.setStatus (.requested expiry)
        else if q.txhash = txhash && q.isRequested then q.setStatus .completed else q) = q := by
    have notHere : ¬(decide (q.txhash = txhash) && q.isRequested) = true := by
      intro both
      rw [Bool.and_eq_true, decide_eq_true_iff] at both
      exact free q inQ both.1 both.2
    rw [if_neg other, if_neg notHere]
  have otherHash (q : Record) (other : q.txhash ≠ txhash) : ¬q.isOf peer txhash :=
    fun isOf => other (isOf_iff.mp isOf).2
  have stays (q : Record) (inQ : q ∈ records) (other : q.txhash ≠ txhash) :
      q ∈ step records (.requestedTx peer txhash expiry) := by
    rw [step, if_pos known]
    exact mem_map.mpr ⟨q, inQ, others q inQ (otherHash q other)⟩
  constructor
  case outstandingOnce =>
    refine nodup_cons.mpr ⟨?_, fair.outstandingOnce⟩
    intro already
    obtain ⟨q, inQ, ofQ, requested⟩ := fair.outstanding _ already
    exact free q inQ (isOf_iff.mp ofQ).2 requested
  case outstanding =>
    intro slot inSlot
    rcases mem_cons.mp inSlot with rfl | old
    · refine ⟨r.setStatus (.requested expiry), ?_, isOf_iff.mpr (isOf_iff.mp of), rfl⟩
      rw [step, if_pos known]
      exact mem_map.mpr ⟨r, inR, if_pos of⟩
    · obtain ⟨q, inQ, ofQ, requested⟩ := fair.outstanding slot old
      exact ⟨q, stays q inQ fun same => free q inQ same requested, ofQ, requested⟩
  case advisedOnce => exact fair.advisedOnce.sublist (filter_sublist.map _)
  case advised =>
    intro slot inSlot
    obtain ⟨old, ne⟩ := mem_filter.mp inSlot
    have other : slot.2 ≠ txhash := fun same =>
      of_decide_eq_true ne (inj_on_of_nodup_map fair.advisedOnce old advised same)
    obtain ⟨⟨q, inQ, ofQ, clock, isClock, ready⟩, freeQ⟩ := fair.advised slot old
    refine ⟨⟨q, stays q inQ ((isOf_iff.mp ofQ).2.trans_ne other), ofQ, clock, isClock, ready⟩, ?_⟩
    intro x inX same requested
    rw [step, if_pos known] at inX
    obtain ⟨y, inY, rfl⟩ := mem_map.mp inX
    by_cases here : y.txhash = txhash
    · have hash : (if y.isOf peer txhash then y.setStatus (.requested expiry)
          else if y.txhash = txhash && y.isRequested then y.setStatus .completed else y).txhash =
          txhash := by
        split
        · exact here
        · split
          · exact here
          · exact here
      exact other (same.symm.trans hash)
    · rw [others y inY (otherHash y here)] at same requested
      exact freeQ y inY same requested

theorem Fair.run {calls} {results : List Results}
    (agrees : Agrees sipHash List.Perm records calls results)
    (obedient : Obedient ledger calls results) :
    Fair (ledger.noteAll calls results) (calls.foldl step records) := by
  induction calls generalizing ledger records results with
  | nil => exact fair
  | cons call calls ih =>
    cases results with
    | nil => exact absurd agrees id
    | cons res results =>
      obtain ⟨answers, agrees⟩ := agrees
      obtain ⟨allowed, obedient⟩ := obedient
      apply ih _ agrees obedient
      cases call with
      | receivedInv peer gtxid preferred reqtime =>
        exact fair.receivedInv peer gtxid preferred reqtime
      | requestedTx peer txhash expiry => exact fair.requestedTx res expiry allowed
      | receivedResponse peer txhash => exact fair.receivedResponse res peer txhash
      | forgetTxHash txhash => exact fair.forgetTxHash res txhash
      | disconnectedPeer peer => exact fair.disconnectedPeer res peer
      | getRequestable peer now => exact fair.getRequestable answers.1

end Fair

section Again

variable {records : List Record} {peer : NodeId} {txhash : Uint256}

theorem candidate_requested (inR : r ∈ step records (.requestedTx peer txhash expiry))
    (cand : r.isCandidate) :
    r ∈ records ∧ ¬r.isOf peer txhash := by
  rw [step] at inR
  split at inR
  · obtain ⟨q, inQ, rfl⟩ := mem_map.mp inR
    split at cand
    · simp [isCandidate, setStatus] at cand
    rename_i other
    split at cand
    · simp [isCandidate, setStatus] at cand
    · rename_i notRequested
      rw [if_neg other, if_neg notRequested]
      exact ⟨inQ, other⟩
  · rename_i none
    refine ⟨inR, fun of => none ?_⟩
    exact any_eq_true.mpr ⟨r, inR, Bool.and_eq_true_iff.mpr ⟨of, cand⟩⟩

theorem not_candidate_step (known : ∃ r ∈ records, r.isOf peer txhash)
    (asked : ∀ r ∈ records, r.isOf peer txhash → ¬r.isCandidate) (call : Call) :
    ∀ r ∈ step records call, r.isOf peer txhash → ¬r.isCandidate := by
  intro r inR of cand
  have open_ := open_of_isCandidate cand
  cases call with
  | receivedInv peer' gtxid preferred reqtime =>
    rw [step] at inR
    split at inR
    · exact asked r inR of cand
    rename_i fresh
    rcases mem_append.mp inR with old | new
    · exact asked r old of cand
    obtain ⟨q, inQ, ofQ⟩ := known
    rw [mem_singleton.mp new, isOf_iff] at of
    dsimp only at of
    apply fresh
    rw [any_eq_true]
    exact ⟨q, inQ, by rw [of.1, of.2]; exact ofQ⟩
  | requestedTx peer' txhash' expiry =>
    exact asked r (candidate_requested inR cand).1 of cand
  | receivedResponse peer' txhash' => exact asked r (of_mem_complete inR open_).1 of cand
  | forgetTxHash txhash' => exact asked r (mem_filter.mp inR).1 of cand
  | disconnectedPeer peer' =>
    exact asked r (mem_filter.mp (mem_cleanup.mp inR).1).1 of cand
  | getRequestable peer' now => exact asked r (of_mem_complete inR open_).1 of cand

theorem not_candidate_requested (expiry : Int) :
    ∀ r ∈ step records (.requestedTx peer txhash expiry), r.isOf peer txhash → ¬r.isCandidate := by
  intro r inR of cand
  exact (candidate_requested inR cand).2 of

theorem not_candidate_foldl (calls : List Call)
    (kept : ∀ some_, some_ <+: calls → ∃ r ∈ some_.foldl step records, r.isOf peer txhash)
    (asked : ∀ r ∈ records, r.isOf peer txhash → ¬r.isCandidate) :
    ∀ r ∈ calls.foldl step records, r.isOf peer txhash → ¬r.isCandidate := by
  induction calls generalizing records with
  | nil => exact asked
  | cons call calls ih =>
    apply ih
    · intro some_ lt
      exact kept (call :: some_) (cons_prefix_cons.mpr ⟨rfl, lt⟩)
    · exact not_candidate_step (kept [] nil_prefix) asked call

end Again

section Result

variable {sipHash : Uint256 → NodeId → UInt64}

theorem Sane.requested_once {index} (sane : Sane sipHash index) {r q}
    (inR : r ∈ index.map (·.forget)) (inQ : q ∈ index.map (·.forget)) (eq : r.txhash = q.txhash)
    (requestedR : r.isRequested) (requestedQ : q.isRequested) : r = q := by
  obtain ⟨a, inA, rfl⟩ := mem_map.mp inR
  obtain ⟨b, inB, rfl⟩ := mem_map.mp inQ
  by_contra other
  have ne : a ≠ b := by rintro rfl; exact other rfl
  have sel : b.isSelected := by simp [forget_isRequested.mp requestedQ]
  apply (sane.others_of_selected inB sel inA eq ne).1
  simp [forget_isRequested.mp requestedR]

/-- For every sequence of calls the tracker answers as the specification allows, and the
    requestable transactions come in announcement order for the first `2 ^ 59`
    announcements. It keeps no txhash of which everything is completed. A caller that
    requests only what it is advised to request has at most one outstanding request of
    a txhash, makes none before its reqtime, and none that it made before since the
    announcement was last forgotten. -/
theorem tracker_refines (views : Views sipHash) (calls : List Call) :
    ∃ results tracker,
      run views Tracker.empty calls = .ok (results, tracker) ∧
      Agrees sipHash List.Perm [] calls results ∧
      (announced [] calls ≤ 2 ^ 59 → Agrees sipHash Eq [] calls results) ∧
      (∀ a ∈ tracker.index, ∃ b ∈ tracker.index, b.txhash = a.txhash ∧ b.state ≠ .completed) ∧
      (Obedient Ledger.empty calls results →
        ((Ledger.empty.noteAll calls results).outstanding.map Prod.snd).Nodup ∧
        ∀ slot ∈ (Ledger.empty.noteAll calls results).advised,
          (∃ now, (Ledger.empty.noteAll calls results).now = some now ∧
            ∃ a ∈ tracker.index, a.slot = slot ∧ a.forget.isCandidate ∧ a.time ≤ now) ∧
          ∀ before since expiry,
            calls = before ++ .requestedTx slot.1 slot.2 expiry :: since →
            ∃ some_, some_ <+: since ∧ ∃ results' tracker',
              run views Tracker.empty (before ++ .requestedTx slot.1 slot.2 expiry :: some_) =
                .ok (results', tracker') ∧
              ∀ a ∈ tracker'.index, a.slot ≠ slot) := by
  obtain ⟨results, tracker, runs, simulates, agrees, ordered⟩ :=
    run_simulates views (@simulates_empty sipHash) calls
  refine ⟨results, tracker, runs, agrees, fun few => ordered (by rwa [Nat.zero_add]),
    simulates.sane.alive, ?_⟩
  intro obedient
  have fair := fair_empty.run agrees obedient
  rw [← simulates.records] at fair
  constructor
  · apply List.Nodup.map_on _ fair.outstandingOnce
    intro slot inSlot other inOther same
    obtain ⟨r, inR, ofR, requestedR⟩ := fair.outstanding slot inSlot
    obtain ⟨q, inQ, ofQ, requestedQ⟩ := fair.outstanding other inOther
    have ofR := isOf_iff.mp ofR
    have ofQ := isOf_iff.mp ofQ
    have equal := simulates.sane.requested_once inR inQ (by rw [ofR.2, ofQ.2]; exact same)
      requestedR requestedQ
    exact Prod.ext (ofR.1.symm.trans ((congrArg (·.peer) equal).trans ofQ.1)) same
  · intro slot inSlot
    obtain ⟨⟨r, inR, ofR, now, isNow, ready⟩, -⟩ := fair.advised slot inSlot
    have candidate := isCandidate_of_isReady ready
    constructor
    · obtain ⟨a, inA, rfl⟩ := mem_map.mp inR
      have of := forget_isOf.mp ofR
      refine ⟨now, isNow, a, inA, Prod.ext of.1 of.2, candidate, ?_⟩
      rcases forget_isCandidate.mp candidate with state | state | state <;>
        simpa [Announcement.forget, isReady, state] using ready
    · intro before since expiry whole
      by_contra never
      have kept : ∀ some_, some_ <+: since → ∃ r ∈ some_.foldl step
          (step (before.foldl step []) (.requestedTx slot.1 slot.2 expiry)),
          r.isOf slot.1 slot.2 := by
        intro some_ inside
        obtain ⟨results', tracker', runs', simulates', -⟩ := run_simulates views
          (@simulates_empty sipHash) (before ++ .requestedTx slot.1 slot.2 expiry :: some_)
        have found : ∃ a ∈ tracker'.index, a.slot = slot := by
          by_contra none
          exact never ⟨some_, inside, results', tracker', runs', fun a inA same =>
            none ⟨a, inA, same⟩⟩
        obtain ⟨a, inA, same⟩ := found
        have inRecords : a.forget ∈ tracker'.index.map (·.forget) := mem_map.mpr ⟨a, inA, rfl⟩
        rw [simulates'.records, foldl_append] at inRecords
        refine ⟨a.forget, inRecords, forget_isOf.mpr ?_⟩
        rw [← same]
        exact ⟨rfl, rfl⟩
      have asked := not_candidate_foldl since kept (not_candidate_requested expiry)
      rw [simulates.records, whole, foldl_append] at inR
      exact asked r inR ofR candidate

theorem preferred_of_priority_le {q r : Source}
    (le : computePriority sipHash q ≤ computePriority sipHash r) (first : q.preferred) :
    r.preferred := by
  by_contra second
  rw [computePriority, computePriority, if_pos first, if_neg second] at le
  have le : (sipHash q.txhash q.peer >>> 1).toNat ||| 2 ^ 63 ≤
    (sipHash r.txhash r.peer).toNat >>> 1 ||| 0 := le
  have high := Nat.right_le_or.trans le
  have low := (sipHash r.txhash r.peer).toNat_lt
  rw [Nat.or_zero, Nat.shiftRight_eq_div_pow] at high
  omega

/-- After any calls, what a peer is asked for is requested from nobody, and a peer
    that is not preferred is asked only where no preferred peer is ready. -/
theorem getRequestable_prefers (views : Views sipHash) (calls : List Call) (peer : NodeId)
    (now : Int) :
    ∃ results tracker requestable expired after,
      run views Tracker.empty calls = .ok (results, tracker) ∧
      getRequestable views tracker peer now = .ok (requestable, expired, after) ∧
      ∀ gtxid ∈ requestable, ∃ a ∈ after.index, a.peer = peer ∧ a.toGenTxid = gtxid ∧
        a.forget.isReady now ∧ ∀ b ∈ after.index, b.txhash = a.txhash →
          b.state ≠ .requested ∧ (b.forget.isReady now → b.preferred → a.preferred) := by
  obtain ⟨results, tracker, runs, simulates, -⟩ :=
    run_simulates views (@simulates_empty sipHash) calls
  obtain ⟨⟨requestable, expired, _⟩, ret, _, rest, rfl, -, sel, selection, perm, -⟩ :=
    (getRequestable_spec views simulates.sane peer now).exists_ok fun _ => trivial
  rw [simulates.holding_eq] at ret
  refine ⟨results, tracker, requestable, expired, _, runs, ret, fun gtxid mem => ?_⟩
  obtain ⟨r, inSel, rfl⟩ := mem_map.mp (perm.mem_iff.mp mem)
  obtain ⟨inSel, ofPeer⟩ := mem_filter.mp inSel
  obtain ⟨inRest, best⟩ := mem_filter.mp (selection.sublist.subset inSel)
  obtain ⟨a, inA, rfl⟩ := mem_map.mp inRest
  simp only [isBest, eligible, Bool.and_eq_true, Bool.not_eq_true', any_eq_false, all_eq_true,
    forall_mem_map, decide_eq_true_eq] at best ofPeer
  obtain ⟨⟨ready, free⟩, first⟩ := best
  refine ⟨a, inA, ofPeer, rfl, ready, fun b inB same => ⟨fun requested => ?_, fun readyB => ?_⟩⟩
  · exact free b inB ⟨same, forget_isRequested.mpr requested⟩
  · apply preferred_of_priority_le (first b inB ⟨same, readyB, fun c inC busy => ?_⟩)
    exact free c inC ⟨busy.1.trans same, busy.2⟩

end Result

section Wrap

/-- Equal keys in the order of the container. -/
def sortedViews (sipHash : Uint256 → NodeId → UInt64) : Views sipHash where
  byPeer _ := ⟨List.insertionSort fun a b => byPeerKey a ≤ byPeerKey b,
    fun l => List.perm_insertionSort _ l, fun l => List.pairwise_insertionSort _ l⟩
  byTxHash _ := ⟨List.insertionSort fun a b => byTxHashKey sipHash a ≤ byTxHashKey sipHash b,
    fun l => List.perm_insertionSort _ l, fun l => List.pairwise_insertionSort _ l⟩
  byTime _ := ⟨List.insertionSort fun a b => byTimeKey a ≤ byTimeKey b,
    fun l => List.perm_insertionSort _ l, fun l => List.pairwise_insertionSort _ l⟩

/-- A transaction announced by peer 0 and forgotten, many times. -/
def churn : Nat → List Call
  | 0 => []
  | n + 1 => .receivedInv 0 ⟨false, 0⟩ false 0 :: .forgetTxHash 0 :: churn n

theorem foldl_churn (n : Nat) : (churn n).foldl step [] = [] := by
  induction n with
  | zero => rfl
  | succ n ih => exact ih

variable {sipHash : Uint256 → NodeId → UInt64} {views : Views sipHash}

theorem run_append {results more : List Results}
    (first : run views tracker before = .ok (results, middle))
    (second : run views middle since = .ok (more, last)) :
    run views tracker (before ++ since) = .ok (results ++ more, last) := by
  induction before generalizing tracker results with
  | nil =>
    simp only [run, Except.ok.injEq, Prod.mk.injEq] at first
    rw [← first.1, first.2]
    exact second
  | cons request before ih =>
    obtain ⟨⟨requestable, expired, next⟩, once, rest⟩ := bind_eq_ok.mp first
    obtain ⟨⟨others, final⟩, more, done⟩ := bind_eq_ok.mp rest
    simp only [pure, Except.pure, Except.ok.injEq, Prod.mk.injEq] at done
    rw [done.2] at more
    rw [← done.1, cons_append, cons_append, run, once]
    simp only [ok_bind, ih more]
    rfl

theorem agrees_append {results more : List Results}
    (first : Agrees sipHash List.Perm records before results)
    (agrees : Agrees sipHash same records (before ++ since) (results ++ more)) :
    Agrees sipHash same (before.foldl step records) since more := by
  induction before generalizing records results with
  | nil =>
    rw [Agrees] at first
    subst first
    exact agrees
  | cons request before ih =>
    cases results with
    | nil => exact absurd first id
    | cons res results => exact ih first.2 agrees.2

/-- The tracker after all announcements were forgotten. -/
def drained (sequence revision : Nat) : Tracker := ⟨sequence, [], revision, fun _ => none⟩

theorem run_churn (n sequence revision : Nat) (lt : sequence + n < 2 ^ 64) :
    ∃ results, run (sortedViews fun _ _ => 0) (drained sequence revision) (churn n) =
      .ok (results, drained (sequence + n) (revision + 2 * n)) := by
  induction n generalizing sequence revision with
  | zero => exact ⟨[], rfl⟩
  | succ n ih =>
    obtain ⟨results, rest⟩ := ih (sequence + 1) (revision + 2) (by omega)
    let ann : Announcement := ⟨⟨0, 0, false, false⟩, sequence % 2 ^ 59, 0, .candidateDelayed⟩
    have made : receivedInv (drained sequence revision) 0 ⟨false, 0⟩ false 0 =
        holding (sequence + 1) (revision + 1) [ann] := by
      have counted := @recomputePeerInfo_announce [] ann rfl
      have wraps : (sequence + 1) % 2 ^ 64 = sequence + 1 := Nat.mod_eq_of_lt (by omega)
      rw [holding, ← nil_append [ann], counted, ← wraps]
      rfl
    have found : (OrderedView.from_ (byTxHashKey fun _ _ => 0) (byTxHashView 0 .candidateDelayed 0)
        (byTxHash (sortedViews fun _ _ => 0) (holding (sequence + 1) (revision + 1) [ann]))).takeWhile
        (·.txhash = 0) = [ann] := rfl
    have forgotten : forgetTxHash (sortedViews fun _ _ => 0)
        (holding (sequence + 1) (revision + 1) [ann]) 0 =
        .ok (drained (sequence + 1) (revision + 2)) := by
      simp only [forgetTxHash, found, eraseAll, erase_holding (nodup_singleton ann)
        (mem_singleton_self ann), ok_bind, erase_cons_head]
      rfl
    have last : drained (sequence + 1 + n) (revision + 2 + 2 * n) =
        drained (sequence + (n + 1)) (revision + 2 * (n + 1)) := by
      rw [Nat.add_assoc, Nat.add_comm 1 n, Nat.mul_add, Nat.add_assoc, Nat.add_comm 2 (2 * n)]
    refine ⟨report [] [] (holding (sequence + 1) (revision + 1) [ann]) ::
      report [] [] (drained (sequence + 1) (revision + 2)) :: results, ?_⟩
    rw [last] at rest
    simp only [churn, run, call, made, forgotten, rest, ok_bind, pure, Except.pure]

/-- After `2 ^ 59 - 1` announcements the next two get the sequence numbers `2 ^ 59 - 1` and
    0, and are returned in the wrong order. -/
theorem requestable_order_wraps :
    ∃ calls results tracker,
      run (sortedViews fun _ _ => 0) Tracker.empty calls = .ok (results, tracker) ∧
      ¬Agrees (fun _ _ => 0) Eq [] calls results := by
  let calls : List Call := [.receivedInv 0 ⟨false, 1⟩ false 0,
    .receivedInv 0 ⟨false, 2⟩ false 0, .getRequestable 0 0]
  have order : ((run (sortedViews fun _ _ => 0) (drained (2 ^ 59 - 1) (2 * (2 ^ 59 - 1)))
      calls).toOption.map fun answer => answer.1.map (·.requestable)) =
      some [[], [], [⟨false, 2⟩, ⟨false, 1⟩]] := by
    decide +kernel
  obtain ⟨⟨more, last⟩, more_, lists⟩ := Option.map_eq_some_iff.mp order
  have runsMore := toOption_eq_some.mp more_
  obtain ⟨results, runs⟩ := run_churn (2 ^ 59 - 1) 0 0 (by decide)
  rw [Nat.zero_add, Nat.zero_add] at runs
  obtain ⟨results', tracker, runs', -, agrees, -⟩ :=
    run_simulates (sortedViews fun _ _ => 0) simulates_empty (churn (2 ^ 59 - 1))
  have same : results' = results := by
    have both := runs'.symm.trans runs
    simp only [Except.ok.injEq, Prod.mk.injEq] at both
    exact both.1
  rw [same] at agrees
  refine ⟨churn (2 ^ 59 - 1) ++ calls, results ++ more, last, run_append runs runsMore, ?_⟩
  intro all
  have rest := agrees_append agrees all
  rw [foldl_churn] at rest
  -- The answers are three, and the last one is a sublist of the announcements in their order.
  obtain ⟨first, second, third, rfl⟩ : ∃ first second third, more = [first, second, third] := by
    have three : more.length = 3 := by simpa using congrArg length lists
    exact length_eq_three.mp three
  obtain ⟨⟨selected, selection, answer⟩, -⟩ := rest.2.2.1.1
  have inOrder : third.requestable.Sublist [⟨false, 1⟩, ⟨false, 2⟩] := by
    rw [answer]
    exact ((filter_sublist.trans (selection.sublist.trans filter_sublist)).map _)
  have reversed : third.requestable = [⟨false, 2⟩, ⟨false, 1⟩] := by
    simp only [map_cons, map_nil, cons.injEq, and_true] at lists
    exact lists.2.2
  rw [reversed] at inOrder
  exact absurd inOrder (by decide)

end Wrap

end HobbyHash.TxRequest
