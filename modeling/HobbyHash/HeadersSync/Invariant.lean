import HobbyHash.HeadersSync.Branch

/-! # The two phases, header by header

What the members of a sync say about the headers it was given. In `PRESYNC` they
describe the branch of all headers seen so far. In `REDOWNLOAD` they describe the
branch of the headers received again, of which a first part was released and the
rest waits in the buffer without its previous hashes.
-/

namespace HobbyHash.HeadersSync

open CBlockIndex Library List CBlockHeader Bool

variable {sync : HeadersSync} {seen received released : List CBlockHeader} {s s' : HeadersSyncState}

theorem checkEach_ensures {check bad}
    (inv : List CBlockHeader → HeadersSyncState × Option Failure → Prop) {done headers all}
    (each : ∀ done s header later, done ++ header :: later = all → inv done (s, none) →
      Ensures bad (check s header) (inv (done ++ [header])))
    (stop : ∀ done s failure, inv done (s, some failure) → inv all (s, some failure))
    (split : done ++ headers = all) (start : inv done (s, none)) :
    Ensures bad (checkEach check s headers) (inv all) := by
  induction headers generalizing done s with
  | nil =>
    rw [append_nil] at split
    exact .pure (split ▸ start)
  | cons header rest ih =>
    refine (each done s header rest split start).bind ?_
    rintro ⟨next, failure⟩ kept
    cases failure with
    | none => exact ih ((append_cons ..).symm.trans split) kept
    | some failure => exact .pure (stop _ _ _ kept)

/-- The state after the headers `seen` in the first phase. -/
structure Presyncing (sync : HeadersSync) (seen : List CBlockHeader) (s : HeadersSyncState) :
    Prop where
  downloadState : s.downloadState = .presync
  height : s.currentHeight = (sync.branch seen).nHeight
  nBits : s.lastHeaderReceived.nBits = (sync.branch seen).nBits
  work : s.currentChainWork = (sync.branch seen).nChainWork
  commitments : s.headerCommitments = sync.commitments seen
  pending : s.processAllRemainingHeaders = false
  last : sync.Continues sync.chainStart seen →
    s.lastHeaderReceived = (sync.branch seen).getBlockHeader sync.getHash

theorem presyncing_initial (sync : HeadersSync) : Presyncing sync [] sync.initial where
  downloadState := rfl
  height := rfl
  nBits := nBits_getBlockHeader _ _
  work := rfl
  commitments := rfl
  pending := rfl
  last _ := rfl

/-- The verdict on headers whose difficulties are permitted. -/
def overrun (sync : HeadersSync) (headers : List CBlockHeader) : Option Failure :=
  if sync.maxCommitments < (sync.commitments headers).length then some .exceededMaxCommitments
  else none

theorem overrun_eq_none :
    sync.overrun headers = none ↔ (sync.commitments headers).length ≤ sync.maxCommitments := by
  simp [overrun]

section

variable (phase : Presyncing sync seen s)
include phase

theorem storeCommitment_eq (header : CBlockHeader) :
    ∃ failure, sync.storeCommitment s (s.currentHeight + 1) header =
        ({ s with headerCommitments := sync.commitments (seen ++ [header]) }, failure) ∧
      (sync.overrun seen = none → failure = sync.overrun (seen ++ [header])) := by
  simp only [storeCommitment]
  split
  · rename_i commits
    refine ⟨sync.overrun (seen ++ [header]), ?_, fun _ => rfl⟩
    rw [overrun, commitments_concat, ← phase.height, if_pos commits, ← phase.commitments]
    split <;> rfl
  rename_i skipped
  have eq : sync.commitments (seen ++ [header]) = sync.commitments seen := by
    rw [commitments_concat, ← phase.height, if_neg skipped, append_nil]
  refine ⟨none, by rw [eq, ← phase.commitments], fun within => ?_⟩
  rw [overrun, eq]
  exact within.symm

theorem Presyncing.header (header : CBlockHeader) :
    Ensures (fun _ => sync.Continues sync.chainStart (seen ++ [header]))
      (sync.validateAndProcessSingleHeader s header) fun out =>
        (out.2 = none → Presyncing sync (seen ++ [header]) out.1) ∧
        (sync.Continues sync.chainStart (seen ++ [header]) → sync.overrun seen = none →
          out.2 = sync.overrun (seen ++ [header])) := by
  rw [validateAndProcessSingleHeader, if_neg (not_not.mpr phase.downloadState)]
  refine (Ensures.of_imp (a := true) fun more => ?_).bind ?_
  · obtain ⟨-, permitted, -⟩ := ((sync.continues_append _ _ _).mp more).2
    rwa [← branch, ← phase.nBits, ← phase.height] at permitted
  rintro permitted ⟨-, isPermitted⟩
  obtain ⟨failure, stored, verdict⟩ := storeCommitment_eq phase header
  rw [stored]
  split
  · cases failure with
    | some failure => exact .pure ⟨by rintro ⟨⟩, fun _ => verdict⟩
    | none =>
      refine .pure ⟨fun _ => ?_, fun _ => verdict⟩
      exact {
        downloadState := phase.downloadState
        height := by rw [branch_concat, nHeight_child, ← phase.height]
        nBits := by rw [branch_concat]; rfl
        work := by rw [branch_concat, nChainWork, ← phase.work]
        commitments := rfl
        pending := phase.pending
        last := fun more => (sync.getBlockHeader_branch_concat more).symm }
  · rename_i refused
    exact .pure ⟨by rintro ⟨⟩, fun more => absurd (isPermitted more) refused⟩

/-- Headers whose difficulties are permitted can only be refused for their
    commitments. -/
theorem Presyncing.headers (headers : List CBlockHeader) :
    Ensures (fun _ => sync.Continues sync.chainStart (seen ++ headers))
      (checkEach sync.validateAndProcessSingleHeader s headers) fun out =>
        (out.2 = none → Presyncing sync (seen ++ headers) out.1) ∧
        (sync.Continues sync.chainStart (seen ++ headers) → sync.overrun seen = none →
          out.2 = sync.overrun (seen ++ headers)) := by
  induction headers generalizing seen s with
  | nil =>
    rw [append_nil]
    exact .pure ⟨fun _ => phase, fun _ within => within.symm⟩
  | cons header rest ih =>
    rw [append_cons]
    have first :=
      fun all => ((sync.continues_append sync.chainStart (seen ++ [header]) rest).mp all).1
    refine ((phase.header header).weaken fun _ => first).bind ?_
    rintro ⟨next, failure⟩ ⟨kept, verdict⟩
    cases failure with
    | none =>
      refine (ih (kept rfl)).mono fun out ⟨kept, last⟩ => ⟨kept, fun all within => ?_⟩
      exact last all (verdict (first all) within).symm
    | some failure =>
      refine .pure ⟨nofun, fun all within => ?_⟩
      have beyond := verdict (first all) within
      rw [overrun] at beyond ⊢
      split at beyond
      · rw [commitments_append, length_append, if_pos (by omega)]
        exact beyond
      · cases beyond

end

/-- The state after the headers `received` in the second phase, of which `released`
    were handed on, when the commitments were made to `seen`. -/
structure Redownloading (sync : HeadersSync) (seen received released : List CBlockHeader)
    (s : HeadersSyncState) : Prop where
  downloadState : s.downloadState = .redownload
  continues : sync.Continues sync.chainStart received
  buffer : ∃ waiting, received = released ++ waiting ∧
    s.redownloadedHeaders = waiting.map toHeaderFields
  firstPrevHash : s.redownloadBufferFirstPrevHash =
    (sync.branch released).getBlockHash sync.getHash
  lastHeight : s.redownloadBufferLastHeight = (sync.branch received).nHeight
  lastHash : s.redownloadBufferLastHash = (sync.branch received).getBlockHash sync.getHash
  work : s.redownloadChainWork = (sync.branch received).nChainWork
  midChain : s.redownloadedHeaders = [] → received = []
  reached : s.processAllRemainingHeaders = true →
    sync.minimumRequiredWork ≤ sync.totalWork received
  below : s.processAllRemainingHeaders = false →
    received = [] ∨ (sync.branch received).nChainWork < sync.minimumRequiredWork
  checked : s.processAllRemainingHeaders = false →
    sync.commitments seen = sync.commitments received ++ s.headerCommitments

theorem Presyncing.switch (phase : Presyncing sync seen s)
    (le : sync.minimumRequiredWork ≤ s.currentChainWork) :
    Redownloading sync seen [] [] (sync.switchToRedownload s) := by
  rw [switchToRedownload, if_pos le]
  exact {
    downloadState := rfl
    continues := trivial
    buffer := ⟨[], rfl, rfl⟩
    firstPrevHash := rfl
    lastHeight := rfl
    lastHash := rfl
    work := rfl
    midChain := fun _ => rfl
    reached := fun all => Bool.noConfusion (phase.pending.symm.trans all)
    below := fun _ => .inl rfl
    checked := fun _ => phase.commitments.symm }

/-- The check passes if the queue begins with what the header needs. -/
theorem checkCommitment_cases (sync : HeadersSync) (s : HeadersSyncState) (nextHeight : Nat)
    (header : CBlockHeader) :
    (∃ queue, sync.checkCommitment s nextHeight header =
        (sync.storeHeader { s with headerCommitments := queue } nextHeight header, none) ∧
      (s.processAllRemainingHeaders = false → s.headerCommitments =
        (if sync.Commits nextHeight then [sync.commitment header] else []) ++ queue)) ∨
    (sync.checkCommitment s nextHeight header).2 ≠ none ∧
      s.processAllRemainingHeaders = false ∧ ∀ queue, s.headerCommitments ≠
        (if sync.Commits nextHeight then [sync.commitment header] else []) ++ queue := by
  simp only [checkCommitment]
  split
  · rename_i due
    rw [if_pos due.2]
    split
    · rename_i empty
      exact .inr ⟨nofun, due.1, fun queue => by rw [empty]; nofun⟩
    rename_i expected later front
    split
    · rename_i apart
      refine .inr ⟨nofun, due.1, fun queue same => apart ?_⟩
      rw [front] at same
      exact (cons.inj same).1.symm
    · rename_i same
      refine .inl ⟨later, rfl, fun _ => ?_⟩
      rw [not_not.mp same]
      exact front
  · rename_i skipped
    refine .inl ⟨s.headerCommitments, rfl, fun pending => ?_⟩
    rw [if_neg fun commits => skipped ⟨pending, commits⟩]
    rfl

def retained (processAll : Bool) : Nat :=
  if processAll then 0 else redownloadBufferSize

theorem popHeaders_spec (processAll : Bool) (more : sync.Continues tip waiting) :
    ∃ ready rest, waiting = ready ++ rest ∧
      rest.length = min waiting.length (retained processAll) ∧
      sync.popHeaders processAll (tip.getBlockHash sync.getHash)
          (waiting.map toHeaderFields) =
        (ready, rest.map toHeaderFields,
          (tip.extend ready).getBlockHash sync.getHash) := by
  induction waiting generalizing tip with
  | nil => exact ⟨[], [], rfl, (Nat.zero_min _).symm, rfl⟩
  | cons header later ih =>
    obtain ⟨connects, -, onward⟩ := more
    have rebuilt :
        getFullHeader header.toHeaderFields (tip.getBlockHash sync.getHash) = header := by
      cases header
      cases connects
      rfl
    have hash : sync.getHash header =
        (child tip header.toHeaderFields).getBlockHash sync.getHash := by
      rw [getBlockHash, getBlockHeader_child connects]
    simp only [map_cons, popHeaders, length_cons, length_map]
    split
    · rename_i full
      obtain ⟨ready, rest, split, length, popped⟩ := ih onward
      have le : retained processAll ≤ later.length := by
        cases processAll with
        | true => exact Nat.zero_le _
        | false => exact Nat.lt_succ_iff.mp (full.resolve_right false_ne_true)
      refine ⟨header :: ready, rest, congrArg _ split, ?_, ?_⟩
      · rw [length, Nat.min_eq_right le, Nat.min_eq_right (le.trans (Nat.le_succ _))]
      · rw [rebuilt, hash, popped]
        rfl
    · rename_i short
      have few : later.length + 1 ≤ redownloadBufferSize :=
        Nat.not_lt.mp fun long => short (.inl long)
      have keep : processAll = false := eq_false_iff.mpr fun all => short (.inr all)
      refine ⟨[], header :: later, rfl, ?_, rfl⟩
      rw [keep]
      exact (Nat.min_eq_left few).symm

section

variable (phase : Redownloading sync seen received released s)
include phase

/-- An empty buffer never occurs in mid-chain, so the fallback to the chain start
    finds the difficulty of the tip. -/
theorem Redownloading.previousBits :
    sync.previousBits s = (sync.branch received).nBits := by
  obtain ⟨waiting, split, buffered⟩ := phase.buffer
  simp only [HeadersSync.previousBits, buffered]
  cases waiting using reverseRecOn with
  | nil =>
    rw [phase.midChain buffered]
    rfl
  | append_singleton rest last =>
    rw [map_append, map_singleton, getLast?_concat, split, ← append_assoc,
      branch_concat]
    rfl

/-- What remains after the commitment check: the header at the end of the buffer. -/
theorem Redownloading.stored {header queue}
    (continues : sync.Continues sync.chainStart (received ++ [header]))
    (checked : (sync.trackWork s header).processAllRemainingHeaders = false →
      s.headerCommitments =
        (if sync.Commits ((sync.branch received).nHeight + 1) then [sync.commitment header] else []) ++
          queue) :
    Redownloading sync seen (received ++ [header]) released
      (sync.storeHeader { sync.trackWork s header with headerCommitments := queue }
        (s.redownloadBufferLastHeight + 1) header) := by
  obtain ⟨waiting, split, buffered⟩ := phase.buffer
  have work : (sync.trackWork s header).redownloadChainWork =
      (sync.branch (received ++ [header])).nChainWork := by
    rw [branch_concat, nChainWork, ← phase.work]
    rfl
  have flag : (sync.trackWork s header).processAllRemainingHeaders =
      (s.processAllRemainingHeaders ||
        decide ((sync.branch (received ++ [header])).nChainWork ≥ sync.minimumRequiredWork)) := by
    rw [← work]
    rfl
  exact {
    downloadState := phase.downloadState
    continues
    buffer := ⟨waiting ++ [header], by rw [split, append_assoc], by
      rw [map_append, ← buffered]
      rfl⟩
    firstPrevHash := phase.firstPrevHash
    lastHeight := by rw [branch_concat, nHeight_child, ← phase.lastHeight]; rfl
    lastHash := by
      rw [getBlockHash, sync.getBlockHeader_branch_concat continues]
      rfl
    work
    midChain := fun empty => absurd empty (append_ne_nil_of_right_ne_nil _ (by simp))
    reached := by
      intro all
      obtain before | now := (or_eq_true _ _).mp (flag ▸ all)
      · exact (phase.reached before).trans (sync.totalWork_mono _ _)
      · exact (of_decide_eq_true now).trans ((nChainWork_extend _ _).trans_le (Nat.mod_le _ _))
    below := by
      intro pending
      have low := (or_eq_false_iff.mp (flag ▸ pending)).2
      exact .inr (Nat.not_le.mp (of_decide_eq_false low))
    checked := by
      intro pending
      have before := (or_eq_false_iff.mp (flag ▸ pending)).1
      rw [phase.checked before, checked pending, commitments_concat, append_assoc]
      rfl }

theorem Redownloading.header (header : CBlockHeader) :
    Ensures (fun _ => sync.Continues sync.chainStart (received ++ [header]))
      (sync.validateAndStoreRedownloadedHeader s header) fun out =>
        (out.2 = none → Redownloading sync seen (received ++ [header]) released out.1 ∧
          (out.1.processAllRemainingHeaders = false → s.processAllRemainingHeaders = false)) ∧
        (sync.Continues sync.chainStart (received ++ [header]) →
          (s.processAllRemainingHeaders = false → ∃ queue, s.headerCommitments =
            (if sync.Commits ((sync.branch received).nHeight + 1) then [sync.commitment header]
              else []) ++ queue) → out.2 = none) := by
  have continues_iff : sync.Continues sync.chainStart (received ++ [header]) ↔
      header.hashPrevBlock = s.redownloadBufferLastHash ∧
      Pow.permittedDifficultyTransition sync.consensusParams
        (s.redownloadBufferLastHeight + 1 : Nat) (sync.previousBits s) header.nBits = .ok true := by
    rw [sync.continues_append, phase.lastHash, phase.lastHeight, phase.previousBits]
    exact ⟨fun both => ⟨both.2.1, both.2.2.1⟩,
      fun both => ⟨phase.continues, both.1, both.2, trivial⟩⟩
  rw [validateAndStoreRedownloadedHeader, if_neg (not_not.mpr phase.downloadState)]
  split
  · rename_i apart
    exact .pure ⟨nofun, fun continues => absurd (continues_iff.mp continues).1 apart⟩
  rename_i connects
  refine (Ensures.of_imp fun continues => (continues_iff.mp continues).2).bind ?_
  rintro permitted ⟨transition, isPermitted⟩
  cases permitted with
  | false => exact .pure ⟨nofun, fun continues => nomatch isPermitted continues⟩
  | true =>
    have continues := continues_iff.mpr ⟨not_not.mp connects, transition⟩
    obtain ⟨queue, stored, checked⟩ | ⟨failed, pending, unmatched⟩ := checkCommitment_cases sync
      (sync.trackWork s header) (s.redownloadBufferLastHeight + 1) header
    · rw [if_pos rfl, stored]
      rw [phase.lastHeight] at checked
      refine .pure ⟨fun _ => ⟨phase.stored continues checked, fun pending => ?_⟩, fun _ _ => rfl⟩
      exact (or_eq_false_iff.mp pending).1
    · refine .pure ⟨fun passed => absurd passed failed, fun _ front => ?_⟩
      obtain ⟨queue, first⟩ := front (or_eq_false_iff.mp pending).1
      rw [← phase.lastHeight] at first
      exact absurd first (unmatched queue)

theorem Redownloading.headers (headers : List CBlockHeader) :
    Ensures (fun _ => False) (checkEach sync.validateAndStoreRedownloadedHeader s headers)
    fun out =>
      out.2 = none → Redownloading sync seen (received ++ headers) released out.1 := by
  refine checkEach_ensures
    (fun headers out => out.2 = none → Redownloading sync seen headers released out.1)
    (fun done s header later _ phase => ?_) (fun _ _ _ _ => nofun) rfl fun _ => phase
  refine (((phase rfl).header header).weaken fun _ => False.elim).mono ?_
  exact fun out kept passed => (kept.1 passed).1

theorem Redownloading.pop :
    ∃ ready rest, received = released ++ ready ++ rest ∧
      rest.length = min (ready ++ rest).length (retained s.processAllRemainingHeaders) ∧
      sync.popHeadersReadyForAcceptance s =
        ({ s with
          redownloadedHeaders := rest.map toHeaderFields
          redownloadBufferFirstPrevHash :=
            (sync.branch (released ++ ready)).getBlockHash sync.getHash }, ready) := by
  obtain ⟨waiting, split, buffered⟩ := phase.buffer
  have onward := ((sync.continues_append _ _ _).mp (split ▸ phase.continues)).2
  obtain ⟨ready, rest, rfl, length, popped⟩ :=
    popHeaders_spec s.processAllRemainingHeaders onward
  refine ⟨ready, rest, by rw [split, append_assoc], length, ?_⟩
  rw [popHeadersReadyForAcceptance, if_neg (not_not.mpr phase.downloadState), buffered,
    phase.firstPrevHash, branch, popped, branch_append]
  rfl

theorem Redownloading.release_all (all : s.processAllRemainingHeaders = true)
    (fullHeadersMessage : Bool) :
    ∃ ready, received = released ++ ready ∧
      (sync.release s fullHeadersMessage).1.downloadState = .final ∧
      (sync.release s fullHeadersMessage).2 = ⟨ready, true, false⟩ := by
  obtain ⟨ready, rest, split, length, popped⟩ := phase.pop
  rw [all] at length
  obtain rfl : rest = [] := eq_nil_of_length_eq_zero (length.trans (Nat.min_zero _))
  rw [append_nil] at split
  have done : sync.release s fullHeadersMessage =
      (finalize (sync.popHeadersReadyForAcceptance s).1, ⟨ready, true, false⟩) := by
    simp only [release, popped, all]
    exact if_neg fun more => Bool.noConfusion more.2
  rw [done]
  exact ⟨ready, split, rfl, rfl⟩

theorem Redownloading.release_some (pending : s.processAllRemainingHeaders = false)
    (fullHeadersMessage : Bool) :
    ∃ ready rest, received = released ++ ready ++ rest ∧
      rest.length = min (ready ++ rest).length redownloadBufferSize ∧
      (sync.release s fullHeadersMessage).2 = ⟨ready, true, fullHeadersMessage⟩ ∧
      if fullHeadersMessage then
        Redownloading sync seen received (released ++ ready) (sync.release s fullHeadersMessage).1 ∧
          (sync.release s fullHeadersMessage).1.processAllRemainingHeaders = false
      else (sync.release s fullHeadersMessage).1.downloadState = .final := by
  obtain ⟨ready, rest, split, length, popped⟩ := phase.pop
  rw [pending] at length
  refine ⟨ready, rest, split, length, ?_⟩
  have more : sync.release s fullHeadersMessage =
      finish (sync.popHeadersReadyForAcceptance s).1 ⟨ready, true, fullHeadersMessage⟩ := by
    simp only [release, popped, pending, Bool.and_false, Bool.not_false, Bool.true_and]
  rw [more]
  cases fullHeadersMessage with
  | false => exact ⟨rfl, rfl⟩
  | true =>
    refine ⟨rfl, ?_⟩
    rw [popped]
    refine ⟨{ phase with
      buffer := ⟨rest, split, rfl⟩
      firstPrevHash := rfl
      midChain := ?_ }, pending⟩
    intro empty
    have none : rest.length = 0 := by rw [map_eq_nil_iff.mp empty, length_nil]
    obtain ⟨waiting, before, buffered⟩ := phase.buffer
    have eq : ready ++ rest = waiting :=
      append_cancel_left (by rw [← before, split, append_assoc])
    have short : waiting.length = 0 := by
      rw [none, eq] at length
      change 0 = min waiting.length 14441 at length
      omega
    apply phase.midChain
    rw [buffered, eq_nil_of_length_eq_zero short]
    rfl

end

end HobbyHash.HeadersSync
