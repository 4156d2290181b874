import HobbyHash.HeadersSync.Invariant

/-! # What a sync releases

Over any sequence of messages, however they are cut and whatever they contain,
the released headers are the first ones received in `REDOWNLOAD`. They continue
the chain start, and each was released either with a full buffer of headers above
it that match the commitments, or when the branch received again had shown the
required work.
-/

namespace HobbyHash.HeadersSync

open CBlockIndex Machine Library Library.Sampling List

/-- The headers given to a sync in each phase, and those that it released. -/
structure Log where
  presync : List CBlockHeader := []
  redownload : List CBlockHeader := []
  released : List CBlockHeader := []

variable {sync : HeadersSync} {seen received released batch : List CBlockHeader} {log : Log}
variable {s s' : HeadersSyncState} {fullHeadersMessage : Bool} {ret : ProcessingResult}

/-- The log after a message that was processed in the given phase. -/
def Log.record (log : Log) (phase : HeadersSyncState.State) (receivedHeaders : List CBlockHeader)
    (ret : ProcessingResult) : Log where
  presync := if phase = .presync then log.presync ++ receivedHeaders else log.presync
  redownload := if phase = .redownload then log.redownload ++ receivedHeaders else log.redownload
  released := log.released ++ ret.powValidatedHeaders

/-- The states of a sync, with the log of the messages that led there. -/
inductive Reaches (sync : HeadersSync) : Log → HeadersSyncState → Prop where
  | start : Reaches sync {} sync.initial
  | message {log s receivedHeaders fullHeadersMessage s' ret} :
      Reaches sync log s →
      sync.processNextHeaders s receivedHeaders fullHeadersMessage = .ok (s', ret) →
      Reaches sync (log.record s.downloadState receivedHeaders ret) s'

/-- Every header of the list that is due for a commitment has the one that was
    stored for its height. -/
def CommitmentChecked (sync : HeadersSync) (seen headers : List CBlockHeader) : Prop :=
  ∀ i header, headers[i]? = some header → sync.Commits (sync.chainStart.nHeight + 1 + i) →
    ∃ committed, seen[i]? = some committed ∧ sync.commitment committed = sync.commitment header

/-- Why header number `k` of those received again may be released. -/
def Justified (sync : HeadersSync) (log : Log) (k : Nat) : Prop :=
  (k + redownloadBufferSize < log.redownload.length ∧
    CommitmentChecked sync log.presync log.redownload) ∨
  sync.minimumRequiredWork ≤ sync.totalWork log.redownload

theorem Presyncing.stores (phase : Presyncing sync seen s) (ne : batch ≠ []) :
    Ensures (fun _ => sync.Continues sync.chainStart (seen ++ batch))
      (sync.validateAndStoreHeadersCommitments s batch) fun out =>
        (out.2 = none → ∃ last, Presyncing sync (seen ++ batch) last ∧
          out.1 = sync.switchToRedownload last) ∧
        (sync.Continues sync.chainStart (seen ++ batch) → sync.overrun seen = none →
          out.2 = sync.overrun (seen ++ batch)) := by
  cases batch with
  | nil => exact absurd rfl ne
  | cons first rest =>
    rw [validateAndStoreHeadersCommitments, if_neg (not_not.mpr phase.downloadState)]
    split
    · rename_i apart
      refine .pure ⟨nofun, fun more => absurd ?_ apart⟩
      obtain ⟨before, onward⟩ := (sync.continues_append _ _ _).mp more
      rw [phase.last before]
      exact onward.1
    refine (phase.headers (first :: rest)).bind ?_
    rintro ⟨last, failure⟩ ⟨kept, verdict⟩
    cases failure with
    | some failure => exact .pure ⟨nofun, verdict⟩
    | none => exact .pure ⟨fun _ => ⟨last, kept rfl, rfl⟩, verdict⟩

theorem Presyncing.message (phase : Presyncing sync seen s) (ne : batch ≠ []) :
    Ensures (fun _ => sync.Continues sync.chainStart (seen ++ batch))
      (sync.processNextHeaders s batch fullHeadersMessage) fun out =>
        (out.2.powValidatedHeaders = [] ∧
          (Presyncing sync (seen ++ batch) out.1 ∨ Redownloading sync (seen ++ batch) [] [] out.1 ∨
            out.1.downloadState = .final)) ∧
        (sync.Continues sync.chainStart (seen ++ batch) →
          (sync.commitments (seen ++ batch)).length ≤ sync.maxCommitments →
          fullHeadersMessage = true → ∃ last, Presyncing sync (seen ++ batch) last ∧
            out = (sync.switchToRedownload last, ⟨[], true, true⟩)) := by
  rw [processNextHeaders, if_neg (by simpa using ne), phase.downloadState]
  refine (phase.stores ne).bind ?_
  rintro ⟨next, failure⟩ ⟨stored, verdict⟩
  cases failure with
  | some failure =>
    refine .pure ⟨⟨rfl, .inr (.inr rfl)⟩, fun more fits _ => ?_⟩
    have before : sync.overrun seen = none := by
      rw [commitments_append, length_append] at fits
      exact overrun_eq_none.mpr (by omega)
    cases (verdict more before).trans (overrun_eq_none.mpr fits)
  | none =>
    obtain ⟨last, kept, rfl⟩ := stored rfl
    refine .pure ⟨?_, fun _ _ full => ⟨last, kept, by rw [full]; rfl⟩⟩
    dsimp only [finish]
    split
    · refine ⟨rfl, ?_⟩
      by_cases enough : sync.minimumRequiredWork ≤ last.currentChainWork
      · exact .inr (.inl (kept.switch enough))
      · rw [switchToRedownload, if_neg enough]
        exact .inl kept
    · exact ⟨rfl, .inr (.inr rfl)⟩

/-- What a message in `REDOWNLOAD` may release. -/
structure Releases (sync : HeadersSync) (seen received released ready : List CBlockHeader) :
    Prop where
  isPrefix : released ++ ready <+: received
  continues : sync.Continues sync.chainStart (released ++ ready)
  justified : ∀ k, released.length ≤ k → k < (released ++ ready).length →
    Justified sync ⟨seen, received, released ++ ready⟩ k

theorem Releases.nothing (isPrefix : released <+: received)
    (more : sync.Continues sync.chainStart released) :
    Releases sync seen received released [] := by
  refine ⟨?_, ?_, ?_⟩
  · rwa [append_nil]
  · rwa [append_nil]
  · intro k from_ lt
    rw [append_nil] at lt
    omega

section

variable (phase : Redownloading sync seen received released s)
include phase

theorem Redownloading.releases (split : received = released ++ ready ++ rest)
    (justified : ∀ k, released.length ≤ k → k < (released ++ ready).length →
      Justified sync ⟨seen, received, released ++ ready⟩ k) :
    Releases sync seen received released ready where
  isPrefix := split ▸ prefix_append _ _
  continues := ((sync.continues_append _ _ _).mp (split ▸ phase.continues)).1
  justified

theorem Redownloading.isPrefix : released <+: received := by
  obtain ⟨waiting, split, -⟩ := phase.buffer
  exact split ▸ prefix_append _ _

theorem Redownloading.continues_released : sync.Continues sync.chainStart released := by
  obtain ⟨waiting, split, -⟩ := phase.buffer
  exact ((sync.continues_append _ _ _).mp (split ▸ phase.continues)).1

theorem redownload_message (ne : batch ≠ [])
    (processed : sync.processNextHeaders s batch fullHeadersMessage = .ok (s', ret)) :
    Releases sync seen (received ++ batch) released ret.powValidatedHeaders ∧
      (Redownloading sync seen (received ++ batch) (released ++ ret.powValidatedHeaders) s' ∨
        s'.downloadState = .final) := by
  rw [processNextHeaders, if_neg (by simpa using ne), phase.downloadState] at processed
  obtain ⟨⟨next, failure⟩, checked, after⟩ := bind_eq_ok.mp processed
  cases failure with
  | some failure =>
    cases after
    have before : released <+: received ++ batch :=
      phase.isPrefix.trans (prefix_append _ _)
    exact ⟨.nothing before phase.continues_released, .inr rfl⟩
  | none =>
    have stored := (phase.headers batch).of_eq_ok checked rfl
    have res : sync.release next fullHeadersMessage = (s', ret) := Except.ok.inj after
    cases all : next.processAllRemainingHeaders with
    | true =>
      obtain ⟨ready, split, final, returned⟩ := stored.release_all all fullHeadersMessage
      rw [res] at final returned
      subst returned
      have whole : received ++ batch = released ++ ready ++ [] := by rwa [append_nil]
      refine ⟨stored.releases whole ?_, .inr final⟩
      intro k _ _
      exact .inr (stored.reached all)
    | false =>
      obtain ⟨ready, rest, split, length, returned, after⟩ :=
        stored.release_some all fullHeadersMessage
      rw [res] at returned after
      subst returned
      refine ⟨stored.releases split ?_, ?_⟩
      · intro k above lt
        refine .inl ⟨?_, fun i header there commits => ?_⟩
        · have total := congrArg List.length split
          simp only [length_append] at total lt length ⊢
          omega
        · have matching : sync.commitments (received ++ batch) <+: sync.commitments seen := by
            rw [stored.checked all]
            exact prefix_append _ _
          exact agree_of_isPrefix _ _ matching there commits
      · cases fullHeadersMessage with
        | true => exact .inl after.1
        | false => exact .inr after

end

/-- What is known of the log in each phase. -/
inductive Tracks (sync : HeadersSync) (log : Log) (s : HeadersSyncState) : Prop where
  | presync (phase : Presyncing sync log.presync s) (none : log.redownload = [])
      (nothing : log.released = [])
  | redownload (phase : Redownloading sync log.presync log.redownload log.released s)
  | final (phase : s.downloadState = .final) (isPrefix : log.released <+: log.redownload)
      (continues : sync.Continues sync.chainStart log.released)

@[simp] theorem Log.record_presync (log : Log) (batch : List CBlockHeader)
    (ret : ProcessingResult) : log.record .presync batch ret =
      ⟨log.presync ++ batch, log.redownload, log.released ++ ret.powValidatedHeaders⟩ := rfl

@[simp] theorem Log.record_redownload (log : Log) (batch : List CBlockHeader)
    (ret : ProcessingResult) : log.record .redownload batch ret =
      ⟨log.presync, log.redownload ++ batch, log.released ++ ret.powValidatedHeaders⟩ := rfl

theorem Log.record_ignored {phase : HeadersSyncState.State}
    (ignored : batch = [] ∨ phase = .final) :
    log.record phase batch {} = log := by
  obtain rfl | rfl := ignored
  · simp only [Log.record, append_nil, ite_self]
  · simp only [Log.record, append_nil]
    rfl

theorem processNextHeaders_ignored (ignored : batch = [] ∨ s.downloadState = .final) :
    sync.processNextHeaders s batch fullHeadersMessage = .ok (s, {}) := by
  obtain rfl | final := ignored
  · rfl
  · rw [processNextHeaders, final]
    split <;> rfl

theorem Tracks.message (tracks : Tracks sync log s)
    (processed : sync.processNextHeaders s batch fullHeadersMessage = .ok (s', ret)) :
    Tracks sync (log.record s.downloadState batch ret) s' ∧
      ∀ k, log.released.length ≤ k → k < (log.released ++ ret.powValidatedHeaders).length →
        Justified sync (log.record s.downloadState batch ret) k := by
  by_cases ignored : batch = [] ∨ s.downloadState = .final
  · cases (processNextHeaders_ignored ignored).symm.trans processed
    rw [Log.record_ignored ignored, append_nil]
    exact ⟨tracks, fun k above lt => absurd lt (Nat.not_lt.mpr above)⟩
  obtain ⟨ne, notFinal⟩ := not_or.mp ignored
  cases tracks with
  | presync phase none nothing =>
    obtain ⟨silent, after⟩ := ((phase.message ne).of_eq_ok processed).1
    rw [phase.downloadState, Log.record_presync, silent, append_nil, none, nothing]
    refine ⟨?_, fun k above lt => absurd lt (Nat.not_lt.mpr above)⟩
    obtain still | switched | final := after
    · exact .presync still rfl rfl
    · exact .redownload switched
    · exact .final final (prefix_refl _) trivial
  | redownload phase =>
    obtain ⟨releases, after⟩ := redownload_message phase ne processed
    rw [phase.downloadState, Log.record_redownload]
    refine ⟨?_, releases.justified⟩
    obtain still | final := after
    · exact .redownload still
    · exact .final final releases.isPrefix releases.continues
  | final phase isPrefix continues => exact absurd phase notFinal

theorem Reaches.tracks (reached : Reaches sync log s) : Tracks sync log s := by
  induction reached with
  | start => exact .presync (presyncing_initial sync) rfl rfl
  | message _ processed ih => exact (ih.message processed).1

theorem Tracks.releases (tracks : Tracks sync log s) :
    log.released <+: log.redownload ∧ sync.Continues sync.chainStart log.released := by
  cases tracks with
  | presync phase none nothing =>
    rw [none, nothing]
    exact ⟨prefix_refl _, trivial⟩
  | redownload phase => exact ⟨phase.isPrefix, phase.continues_released⟩
  | final phase isPrefix more => exact ⟨isPrefix, more⟩

theorem Tracks.buffer (tracks : Tracks sync log s) (redownload : s.downloadState = .redownload) :
    s.redownloadedHeaders =
      (log.redownload.drop log.released.length).map CBlockHeader.toHeaderFields := by
  cases tracks with
  | presync phase none nothing => cases redownload.symm.trans phase.downloadState
  | redownload phase =>
    obtain ⟨waiting, split, buffered⟩ := phase.buffer
    rw [buffered, split, drop_left]
  | final phase isPrefix more => cases redownload.symm.trans phase

def sampleFields (nNonce : UInt32) : HeaderFields where
  nVersion := 1
  hashMerkleRoot := 0
  nTime := 1700000000
  nBits := 0x1d00ffff
  nNonce

def sampleHeader (nNonce : UInt32) (hashPrevBlock : Uint256) : CBlockHeader :=
  { sampleFields nNonce with hashPrevBlock }

def sampleSync : HeadersSync where
  getHash header := BitVec.ofNat 256 header.nNonce.toNat
  hasher hash := UInt64.ofNat hash.toNat
  commitOffset := ⟨2, by decide⟩
  consensusParams := Consensus.mainParams
  chainStart := .genesis (sampleFields 1)
  minimumRequiredWork := 3 * getBlockProof 0x1d00ffff
  maxCommitments := 1

end HobbyHash.HeadersSync
