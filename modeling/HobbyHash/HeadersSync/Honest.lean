import HobbyHash.HeadersSync.Release

/-! # An honest peer gets through

A peer sends a branch that continues the chain start, cut into messages in any
way, and later sends it again, possibly longer and cut in another way. Up to the
message with which the work reaches the threshold no message fails. That message
ends `PRESYNC` the first time and the whole sync the second time, with everything
received again released.

The work of the branch is a sum without bound while the sync adds in 256 bits, so
the sums are the same only below that size.
-/

namespace HobbyHash.HeadersSync

open CBlockIndex Machine Library ArithUint256 List

variable {sync : HeadersSync} {seen received released done batch : List CBlockHeader}
variable {batches : List (List CBlockHeader)} {s : HeadersSyncState}

/-- Full messages one after the other, with the phase and the result after each. -/
def processMessages (sync : HeadersSync) (s : HeadersSyncState) : List (List CBlockHeader) →
    Except Fault (HeadersSyncState × List (HeadersSyncState.State × ProcessingResult))
  | [] => .ok (s, [])
  | batch :: rest => do
    let processed ← sync.processNextHeaders s batch true
    let later ← processMessages sync processed.1 rest
    return (later.1, (processed.1.downloadState, processed.2) :: later.2)

/-- The messages up to the one with which the total work reaches the threshold. -/
def untilEnough (sync : HeadersSync) (done : List CBlockHeader) :
    List (List CBlockHeader) → List (List CBlockHeader)
  | [] => []
  | batch :: rest =>
    if sync.minimumRequiredWork ≤ sync.totalWork (done ++ batch) then [batch]
    else batch :: untilEnough sync (done ++ batch) rest

theorem untilEnough_length_pos (sync : HeadersSync) (done : List CBlockHeader)
    (ne : batches ≠ []) : 0 < (untilEnough sync done batches).length := by
  cases batches with
  | nil => exact absurd rfl ne
  | cons batch rest =>
    simp only [untilEnough]
    split <;> exact Nat.succ_pos _

theorem untilEnough_isPrefix (sync : HeadersSync) (done : List CBlockHeader)
    (batches : List (List CBlockHeader)) :
    (untilEnough sync done batches).flatten <+: batches.flatten := by
  induction batches generalizing done with
  | nil => exact prefix_refl _
  | cons batch rest ih =>
    simp only [untilEnough]
    split
    · rw [flatten_singleton, flatten_cons]
      exact prefix_append _ _
    · exact (prefix_append_right_inj _).mpr (ih _)

theorem enough_untilEnough (ne : batches ≠ [])
    (enough : sync.minimumRequiredWork ≤ sync.totalWork (done ++ batches.flatten)) :
    sync.minimumRequiredWork
      ≤ sync.totalWork (done ++ (untilEnough sync done batches).flatten) := by
  induction batches generalizing done with
  | nil => exact absurd rfl ne
  | cons batch rest ih =>
    simp only [untilEnough]
    split
    · rwa [flatten_singleton]
    rename_i short
    rw [flatten_cons, ← append_assoc] at enough ⊢
    apply ih _ enough
    rintro rfl
    exact short (by simpa using enough)

theorem processMessages_cons (processed : sync.processNextHeaders s batch true = .ok (s', ret))
    (later : processMessages sync s' batches = .ok (final, outcomes)) :
    processMessages sync s (batch :: batches) = .ok (final, (s'.downloadState, ret) :: outcomes) :=
  bind_eq_ok.mpr ⟨_, processed, bind_eq_ok.mpr ⟨_, later, rfl⟩⟩

theorem presync_passes (phase : Presyncing sync done s) (nonempty : batch ≠ [])
    (more : sync.Continues sync.chainStart (done ++ batch))
    (le : (sync.commitments (done ++ batch)).length ≤ sync.maxCommitments) :
    ∃ last, Presyncing sync (done ++ batch) last ∧
      sync.processNextHeaders s batch true
      = .ok (sync.switchToRedownload last, ⟨[], true, true⟩) := by
  obtain ⟨out, processed, -, passes⟩ := (phase.message nonempty).exists_ok fun _ => more
  obtain ⟨last, kept, rfl⟩ := passes more le rfl
  exact ⟨last, kept, processed⟩

theorem nChainWork_branch_of_lt (small : sync.totalWork headers < modulus) :
    (sync.branch headers).nChainWork = sync.totalWork headers := by
  rw [branch, nChainWork_extend]
  exact Nat.mod_eq_of_lt small

theorem presync_run (phase : Presyncing sync done s) (sent : batches ≠ [])
    (nonempty : ∀ batch ∈ batches, batch ≠ [])
    (more : sync.Continues sync.chainStart (done ++ batches.flatten))
    (enough : sync.minimumRequiredWork ≤ sync.totalWork (done ++ batches.flatten))
    (small : sync.totalWork (done ++ (untilEnough sync done batches).flatten) < modulus)
    (le : (sync.commitments (done ++ (untilEnough sync done batches).flatten)).length ≤
      sync.maxCommitments) :
    ∃ middle, Redownloading sync (done ++ (untilEnough sync done batches).flatten) [] [] middle ∧
      middle.processAllRemainingHeaders = false ∧
      processMessages sync s (untilEnough sync done batches) = .ok (middle,
        List.replicate ((untilEnough sync done batches).length - 1) (.presync, ⟨[], true, true⟩) ++
          [(.redownload, ⟨[], true, true⟩)]) := by
  induction batches generalizing done s with
  | nil => exact absurd rfl sent
  | cons batch rest ih =>
    rw [flatten_cons, ← append_assoc] at more enough
    have continuesBatch := ((sync.continues_append _ _ _).mp more).1
    have nonemptyBatch := nonempty batch mem_cons_self
    by_cases reached : sync.minimumRequiredWork ≤ sync.totalWork (done ++ batch)
    · simp only [untilEnough, if_pos reached, flatten_singleton] at small le ⊢
      obtain ⟨last, kept, processed⟩ :=
        presync_passes phase nonemptyBatch continuesBatch le
      have switches : sync.minimumRequiredWork ≤ last.currentChainWork := by
        rwa [kept.work, nChainWork_branch_of_lt small]
      have switched := kept.switch switches
      have pending : (sync.switchToRedownload last).processAllRemainingHeaders = false := by
        rw [switchToRedownload, if_pos switches]
        exact kept.pending
      refine ⟨_, switched, pending, ?_⟩
      rw [processMessages_cons processed rfl, switched.downloadState]
      rfl
    · simp only [untilEnough, if_neg reached, flatten_cons, ← append_assoc] at small le ⊢
      have ne : rest ≠ [] := by
        rintro rfl
        exact reached (by simpa using enough)
      have smallBatch := (sync.totalWork_mono _ _).trans_lt small
      have boundedBatch : (sync.commitments (done ++ batch)).length ≤ sync.maxCommitments := by
        rw [commitments_append, length_append] at le
        omega
      obtain ⟨last, kept, processed⟩ :=
        presync_passes phase nonemptyBatch continuesBatch boundedBatch
      have stays : sync.switchToRedownload last = last := by
        apply if_neg
        rwa [kept.work, nChainWork_branch_of_lt smallBatch]
      rw [stays] at processed
      obtain ⟨middle, switched, pending, later⟩ := ih kept ne
        (forall_mem_cons.mp nonempty).2
        more enough small le
      refine ⟨middle, switched, pending, ?_⟩
      have count := untilEnough_length_pos sync (done ++ batch) ne
      obtain ⟨n, length⟩ := Nat.exists_eq_succ_of_ne_zero count.ne'
      rw [processMessages_cons processed later, kept.downloadState, length_cons, length]
      rfl

/-- The second download of a branch whose headers `seen` reach the threshold. Until
    the work is reached again, only headers that were committed to arrive. -/
structure Repeating (sync : HeadersSync) (seen done released : List CBlockHeader)
    (s : HeadersSyncState) : Prop extends Redownloading sync seen done released s where
  within : s.processAllRemainingHeaders = false →
    done <+: seen ∧ (done = [] ∨ sync.totalWork done < sync.minimumRequiredWork)

section Repeat

variable (nonempty : seen ≠ []) (enough : sync.minimumRequiredWork ≤ sync.totalWork seen)
variable (small : sync.totalWork seen < modulus)
include nonempty enough

theorem Repeating.unfinished (phase : Repeating sync seen done released s)
    (pending : s.processAllRemainingHeaders = false) : ¬ seen <+: done := by
  intro covered
  obtain ⟨inside, low⟩ := phase.within pending
  have eq : done = seen := inside.eq_of_length_le covered.length_le
  obtain empty | lt := low
  · exact nonempty (eq.symm.trans empty)
  · rw [eq] at lt
    omega

theorem Repeating.next_isPrefix (phase : Repeating sync seen done released s)
    (pending : s.processAllRemainingHeaders = false)
    (comparable : done ++ [header] <+: seen ∨ seen <+: done ++ [header]) :
    done ++ [header] <+: seen := by
  obtain ahead | behind := comparable
  · exact ahead
  · obtain same | covered := prefix_concat_iff.mp behind
    · exact same ▸ prefix_refl _
    · exact absurd covered (phase.unfinished nonempty enough pending)

include small

variable (phase : Repeating sync seen done released s)
include phase

theorem Repeating.header {header} (more : sync.Continues sync.chainStart (done ++ [header]))
    (comparable : done ++ [header] <+: seen ∨ seen <+: done ++ [header]) :
    Ensures (fun _ => True) (sync.validateAndStoreRedownloadedHeader s header) fun out =>
      out.2 = none ∧ Repeating sync seen (done ++ [header]) released out.1 := by
  refine ((phase.toRedownloading.header header).weaken fun _ _ => more).mono ?_
  rintro ⟨s', failure⟩ ⟨stored, passes⟩
  obtain rfl : failure = none := by
    refine passes more fun pending => ?_
    obtain ⟨later, rfl⟩ := phase.next_isPrefix nonempty enough pending comparable
    have queued := phase.checked pending
    rw [commitments_append, commitments_concat, append_assoc] at queued
    exact ⟨_, (append_cancel_left queued).symm⟩
  obtain ⟨stored, before⟩ := stored rfl
  refine ⟨rfl, { stored with within := fun pending => ?_ }⟩
  have lt := phase.next_isPrefix nonempty enough (before pending) comparable
  refine ⟨lt, .inr ?_⟩
  obtain ⟨later, rfl⟩ := lt
  have fits := (sync.totalWork_mono _ _).trans_lt small
  obtain empty | below := stored.below pending
  · simp at empty
  · rwa [nChainWork_branch_of_lt fits] at below

theorem Repeating.headers (more : sync.Continues sync.chainStart (done ++ batch))
    (comparable : done ++ batch <+: seen ∨ seen <+: done ++ batch) :
    Ensures (fun _ => True) (checkEach sync.validateAndStoreRedownloadedHeader s batch) fun out =>
      out.2 = none ∧ Repeating sync seen (done ++ batch) released out.1 := by
  refine checkEach_ensures
    (fun headers out => out.2 = none ∧ Repeating sync seen headers released out.1)
    ?_ (fun _ _ _ ⟨failed, _⟩ => nomatch failed) rfl ⟨rfl, phase⟩
  rintro done s header later split ⟨-, phase⟩
  rw [← split, append_cons] at more comparable
  refine phase.header nonempty enough small ((sync.continues_append _ _ _).mp more).1 ?_
  obtain lt | beyond := comparable
  · exact .inl ((prefix_append _ _).trans lt)
  · exact prefix_or_prefix_of_prefix (prefix_append _ _) beyond

theorem Repeating.message (ne : batch ≠ [])
    (more : sync.Continues sync.chainStart (done ++ batch))
    (comparable : done ++ batch <+: seen ∨ seen <+: done ++ batch) :
    ∃ s', Repeating sync seen (done ++ batch) released s' ∧
      sync.processNextHeaders s batch true =
        .ok ((sync.release s' true).1, (sync.release s' true).2) ∧
      (s'.processAllRemainingHeaders = true ↔
        sync.minimumRequiredWork ≤ sync.totalWork (done ++ batch)) := by
  obtain ⟨⟨s', _⟩, stored, rfl, phase'⟩ :=
    (phase.headers nonempty enough small more comparable).exists_ok fun _ => trivial
  refine ⟨s', phase', ?_, phase'.reached, fun reached => ?_⟩
  · rw [processNextHeaders, if_neg (by simpa using ne), phase.downloadState]
    exact bind_eq_ok.mpr ⟨_, stored, rfl⟩
  apply Bool.eq_true_of_not_eq_false
  intro pending
  obtain empty | lt := (phase'.within pending).2
  · exact ne (append_eq_nil_iff.mp empty).2
  · omega

theorem Repeating.run (pending : s.processAllRemainingHeaders = false)
    (sent : ∀ batch ∈ batches, batch ≠ [])
    (more : sync.Continues sync.chainStart (done ++ batches.flatten))
    (covers : seen <+: done ++ batches.flatten) :
    ∃ final outcomes,
      processMessages sync s (untilEnough sync done batches) = .ok (final, outcomes) ∧
      final.downloadState = .final ∧ (∀ outcome ∈ outcomes, outcome.2.success = true) ∧
      released ++ outcomes.flatMap (·.2.powValidatedHeaders) =
        done ++ (untilEnough sync done batches).flatten := by
  induction batches generalizing done released s with
  | nil =>
    rw [flatten_nil, append_nil] at covers
    exact absurd covers (phase.unfinished nonempty enough pending)
  | cons batch rest ih =>
    rw [flatten_cons, ← append_assoc] at more covers
    have continuesBatch := ((sync.continues_append _ _ _).mp more).1
    have comparable := prefix_or_prefix_of_prefix (prefix_append _ _) covers
    have sentBatch := sent batch mem_cons_self
    obtain ⟨s', phase', processed, all⟩ :=
      phase.message nonempty enough small sentBatch continuesBatch comparable
    by_cases reached : sync.minimumRequiredWork ≤ sync.totalWork (done ++ batch)
    · obtain ⟨ready, split, ended, ret⟩ := phase'.release_all (all.mpr reached) true
      simp only [untilEnough, if_pos reached, flatten_singleton]
      refine ⟨_, _, processMessages_cons processed rfl, ended, ?_, ?_⟩
      · simp [ret]
      · simpa [ret] using split.symm
    have pending := Bool.eq_false_iff.mpr (mt all.mp reached)
    obtain ⟨ready, rest, -, -, ret, after, pending'⟩ := phase'.release_some pending true
    obtain ⟨final, outcomes, later, ended, succeeded, all⟩ :=
      ih { after with within := fun _ => phase'.within pending } pending'
        (forall_mem_cons.mp sent).2 more covers
    simp only [untilEnough, if_neg reached, flatten_cons, ← append_assoc]
    refine ⟨final, _, processMessages_cons processed later, ended, ?_, ?_⟩
    · simpa [ret] using succeeded
    · rw [flatMap_cons, ret, ← append_assoc]
      exact all

end Repeat

/-- The parameters of a network on which every difficulty is permitted, and a
    threshold above the work of the first block. -/
def wrappingSync : HeadersSync :=
  { sampleSync with
    consensusParams := { Consensus.mainParams with fPowAllowMinDifficultyBlocks := true }
    minimumRequiredWork := 2 ^ 255 }

/-- A header with the smallest target there is, worth half of the 256-bit range. -/
def hardestHeader (nNonce : UInt32) (hashPrevBlock : Uint256) : CBlockHeader :=
  { sampleFields nNonce with nBits := 0x01010000, hashPrevBlock }

end HobbyHash.HeadersSync
