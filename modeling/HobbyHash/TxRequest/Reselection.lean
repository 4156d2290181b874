import HobbyHash.TxRequest.Invariant

/-! # Selecting the best announcement

The functions that change the state of one announcement and mark the best one of its
txhash. They look at the neighbours in `ByTxHash` only. In that order the announcements
of a txhash stand together, the ready ones by priority before the selected one, and the
completed ones last.
-/

namespace HobbyHash.TxRequest

open Machine Library List Function OrderedView Announcement

variable {sipHash : Uint256 → NodeId → UInt64} (views : Views sipHash)
  {index : List Announcement} {bad : Fault → Prop} {sequence revision : Nat} {it : Announcement}

theorem shows_byTxHash : Shows (byTxHashKey sipHash) index
    (byTxHash views (holding sequence revision index)) :=
  (views.byTxHash revision).shows index

section View

variable {view : List Announcement} {a b : Announcement}

variable (shows : Shows (byTxHashKey sipHash) index view)
include shows

theorem exists_next (inA : a ∈ index) (inB : b ∈ index) (same : b.txhash = a.txhash)
    (later : a.state.rank < b.state.rank) :
    ∃ n, OrderedView.next view a = some n ∧ n ∈ index ∧ n.txhash = a.txhash ∧
      byTxHashKey sipHash a ≤ byTxHashKey sipHash n ∧ n.state.rank ≤ b.state.rank := by
  have lt : byTxHashKey sipHash a < byTxHashKey sipHash b := key_lt_of_rank same.symm later
  have ne : b ≠ a := fun eq => absurd (eq ▸ lt) (lt_irrefl _)
  rcases shows.neighbours inA inB ne with ⟨p, -, -, -, le, before⟩ | ⟨n, found, inN, after, le⟩
  · exact absurd (le.trans before) (not_le.mpr lt)
  · have of := txhash_between after le same.symm
    exact ⟨n, found, inN, of, after, rank_le_of_key le (of.trans same.symm)⟩

theorem exists_prev (inA : a ∈ index) (inB : b ∈ index) (same : b.txhash = a.txhash)
    (earlier : b.state.rank < a.state.rank) :
    ∃ p, OrderedView.prev view a = some p ∧ p ∈ index ∧ p ≠ a ∧ p.txhash = a.txhash ∧
      byTxHashKey sipHash b ≤ byTxHashKey sipHash p ∧ p.state.rank ≤ a.state.rank := by
  have lt : byTxHashKey sipHash b < byTxHashKey sipHash a := key_lt_of_rank same earlier
  have ne : b ≠ a := fun eq => absurd (eq ▸ lt) (lt_irrefl _)
  rcases shows.neighbours inA inB ne with ⟨p, found, inP, otherP, le, before⟩ | ⟨n, -, -, after, le⟩
  · have of := (txhash_between le before same).trans same
    exact ⟨p, found, inP, otherP, of, le, rank_le_of_key before of⟩
  · exact absurd (after.trans le) (not_le.mpr lt)

end View

/-- The states of a candidate whose time has come. -/
def State.Selectable (state : State) : Prop := state = .candidateReady ∨ state = .candidateBest

section Promote

variable (sane : Sane sipHash index) (member : it ∈ index)
include sane member

theorem promote_idle
    (idle : ∀ a ∈ index, a.txhash = it.txhash → ¬a.isSelected ∧ a.state ≠ .candidateReady) :
    Reselected sipHash index it State.Selectable
      (reassign index (update (·.state) it .candidateBest)) := by
  apply sane.reselected reselects_update (.inr (by simp))
  case settled =>
    refine .inr ⟨it, member, rfl, by simp, ?_⟩
    intro a inA of other
    have free := idle a inA of
    simpa [other, free.2] using free.1
  case alive => exact ⟨it, member, rfl, by simp⟩

theorem promote_better (mem : best ∈ index) (of : best.txhash = it.txhash)
    (isBest : best.state = .candidateBest) (better : priority sipHash best < priority sipHash it) :
    Reselected sipHash index it State.Selectable
      (reassign index (update (update (·.state) best .candidateReady) it .candidateBest)) := by
  apply sane.reselected (reselects_swap of (by simp [isBest]) (.inl rfl)) (.inr (by simp))
  case settled =>
    refine .inr ⟨it, member, rfl, by simp, ?_⟩
    intro a inA ofA other
    by_cases same : a = best
    · subst same
      simpa [other] using UInt64.le_of_lt better
    · have lt := sane.others_of_selected mem (by simp [isBest]) inA (ofA.trans of.symm) same
      simp only [isSelected_iff] at lt
      simpa [other, same, lt.1] using fun ready =>
        UInt64.le_trans (lt.2 ready isBest) (UInt64.le_of_lt better)
  case alive => exact ⟨it, member, rfl, by simp⟩

theorem promote_ready (mem : sel ∈ index) (of : sel.txhash = it.txhash)
    (isSelected : sel.isSelected) (ne : sel ≠ it)
    (better : sel.state = .candidateBest → priority sipHash it ≤ priority sipHash sel) :
    Reselected sipHash index it State.Selectable
      (reassign index (update (·.state) it .candidateReady)) := by
  apply sane.reselected reselects_update (.inl (by simp))
  case settled =>
    refine .inr ⟨sel, mem, of, by simpa [ne] using isSelected, ?_⟩
    intro a inA ofA other
    by_cases same : a = it
    · subst same
      simpa [ne] using better
    · have lt := sane.others_of_selected mem isSelected inA (ofA.trans of.symm) other
      simpa [ne, same] using lt
  case alive => exact ⟨it, member, rfl, by simp⟩

end Promote

section Readied

def readied (index : List Announcement) (it : Announcement) : List Announcement :=
  reassign index (update (·.state) it .candidateReady)

theorem mem_readied (member : it ∈ index) :
    a ∈ readied index it ↔ a = it.setState .candidateReady ∨ a ∈ index ∧ a ≠ it :=
  mem_reassign_update member

variable {view : List Announcement} (member : it ∈ index) (nodup : (readied index it).Nodup)
  (shows : Shows (byTxHashKey sipHash) (readied index it) view)
include member nodup shows

theorem next_of_idle
    (idle : ∀ a ∈ index, a.txhash = it.txhash → ¬a.isSelected ∧ a.state ≠ .candidateReady)
    (found : OrderedView.next view (it.setState .candidateReady) = some n) :
    n.txhash ≠ it.txhash ∨ n.state = .completed := by
  obtain ⟨inN, other, later⟩ := shows.of_next nodup ((mem_readied member).mpr (.inl rfl)) found
  rcases (mem_readied member).mp inN with same | ⟨inN, -⟩
  · exact absurd same other
  · by_cases of : n.txhash = it.txhash
    · have rank := rank_le_of_key later of.symm
      cases state : n.state <;> simp_all [State.rank]
    · exact .inl of

/-- After an announcement that was made ready comes the selected one, or a ready one of at
    least its priority. -/
theorem next_of_selected (mem : sel ∈ index) (of : sel.txhash = it.txhash)
    (isSelected : sel.isSelected) (ne : sel ≠ it) :
    ∃ n, OrderedView.next view (it.setState .candidateReady) = some n ∧ n ∈ index ∧ n ≠ it ∧
      n.txhash = it.txhash ∧
      (n.isSelected ∨ n.state = .candidateReady ∧ priority sipHash it ≤ priority sipHash n) := by
  have inIt : it.setState .candidateReady ∈ readied index it := (mem_readied member).mpr (.inl rfl)
  have ranks : 1 < sel.state.rank ∧ sel.state.rank < 4 := by
    rcases isSelected_iff.mp isSelected with state | state <;> simp [state, State.rank]
  obtain ⟨n, found, inN, ofN, later, rank⟩ := exists_next shows inIt
    ((mem_readied member).mpr (.inr ⟨mem, ne⟩)) of ranks.1
  have other := (shows.of_next nodup inIt found).2.1
  rcases (mem_readied member).mp inN with same | ⟨inN, otherN⟩
  · exact absurd same other
  refine ⟨n, found, inN, otherN, ofN, ?_⟩
  have above := rank_le_of_key later ofN.symm
  cases state : n.state with
  | candidateDelayed => simp [state, State.rank] at above
  | candidateReady =>
    have better := priority_le_of_key later ofN.symm rfl state
    exact .inr ⟨rfl, by simpa using better⟩
  | candidateBest => simp [state]
  | requested => simp [state]
  | completed =>
    rw [state, State.rank] at rank
    omega

end Readied

theorem promoteCandidateReady_spec (sane : Sane sipHash index) (member : it ∈ index)
    (delayed : it.state = .candidateDelayed) :
    Ensures bad (promoteCandidateReady views (holding sequence revision index) it)
      (Holds sequence (Reselected sipHash index it State.Selectable)) := by
  have nodup : (readied index it).Nodup :=
    List.Nodup.of_map (·.slot) (by rw [readied, map_slot_reassign]; exact sane.unique)
  have toBest : modify (holding sequence (revision + 1) (readied index it))
      (it.setState .candidateReady) (it.setState .candidateBest) =
      .ok (holding sequence (revision + 2)
        (reassign index (update (·.state) it .candidateBest))) := by
    have run := @modify_reassign _ sequence (revision + 1)
      (update (·.state) it .candidateReady) .candidateBest _ sane.unique member
    simpa [readied] using run
  have shows := @shows_byTxHash _ views (readied index it) sequence (revision + 1)
  rw [promoteCandidateReady]
  refine .bindOk (assert_eq_ok.mpr (decide_eq_true delayed))
    (.bindOk (modify_state sane.unique member) ?_)
  rw [← readied]
  rcases sane.settled it.txhash with idle | ⟨w, inW, ofW, isSelected, -⟩
  · rw [toBest]
    have done := promote_idle sane member idle
    split
    · exact .pure ⟨_, _, rfl, done⟩
    · rename_i n found
      simp only [setState_toSource, next_of_idle member nodup shows idle found, if_true]
      exact .pure ⟨_, _, rfl, done⟩
  have ne : w ≠ it := by
    rintro rfl
    simp [delayed] at isSelected
  obtain ⟨n, found, inN, otherN, ofN, kind⟩ :=
    next_of_selected member nodup shows inW ofW isSelected ne
  have notOver : ¬(n.txhash ≠ it.txhash ∨ n.state = .completed) := by
    rcases kind with sel | ⟨ready, -⟩
    · rcases isSelected_iff.mp sel with state | state <;> simp [ofN, state]
    · simp [ofN, ready]
  simp only [found, setState_toSource, priority_setState, gt_iff_lt, notOver, if_false]
  split
  · rename_i best
    split
    · rename_i above
      have demoted := @modify_reassign _ sequence (revision + 1)
        (update (·.state) it .candidateReady) .candidateReady _ sane.unique inN
      have promoted := @modify_reassign _ sequence (revision + 2)
        (update (update (·.state) it .candidateReady) n .candidateReady)
        .candidateBest _ sane.unique member
      have merged (old new : State) : update (update
          (update (·.state) it old) n .candidateReady) it new =
          update (update (·.state) n .candidateReady) it new := by
        rw [update_comm otherN.symm, update_idem]
      simp only [otherN, ne_eq, not_false_eq_true, update_of_ne,
        setState_self] at demoted
      simp only [otherN.symm, ne_eq, not_false_eq_true, update_of_ne,
        update_self, merged] at promoted
      refine .bindOk demoted ?_
      rw [promoted]
      exact .pure ⟨_, _, rfl, promote_better sane member inN ofN best above⟩
    · rename_i notAbove
      exact .pure ⟨_, _, rfl, promote_ready sane member inN ofN (by simp [best]) otherN fun _ =>
        UInt64.not_lt.mp notAbove⟩
  · rename_i notBest
    refine .pure ⟨_, _, rfl, ?_⟩
    rcases kind with sel | ⟨ready, le⟩
    · exact promote_ready sane member inN ofN sel otherN fun best => absurd best notBest
    apply promote_ready sane member inW ofW isSelected ne
    intro best
    have other : n ≠ w := by
      rintro rfl
      simp [ready] at isSelected
    have lt := sane.others_of_selected inW isSelected inN (ofN.trans ofW.symm) other
    exact UInt64.le_trans le (lt.2 ready best)

section Leave

variable {state : State} (sane : Sane sipHash index) (member : it ∈ index)
include sane member

/-- Before a selected announcement comes the ready one of the highest priority. -/
theorem prev_of_ready (shows : Shows (byTxHashKey sipHash) index view) (sel : it.isSelected)
    (mem : ready ∈ index) (of : ready.txhash = it.txhash)
    (isReady : ready.state = .candidateReady) :
    ∃ p, OrderedView.prev view it = some p ∧ p ∈ index ∧ p.txhash = it.txhash ∧
      p.state = .candidateReady ∧ priority sipHash ready ≤ priority sipHash p := by
  have lt : ready.state.rank < it.state.rank := by
    rcases isSelected_iff.mp sel with state | state <;> simp [isReady, state, State.rank]
  obtain ⟨p, found, inP, other, ofP, later, rank⟩ := exists_prev shows member mem of lt
  have notSelected := (sane.others_of_selected member sel inP ofP other).1
  have above := rank_le_of_key later (of.trans ofP.symm)
  have isReadyP : p.state = .candidateReady := by
    cases state : p.state with
    | candidateDelayed => simp [isReady, state, State.rank] at above
    | candidateReady => rfl
    | candidateBest => simp [state] at notSelected
    | requested => simp [state] at notSelected
    | completed =>
      rcases isSelected_iff.mp sel with sel | sel <;>
        simp [state, sel, State.rank] at rank
  exact ⟨p, found, inP, ofP, isReadyP,
    priority_le_of_key later (of.trans ofP.symm) isReady isReadyP⟩

variable (new : state = .completed ∨ state = .candidateDelayed)
include new

theorem reselect (sel : it.isSelected) (mem : best ∈ index) (of : best.txhash = it.txhash)
    (isReady : best.state = .candidateReady)
    (highest : ∀ a ∈ index, a.txhash = it.txhash → a.state = .candidateReady →
      priority sipHash a ≤ priority sipHash best) :
    Reselected sipHash index it (· = state)
      (reassign index (update (update (·.state) best .candidateBest) it state)) := by
  have ne : best ≠ it := by
    rintro rfl
    simp [isReady] at sel
  apply sane.reselected (reselects_swap of (by simp [isReady]) (.inr rfl)) (by simp)
  case settled =>
    refine .inr ⟨best, mem, of, by simp [ne], ?_⟩
    intro a inA ofA other
    by_cases same : a = it
    · subst same
      rcases new with rfl | rfl <;> simp
    · have lt := (sane.others_of_selected member sel inA ofA same).1
      rw [isSelected_iff] at lt
      simpa [other, same, ne, lt] using highest a inA ofA
  case alive => exact ⟨best, mem, of, by simp [ne]⟩

variable (alive : state = .candidateDelayed ∨
  ∃ a ∈ index, a ≠ it ∧ a.txhash = it.txhash ∧ a.state ≠ .completed)
include alive

theorem leave
    (free : it.isSelected → ∀ a ∈ index, a.txhash = it.txhash → a.state ≠ .candidateReady) :
    Reselected sipHash index it (· = state) (reassign index (update (·.state) it state)) := by
  apply sane.reselected reselects_update (by simp)
  case settled =>
    by_cases quiet : ∀ a ∈ index, a.txhash = it.txhash → a ≠ it →
      ¬a.isSelected ∧ a.state ≠ .candidateReady
    · refine .inl ?_
      intro a inA ofA
      by_cases same : a = it
      · subst same
        simpa using new.symm
      · cases state : a.state <;> simp_all
    rcases sane.settled it.txhash with idle | ⟨w, inW, ofW, isSelected, others⟩
    · exact absurd (fun a inA ofA _ => idle a inA ofA) quiet
    have ne : w ≠ it := by
      rintro rfl
      exact quiet fun a inA ofA other => ⟨(others a inA ofA other).1, free isSelected a inA ofA⟩
    refine .inr ⟨w, inW, ofW, by simpa [ne] using isSelected, ?_⟩
    intro a inA ofA other
    by_cases same : a = it
    · subst same
      rcases new with rfl | rfl <;> simp
    · simpa [ne, same] using others a inA ofA other
  case alive =>
    rcases alive with rfl | ⟨a, inA, other, of, open_⟩
    · exact ⟨it, member, rfl, by simp⟩
    · exact ⟨a, inA, of, by simpa [other] using open_⟩

theorem changeAndReselect_spec :
    Ensures bad (changeAndReselect views (holding sequence revision index) it state)
      (Holds sequence (Reselected sipHash index it (· = state))) := by
  have single := @modify_state _ sequence revision state _ sane.unique member
  have shows := @shows_byTxHash _ views index sequence revision
  rw [changeAndReselect]
  refine .bindOk (assert_eq_ok.mpr (by simpa using new)) ?_
  rw [single]
  split
  · rename_i sel
    by_cases someReady : ∃ a ∈ index, a.txhash = it.txhash ∧ a.state = .candidateReady
    · obtain ⟨ready, inReady, of, isReady⟩ := someReady
      obtain ⟨p, found, inP, ofP, isReadyP, -⟩ := prev_of_ready sane member shows sel inReady of
        isReady
      have highest (a : Announcement) (inA : a ∈ index) (ofA : a.txhash = it.txhash)
          (isReady : a.state = .candidateReady) : priority sipHash a ≤ priority sipHash p := by
        obtain ⟨q, foundQ, -, -, -, le⟩ := prev_of_ready sane member shows sel inA ofA isReady
        rwa [Option.some.inj (foundQ.symm.trans found)] at le
      have ne : it ≠ p := by
        rintro rfl
        simp [isReadyP] at sel
      have second := @modify_reassign _ sequence (revision + 1)
        (update (·.state) p .candidateBest) state _ sane.unique member
      simp only [ne, ne_eq, not_false_eq_true, update_of_ne,
        setState_self] at second
      simp only [found, ofP, isReadyP, and_self, if_true]
      refine .bindOk (modify_state sane.unique inP) ?_
      rw [second]
      exact .pure ⟨_, _, rfl, reselect sane member new sel inP ofP isReadyP highest⟩
    · have noReady : ∀ a ∈ index, a.txhash = it.txhash → a.state ≠ .candidateReady :=
        fun a inA of isReady => someReady ⟨a, inA, of, isReady⟩
      have left := leave sane member new alive fun _ => noReady
      split
      · exact .pure ⟨_, _, rfl, left⟩
      · rename_i p found
        rw [if_neg fun both => noReady p (shows.of_prev member found).1 both.1 both.2]
        exact .pure ⟨_, _, rfl, left⟩
  · rename_i notSelected
    exact .pure ⟨_, _, rfl, leave sane member new alive fun sel => absurd sel notSelected⟩

end Leave

section Complete

theorem isOnlyNonCompleted_spec (nodup : index.Nodup) (member : it ∈ index)
    (ne : it.state ≠ .completed) :
    Ensures bad (isOnlyNonCompleted views (holding sequence revision index) it) fun only =>
      only = true ↔ ∀ a ∈ index, a.txhash = it.txhash → a ≠ it → a.state = .completed := by
  have shows := @shows_byTxHash _ views index sequence revision
  have low : it.state.rank < 4 := by
    cases state : it.state <;> simp_all [State.rank]
  rw [isOnlyNonCompleted]
  refine .bindOk (assert_eq_ok.mpr (decide_eq_true ne)) ?_
  dsimp only
  split
  · rename_i before
    refine .pure (iff_of_false Bool.false_ne_true fun all => ?_)
    obtain ⟨p, found, same⟩ := (Option.any_eq_true _ _).mp before
    obtain ⟨inP, other, earlier⟩ := shows.of_prev member found
    have rank := rank_le_of_key earlier (of_decide_eq_true same)
    rw [all p inP (of_decide_eq_true same) other] at rank
    exact absurd rank (not_le.mpr low)
  rename_i before
  split
  · rename_i behind
    refine .pure (iff_of_false Bool.false_ne_true fun all => ?_)
    obtain ⟨n, found, same⟩ := (Option.any_eq_true _ _).mp behind
    obtain ⟨inN, other, -⟩ := shows.of_next nodup member found
    have both := of_decide_eq_true same
    exact both.2 (all n inN both.1 other)
  rename_i behind
  refine .pure (iff_of_true rfl fun a inA of other => ?_)
  rcases shows.neighbours member inA other with ⟨p, found, -, -, le, earlier⟩ |
    ⟨n, found, -, later, le⟩
  · have same := (txhash_between le earlier of).trans of
    simp [found, same] at before
  · have same := txhash_between later le of.symm
    have rank := rank_le_of_key le (same.trans of.symm)
    cases state : a.state <;> simp_all [State.rank]

theorem Sane.forget (sane : Sane sipHash index) (txhash : Uint256) :
    Sane sipHash (index.filter (·.txhash ≠ txhash)) := by
  apply @Sane.of_frame sipHash index txhash sane
  case unique => exact (filter_sublist.map _).nodup sane.unique
  case frame =>
    intro a other
    simp [other]
  case settled =>
    refine .inl fun a member of => ?_
    simp [of] at member
  case alive =>
    intro a member of
    simp [of] at member

/-- What is left once `it` is completed: the others as they were, or nothing of its txhash. -/
inductive Completes (index : List Announcement) (it : Announcement) :
    Bool → List Announcement → Prop
  | kept {states : Announcement → State} (reselects : Reselects index it states)
      (completed : states it = .completed) : Completes index it true (reassign index states)
  | gone (rest : ∀ a ∈ index, a.txhash = it.txhash → a ≠ it → a.state = .completed) :
      Completes index it false (index.filter (·.txhash ≠ it.txhash))

theorem Completes.ordered {kept rest} (completes : Completes index it kept rest) :
    (rest.map (·.sequence)).Sublist (index.map (·.sequence)) := by
  cases completes with
  | kept => rw [reassign, map_map]; rfl
  | gone => exact filter_sublist.map _

theorem makeCompleted_spec (sane : Sane sipHash index) (member : it ∈ index) :
    Ensures bad (makeCompleted views (holding sequence revision index) it) fun res =>
      Holds sequence (fun remaining => Sane sipHash remaining ∧
        Completes index it res.1 remaining) res.2 := by
  rw [makeCompleted]
  split
  · rename_i over_
    have same : Completes index it true (reassign index (·.state)) :=
      .kept (fun a _ _ => .inl rfl) over_
    rw [reassign_state] at same
    exact .pure ⟨revision, index, rfl, sane, same⟩
  rename_i over_
  refine (isOnlyNonCompleted_spec views sane.nodup member over_).bind fun only meaning => ?_
  cases only with
  | true =>
    have rest := meaning.mp rfl
    have shows := @shows_byTxHash _ views index sequence revision
    refine (eraseAll_txhash it.txhash sane.nodup
      (shows.nodup_following sane.nodup member) fun a => ?_).bind ?_
    · rw [shows.mem_cons_following member (decide_eq_true rfl), decide_eq_true_iff]
      · intro b _ c _ low high ofC
        exact decide_eq_true (txhash_between low high (of_decide_eq_true ofC).symm)
      · intro b inB ofB other
        apply key_lt_of_rank (of_decide_eq_true ofB).symm
        cases state : it.state <;> simp_all [State.rank]
    · rintro _ ⟨after, _, rfl, rfl⟩
      exact .pure ⟨after, _, rfl, sane.forget it.txhash, .gone rest⟩
  | false =>
    have another : ∃ a ∈ index, a ≠ it ∧ a.txhash = it.txhash ∧ a.state ≠ .completed := by
      by_contra none
      have all : ∀ a ∈ index, a.txhash = it.txhash → a ≠ it → a.state = .completed := by
        intro a inA of other
        by_contra open_
        exact none ⟨a, inA, other, of, open_⟩
      exact absurd (meaning.mpr all) (by simp)
    refine (changeAndReselect_spec views sane member (.inl rfl) (.inr another)).bind ?_
    rintro _ ⟨after, _, rfl, states, rfl, whole, reselects, completed⟩
    exact .pure ⟨after, _, rfl, whole, .kept reselects completed⟩

end Complete

end HobbyHash.TxRequest
