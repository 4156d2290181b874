import HobbyHash.TxRequest.Reselection

/-! # Records and the passing of time

The records of the specification are the announcements without the marks of which one
is delayed, ready or best. `MakeCompleted` and `SetTimePoint` act on them as the
specification says. The loops of `SetTimePoint` handle each announcement at most once;
after them no waiting announcement is due, and no other candidate is early.
-/

namespace HobbyHash.TxRequest

open Machine Library Naive List Function Announcement Record

variable {remaining middle : List Announcement} {kept : Bool} {more : List (NodeId × GenTxid)}
  {ann : Announcement}

variable {sipHash : Uint256 → NodeId → UInt64} (views : Views sipHash)
  {index : List Announcement} {bad : Fault → Prop} {sequence revision : Nat} {it : Announcement}

def Announcement.forget (ann : Announcement) : Record :=
  { ann.toSource with
    status := match ann.state with
      | .candidateDelayed | .candidateReady | .candidateBest => .candidate ann.time
      | .requested => .requested ann.time
      | .completed => .completed }

section Forget

variable {ann : Announcement}

@[simp] theorem forget_completed_iff : ann.forget.status = .completed ↔ ann.state = .completed := by
  cases state : ann.state <;> simp [forget, state]

@[simp] theorem forget_isCandidate :
    ann.forget.isCandidate = true ↔
      ann.state = .candidateDelayed ∨ ann.state = .candidateReady ∨ ann.state = .candidateBest := by
  cases state : ann.state <;> simp [forget, isCandidate, state]

@[simp] theorem forget_isRequested : ann.forget.isRequested = true ↔ ann.state = .requested := by
  cases state : ann.state <;> simp [forget, isRequested, state]

@[simp] theorem forget_isExpired {now} :
    ann.forget.isExpired now = true ↔ ann.state = .requested ∧ ann.time ≤ now := by
  cases state : ann.state <;> simp [forget, isExpired, state]

@[simp] theorem forget_isOf :
    ann.forget.isOf peer txhash = true ↔ ann.peer = peer ∧ ann.txhash = txhash := by
  rw [isOf, Bool.and_eq_true, decide_eq_true_iff, decide_eq_true_iff]
  rfl

theorem forget_setState_completed :
    (ann.setState .completed).forget = ann.forget.setStatus .completed := rfl

theorem forget_of_selectable {state} (selectable : ann.isSelectable)
    (new : state = .candidateReady ∨ state = .candidateBest) :
    (ann.setState state).forget = ann.forget := by
  rcases isSelectable_iff.mp selectable with old | old <;>
    rcases new with rfl | rfl <;> simp [forget, setState, old]

theorem Reselects.forget_eq {states} (reselects : Reselects index it states) (mem : ann ∈ index)
    (ne : ann ≠ it) : (ann.setState (states ann)).forget = ann.forget := by
  rcases reselects ann mem ne with same | ⟨-, selectable, new⟩
  · rw [same, setState_self]
  · exact forget_of_selectable selectable new

end Forget

theorem Sane.cleanup_forget (sane : Sane sipHash index) :
    cleanup (index.map (·.forget)) = index.map (·.forget) := by
  apply cleanup_eq_self
  intro r mem
  obtain ⟨a, inA, rfl⟩ := mem_map.mp mem
  obtain ⟨b, inB, same, open_⟩ := sane.alive a inA
  exact ⟨b.forget, mem_map.mpr ⟨b, inB, rfl⟩, same, by simpa using open_⟩

theorem complete_complete {records some_ all} (within : ∀ r ∈ records, some_ r → all r) :
    complete all (complete some_ records) = complete all records := by
  rw [complete, complete, complete, ← filterMap_eq_map, cleanup_filterMap_cleanup]
  · rw [filterMap_eq_map, map_map]
    congr 1
    apply map_congr_left
    intro r mem
    by_cases early : some_ r
    · simp [early, within r mem early, setStatus]
    · simp [early]
  · intro r q changed
    simp only [comp_apply, Option.some.injEq] at changed
    subst changed
    split
    · rfl
    · rfl
  intro r q changed isOver
  simp only [comp_apply, Option.some.injEq] at changed
  subst changed
  split
  · rfl
  · exact isOver

theorem map_forget_makeCompleted (sane : Sane sipHash index) (mem : it ∈ index)
    (whole : Sane sipHash remaining) (outcome : Completes index it kept remaining) :
    remaining.map (·.forget) = complete (isOf it.peer it.txhash) (index.map (·.forget)) := by
  have isOf (a : Announcement) (inA : a ∈ index) :
      a.forget.isOf it.peer it.txhash = true ↔ a = it := by
    rw [forget_isOf]
    exact ⟨fun same => sane.eq_of_slot inA mem same.1 same.2, by rintro rfl; exact ⟨rfl, rfl⟩⟩
  rcases outcome with @⟨states, reselects, completed⟩ | ⟨rest⟩
  · rw [← whole.cleanup_forget, complete, reassign, map_map, map_map]
    congr 1
    apply map_congr_left
    intro a inA
    by_cases same : a = it
    · subst same
      simp [(isOf a inA).mpr rfl, completed, forget_setState_completed]
    · simp only [comp_apply, mt (isOf a inA).mp same, Bool.false_eq_true, if_false]
      exact reselects.forget_eq inA same
  · let mark (a : Announcement) : Record :=
      if a.forget.isOf it.peer it.txhash then a.forget.setStatus .completed else a.forget
    have txhash (a : Announcement) : (mark a).txhash = a.txhash := by
      dsimp only [mark]
      split
      · rfl
      · rfl
    have isOver (a : Announcement) (inA : a ∈ index) (of : a.txhash = it.txhash) :
        (mark a).status = .completed := by
      by_cases same : a = it
      · rw [show mark a = _ from if_pos ((isOf a inA).mpr same)]
        rfl
      · rw [show mark a = _ from if_neg (mt (isOf a inA).mp same)]
        simpa using rest a inA of same
    have others (a : Announcement) (other : a.txhash ≠ it.txhash) : mark a = a.forget :=
      if_neg fun same => other (forget_isOf.mp same).2
    have kept : (index.map mark).filter (fun r => r.txhash ≠ it.txhash) =
        (index.filter (·.txhash ≠ it.txhash)).map (·.forget) := by
      rw [filter_map]
      simp only [comp_def, txhash]
      apply map_congr_left
      intro a inA
      exact others a (by simpa using (mem_filter.mp inA).2)
    rw [← whole.cleanup_forget, ← kept, cleanup_filter, complete, map_map]
    · rfl
    · intro r q same
      rw [same]
    · intro r mem open_
      obtain ⟨a, inA, rfl⟩ := mem_map.mp mem
      simpa [txhash] using fun of => open_ (isOver a inA of)

section Time

variable {now : Int}

/-- A delayed candidate or a request whose time has come. -/
def due (now : Int) (ann : Announcement) : Bool := ann.isWaiting && ann.time ≤ now

/-- A candidate marked as ready whose time has not come. -/
def early (now : Int) (ann : Announcement) : Bool := ann.isSelectable && now < ann.time

theorem due_iff :
    due now ann = true ↔
      (ann.state = .requested ∨ ann.state = .candidateDelayed) ∧ ann.time ≤ now := by
  simp [due]

theorem early_iff :
    early now ann = true ↔ ann.isSelectable ∧ now < ann.time := by
  simp [early]

theorem countP_lt_of_mem {p q a} (mem : a ∈ index) (within : ∀ b ∈ index, p b → q b) (gained : q a)
    (lost : ¬p a) :
    index.countP p < index.countP q := by
  obtain ⟨front, back, rfl⟩ := append_of_mem mem
  have le : front.countP p ≤ front.countP q :=
    countP_mono_left fun b inB => within b (by simp [inB])
  have behind : back.countP p ≤ back.countP q :=
    countP_mono_left fun b inB => within b (by simp [inB])
  simp only [countP_append, countP_cons, gained, lost]
  simp
  omega

theorem shows_byTime :
    OrderedView.Shows byTimeKey index (byTime views (holding sequence revision index)) :=
  (views.byTime revision).shows index

theorem due_of_key (le : byTimeKey it ≤ byTimeKey a) (isDue : due now a) :
    due now it := by
  simp only [due, Bool.and_eq_true, decide_eq_true_eq] at isDue ⊢
  rw [byTimeKey, byTimeKey, Prod.Lex.toLex_le_toLex, getWaitState, getWaitState,
    if_pos isDue.1] at le
  by_cases waiting : it.isWaiting
  · rw [if_pos waiting] at le
    simp only [lt_irrefl, true_and, false_or] at le
    exact ⟨waiting, le.trans isDue.2⟩
  · rw [if_neg waiting] at le
    split at le <;> simp at le

theorem early_of_key (le : byTimeKey a ≤ byTimeKey it) (isEarly : early now a) :
    early now it := by
  simp only [early, Bool.and_eq_true, decide_eq_true_eq] at isEarly ⊢
  have notWaiting : ¬a.isWaiting := by
    rcases isSelectable_iff.mp isEarly.1 with state | state <;> simp [state]
  rw [byTimeKey, byTimeKey, Prod.Lex.toLex_le_toLex, getWaitState, getWaitState,
    if_neg notWaiting, if_pos isEarly.1] at le
  by_cases selectable : it.isSelectable
  · refine ⟨selectable, ?_⟩
    split at le
    · simp at le
    · simp only [lt_irrefl, true_and, false_or] at le
      exact isEarly.2.trans_le le
  · split at le <;> simp at le

def isOverdue (now : Int) (ann : Announcement) : Bool := ann.state = .requested && ann.time ≤ now

def request (ann : Announcement) : NodeId × GenTxid := (ann.peer, ann.toGenTxid)

theorem due_of_isOverdue (overdue : isOverdue now it) : due now it := by
  simp only [isOverdue, due, Bool.and_eq_true, decide_eq_true_eq, isWaiting_iff]
    at overdue ⊢
  exact ⟨.inl overdue.1, overdue.2⟩

section States

variable {states : Announcement → State} {a : Announcement}

variable (reselects : Reselects index it states)
include reselects

/-- A test that no selectable announcement passes is not affected by reselection. -/
theorem Reselects.test_iff (mem : a ∈ index) (ne : a ≠ it) {test : Announcement → Bool}
    (fails : ∀ b, b.state = .candidateReady ∨ b.state = .candidateBest → test b = false) :
    test (a.setState (states a)) = test a := by
  rcases reselects a mem ne with same | ⟨-, selectable, new⟩
  · rw [same, setState_self]
  · rw [fails _ new, fails a (isSelectable_iff.mp selectable)]

theorem Reselects.due_iff (mem : a ∈ index) (ne : a ≠ it) :
    due now (a.setState (states a)) = due now a :=
  reselects.test_iff mem ne fun b state => by
    rcases state with state | state <;> simp [due, isWaiting, state]

theorem Reselects.isOverdue_iff (mem : a ∈ index) (ne : a ≠ it) :
    isOverdue now (a.setState (states a)) = isOverdue now a :=
  reselects.test_iff mem ne fun b state => by
    rcases state with state | state <;> simp [isOverdue, state]

theorem countP_due_reassign (mem : it ∈ index) (isDue : due now it)
    (served : states it ≠ .requested ∧ states it ≠ .candidateDelayed) :
    (reassign index states).countP (due now) < index.countP (due now) := by
  rw [reassign, countP_map]
  have stopped : due now (it.setState (states it)) = false := by
    simp [due, isWaiting, served]
  apply countP_lt_of_mem mem
  · intro b inB isDueB
    by_cases same : b = it
    · rw [same]
      exact isDue
    · rwa [comp_apply, reselects.due_iff inB same] at isDueB
  · exact isDue
  · simp [stopped]

end States

theorem map_sequence_reassign (states : Announcement → State) :
    (reassign index states).map (·.sequence) = index.map (·.sequence) := by
  rw [reassign, map_map]
  rfl

theorem filter_isOverdue_makeCompleted (outcome : Completes index it kept remaining) :
    (remaining.filter (isOverdue now)).map request =
      (index.filter fun a => isOverdue now a && a ≠ it).map request := by
  rcases outcome with @⟨states, reselects, done⟩ | ⟨rest⟩
  · rw [reassign, filter_map, map_map]
    have same : ∀ a ∈ index, (isOverdue now ∘ fun a => a.setState (states a)) a =
        (isOverdue now a && decide (a ≠ it)) := by
      intro a inA
      by_cases here : a = it
      · simp [here, isOverdue, done]
      · simp [here, reselects.isOverdue_iff inA here]
    rw [filter_congr same]
    rfl
  · rw [filter_filter]
    congr 1
    apply filter_congr
    intro a inA
    by_cases of : a.txhash = it.txhash
    · by_cases here : a = it
      · simp [here]
      · simp [of, isOverdue, rest a inA of here]
    · have ne : a ≠ it := by rintro rfl; exact of rfl
      simp [of, ne]

theorem perm_filter_cons (nodup : index.Nodup) (mem : it ∈ index) {p} (holds : p it) :
    (index.filter p).Perm (it :: index.filter fun a => p a && a ≠ it) := by
  apply (perm_cons_erase (mem_filter.mpr ⟨mem, holds⟩)).trans
  rw [(nodup.filter p).erase_eq_filter, filter_filter]
  apply List.Perm.cons
  apply List.Perm.of_eq
  apply filter_congr
  intro a _
  by_cases same : a = it
  · simp [same]
  · simp [same]

variable {states : Announcement → State}

theorem map_forget_promote (reselects : Reselects index it states)
    (delayed : it.state = .candidateDelayed)
    (new : states it = .candidateReady ∨ states it = .candidateBest) :
    (reassign index states).map (·.forget) = index.map (·.forget) := by
  rw [reassign, map_map]
  apply map_congr_left
  intro a inA
  by_cases same : a = it
  · subst same
    rcases new with new | new <;>
      simp [forget, setState, delayed, new]
  · exact reselects.forget_eq inA same

theorem filter_isOverdue_promote (reselects : Reselects index it states)
    (delayed : it.state = .candidateDelayed)
    (new : states it = .candidateReady ∨ states it = .candidateBest) :
    ((reassign index states).filter (isOverdue now)).map request =
      (index.filter (isOverdue now)).map request := by
  rw [reassign, filter_map, map_map]
  have same : ∀ a ∈ index, (isOverdue now ∘ fun a => a.setState (states a)) a =
      isOverdue now a := by
    intro a inA
    by_cases here : a = it
    · subst here
      rcases new with new | new <;> simp [isOverdue, delayed, new]
    · exact reselects.isOverdue_iff inA here
  rw [filter_congr same]
  rfl

/-- What the first loop of `SetTimePoint` achieves. -/
structure Expires (sipHash : Uint256 → NodeId → UInt64) (now : Int)
    (index remaining : List Announcement) (more : List (NodeId × GenTxid)) : Prop where
  sane : Sane sipHash remaining
  records : remaining.map (·.forget) = complete (isExpired now) (index.map (·.forget))
  reported : more.Perm ((index.filter (isOverdue now)).map request)
  done : ∀ a ∈ remaining, ¬due now a
  ordered : (remaining.map (·.sequence)).Sublist (index.map (·.sequence))

theorem expires_nothing (sane : Sane sipHash index) (none : ∀ a ∈ index, ¬due now a) :
    Expires sipHash now index index [] := by
  have noneOverdue : index.filter (isOverdue now) = [] :=
    filter_eq_nil_iff.mpr fun a inA overdue => none a inA (due_of_isOverdue overdue)
  constructor
  case sane => exact sane
  case records =>
    have same : ∀ a ∈ index,
      ((fun r : Record => if r.isExpired now then r.setStatus .completed else r)
        ∘ fun a => a.forget) a = a.forget := by
      intro a inA
      have notExpired : ¬a.forget.isExpired now := by
        rw [forget_isExpired]
        intro overdue
        exact none a inA (due_iff.mpr ⟨.inl overdue.1, overdue.2⟩)
      simp [notExpired]
    rw [complete, map_map, map_congr_left same, sane.cleanup_forget]
  case reported => simp [noneOverdue]
  case done => exact none
  case ordered => exact .refl _

theorem Expires.after_promote (rest : Expires sipHash now (reassign index states) remaining more)
    (reselects : Reselects index it states) (delayed : it.state = .candidateDelayed)
    (new : states it = .candidateReady ∨ states it = .candidateBest) :
    Expires sipHash now index remaining more where
  sane := rest.sane
  records := by rw [rest.records, map_forget_promote reselects delayed new]
  reported := by
    have reported := rest.reported
    rwa [filter_isOverdue_promote reselects delayed new] at reported
  done := rest.done
  ordered := by
    have ordered := rest.ordered
    rwa [map_sequence_reassign] at ordered

theorem Expires.after_makeCompleted (rest : Expires sipHash now middle remaining more)
    (sane : Sane sipHash index) (mem : it ∈ index) (overdue : isOverdue now it)
    (whole : Sane sipHash middle) (outcome : Completes index it kept middle) :
    Expires sipHash now index remaining (request it :: more) where
  sane := rest.sane
  records := by
    rw [rest.records, map_forget_makeCompleted sane mem whole outcome, complete_complete]
    intro r inRecords isOf
    obtain ⟨a, inA, rfl⟩ := mem_map.mp inRecords
    obtain ⟨peer, txhash⟩ := forget_isOf.mp isOf
    rw [sane.eq_of_slot inA mem peer txhash, forget_isExpired]
    simpa [isOverdue] using overdue
  reported := by
    have reported := rest.reported
    rw [filter_isOverdue_makeCompleted outcome] at reported
    exact (reported.cons _).trans ((perm_filter_cons sane.nodup mem overdue).map request).symm
  done := rest.done
  ordered := rest.ordered.trans outcome.ordered

theorem countP_due_makeCompleted (mem : it ∈ index) (overdue : isOverdue now it)
    (outcome : Completes index it kept middle) :
    middle.countP (due now) < index.countP (due now) := by
  rcases outcome with @⟨states, reselects, done⟩ | -
  · exact countP_due_reassign reselects mem (due_of_isOverdue overdue) (by simp [done])
  rw [countP_filter]
  apply countP_lt_of_mem mem
  · intro b _ both
    exact (Bool.and_eq_true_iff.mp both).1
  · exact due_of_isOverdue overdue
  · simp

theorem expireLoop_spec (fuel : Nat) (expired : List (NodeId × GenTxid))
    (sane : Sane sipHash index) (lt : index.countP (due now) < fuel) :
    Ensures bad (expireLoop views now fuel (holding sequence revision index) expired) fun res =>
      ∃ more, res.2 = expired ++ more ∧
        Holds sequence (Expires sipHash now index · more) res.1 := by
  induction fuel generalizing index revision expired with
  | zero => omega
  | succ fuel ih =>
    have shows := @shows_byTime _ views index sequence revision
    rw [expireLoop]
    split
    · rename_i empty
      refine .pure ⟨[], (append_nil _).symm, _, _, rfl, expires_nothing sane fun a inA => ?_⟩
      have inView := shows.mem_iff.mpr inA
      rw [head?_eq_none_iff.mp empty] at inView
      cases inView
    rename_i it first
    have mem : it ∈ index := shows.mem_iff.mp (mem_of_mem_head? first)
    split
    · rename_i ready
      refine (promoteCandidateReady_spec views sane mem ready.1).bind ?_
      rintro _ ⟨after, _, rfl, states, rfl, whole, reselects, new⟩
      have fewer := countP_due_reassign reselects mem (due_iff.mpr ⟨.inr ready.1, ready.2⟩)
        (by rcases new with new | new <;> simp [new])
      refine (ih expired whole (by omega)).mono ?_
      rintro _ ⟨more, reported, last, remaining, isLast, rest⟩
      exact ⟨more, reported, last, remaining, isLast, rest.after_promote reselects ready.1 new⟩
    rename_i notReady
    split
    · rename_i overdue
      have isOverdue_ : isOverdue now it := by simpa [isOverdue] using overdue
      refine (makeCompleted_spec views sane mem).bind ?_
      rintro ⟨kept, _⟩ ⟨after, middle, rfl, whole, outcome⟩
      have fewer := countP_due_makeCompleted mem isOverdue_ outcome
      refine (ih (expired ++ [request it]) whole (by omega)).mono ?_
      rintro _ ⟨more, reported, last, remaining, isLast, rest⟩
      exact ⟨request it :: more, by rw [reported, append_assoc]; rfl, last, remaining, isLast,
        rest.after_makeCompleted sane mem isOverdue_ whole outcome⟩
    · rename_i notOverdue
      refine .pure ⟨[], (append_nil _).symm, _, _, rfl, expires_nothing sane fun a inA isDue => ?_⟩
      have isDue := due_iff.mp (due_of_key (shows.head_le first inA) isDue)
      rcases isDue.1 with state | state
      · exact notOverdue ⟨state, isDue.2⟩
      · exact notReady ⟨state, isDue.2⟩

/-- What the second loop of `SetTimePoint` achieves. -/
structure Demotes (sipHash : Uint256 → NodeId → UInt64) (now : Int)
    (index remaining : List Announcement) : Prop where
  sane : Sane sipHash remaining
  records : remaining.map (·.forget) = index.map (·.forget)
  done : ∀ a ∈ remaining, ¬early now a
  waiting : (∀ a ∈ index, ¬due now a) → ∀ a ∈ remaining, ¬due now a
  ordered : remaining.map (·.sequence) = index.map (·.sequence)

section Demote

variable {states : Announcement → State}

theorem countP_early_reassign (reselects : Reselects index it states) (mem : it ∈ index)
    (isEarly : early now it) (delayed : states it = .candidateDelayed) :
    (reassign index states).countP (early now) < index.countP (early now) := by
  rw [reassign, countP_map]
  apply countP_lt_of_mem mem
  · intro b inB isEarlyB
    by_cases same : b = it
    · rw [same]
      exact isEarly
    change early now (b.setState (states b)) at isEarlyB
    rcases reselects b inB same with kept | ⟨-, selectable, -⟩
    · rwa [kept, setState_self] at isEarlyB
    · rw [early_iff] at isEarlyB ⊢
      exact ⟨selectable, isEarlyB.2⟩
  · exact isEarly
  · simp [early, isSelectable, delayed]

theorem Demotes.after_reselect (rest : Demotes sipHash now (reassign index states) remaining)
    (reselects : Reselects index it states) (isEarly : early now it)
    (delayed : states it = .candidateDelayed) : Demotes sipHash now index remaining := by
  rw [early_iff] at isEarly
  constructor
  case sane => exact rest.sane
  case records =>
    rw [rest.records, reassign, map_map]
    apply map_congr_left
    intro a inA
    by_cases same : a = it
    · subst same
      rcases isSelectable_iff.mp isEarly.1 with state | state <;>
        simp [forget, setState, delayed, state]
    · exact reselects.forget_eq inA same
  case done => exact rest.done
  case waiting =>
    intro none
    apply rest.waiting
    intro a inA
    obtain ⟨b, inB, rfl⟩ := mem_map.mp inA
    by_cases same : b = it
    · subst same
      simpa [due_iff] using fun _ => isEarly.2
    · rw [reselects.due_iff inB same]
      exact none b inB
  case ordered => rw [rest.ordered, map_sequence_reassign]

end Demote

theorem demoteLoop_spec (fuel : Nat) (sane : Sane sipHash index)
    (lt : index.countP (early now) < fuel) :
    Ensures bad (demoteLoop views now fuel (holding sequence revision index))
      (Holds sequence (Demotes sipHash now index)) := by
  induction fuel generalizing index revision with
  | zero => omega
  | succ fuel ih =>
    have shows := @shows_byTime _ views index sequence revision
    rw [demoteLoop]
    split
    · rename_i empty
      refine .pure ⟨_, _, rfl, sane, rfl, fun a inA => ?_, id, rfl⟩
      have inView := shows.mem_iff.mpr inA
      rw [getLast?_eq_none_iff.mp empty] at inView
      cases inView
    rename_i it last
    have mem : it ∈ index := shows.mem_iff.mp (mem_of_getLast? last)
    split
    · rename_i back
      have isEarly : early now it := early_iff.mpr back
      refine (changeAndReselect_spec views sane mem (.inr rfl) (.inl rfl)).bind ?_
      rintro _ ⟨after, _, rfl, states, rfl, whole, reselects, delayed⟩
      have fewer := countP_early_reassign reselects mem isEarly delayed
      refine (ih whole (by omega)).mono ?_
      rintro _ ⟨final, remaining, isFinal, rest⟩
      exact ⟨final, remaining, isFinal, rest.after_reselect reselects isEarly delayed⟩
    · rename_i notBack
      refine .pure ⟨_, _, rfl, sane, rfl, fun a inA isEarly => notBack ?_, id, rfl⟩
      exact early_iff.mp (early_of_key (shows.le_getLast last inA) isEarly)

/-- The announcements at a point in time: the records are those of the specification, and
    the marks fit the time. -/
theorem setTimePoint_spec (sane : Sane sipHash index) (now : Int) :
    Ensures bad (setTimePoint views (holding sequence revision index) now) fun res =>
      Holds sequence (fun remaining => Expires sipHash now index remaining res.2 ∧
        ∀ a ∈ remaining, ¬early now a) res.1 := by
  refine (expireLoop_spec views (index.length + 1) [] sane
    (Nat.lt_succ_of_le countP_le_length)).bind ?_
  rintro ⟨_, _⟩ ⟨expired, rfl, after, middle, rfl, expires⟩
  refine (demoteLoop_spec views (middle.length + 1) expires.sane
    (Nat.lt_succ_of_le countP_le_length)).bind ?_
  rintro _ ⟨last, remaining, rfl, demotes⟩
  refine .pure ⟨last, remaining, rfl, ?_, demotes.done⟩
  constructor
  case sane => exact demotes.sane
  case records => rw [demotes.records, expires.records]
  case reported => exact expires.reported
  case done => exact demotes.waiting expires.done
  case ordered => rw [demotes.ordered]; exact expires.ordered

end Time

end HobbyHash.TxRequest
