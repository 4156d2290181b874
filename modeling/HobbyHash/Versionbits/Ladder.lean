import HobbyHash.Chainstate.Index
import HobbyHash.Library.Memo
import HobbyHash.MedianTime
import HobbyHash.Versionbits

/-! # Deployment states along a branch

The plain definition: the state of a block is that of its parent, except that the
first block of a period takes the next state. `GetStateFor` computes it period by
period with a table that is shared by all branches; a table that holds no other
values stays so, because a parent before the start time has only such parents
below it. Along a branch the states climb one rung at a time.
-/

namespace HobbyHash.Versionbits

open Machine CBlockIndex Pow.Schedule Library.Memo Nat

namespace ConditionChecker

variable (checker : ConditionChecker)

/-- The blocks of the last period that meet the condition. -/
def signals (b : CBlockIndex) : Nat :=
  (b.path.reverse.take checker.period).countP checker.condition

/-- The state of the period that follows `b`. -/
def climb (state : ThresholdState) (b : CBlockIndex) : ThresholdState :=
  match state with
  | .defined => if b.getMedianTimePast ≥ checker.beginTime then .started else .defined
  | .started =>
    if (checker.signals b : Int) ≥ checker.threshold then .lockedIn
    else if b.getMedianTimePast ≥ checker.endTime then .failed
    else .started
  | .lockedIn => if (b.nHeight : Int) + 1 ≥ checker.minActivationHeight then .active else .lockedIn
  | .active => .active
  | .failed => .failed

def EndsPeriod (b : CBlockIndex) : Prop := (b.nHeight + 1) % checker.period = 0

instance (b : CBlockIndex) : Decidable (checker.EndsPeriod b) :=
  inferInstanceAs (Decidable (_ = _))

/-- The state of the blocks on top of a block. -/
def stateAfter : CBlockIndex → ThresholdState
  | .genesis f =>
    if checker.EndsPeriod (.genesis f) then checker.climb .defined (.genesis f) else .defined
  | .child p f =>
    if checker.EndsPeriod (.child p f) then checker.climb (stateAfter p) (.child p f)
    else stateAfter p

/-- The first block is defined; the others follow their parents. -/
def stateOnTop (pindexPrev : Option CBlockIndex) : ThresholdState :=
  pindexPrev.elim .defined checker.stateAfter

/-- The state of a block with the given parent, with the two special start times. -/
def plainState (pindexPrev : Option CBlockIndex) : ThresholdState :=
  if checker.beginTime = alwaysActive then .active
  else if checker.beginTime = neverActive then .failed
  else checker.stateOnTop pindexPrev

/-- The state of the block at a height of the branch that ends in `pindexPrev` and a
    block on top of it. -/
def plainStateAt (pindexPrev : Option CBlockIndex) (height : Nat) : ThresholdState :=
  checker.plainState (pindexPrev.bind fun b => b.getAncestor ((height : Int) - 1))

/-- The state of a block on top of `pindexPrev` has held from this height on and not
    from a lower one. -/
structure HoldsSince (pindexPrev : Option CBlockIndex) (height : Nat) : Prop where
  inside : height ≤ pindexPrev.elim 0 (·.nHeight + 1)
  holds : ∀ n, height ≤ n → n ≤ pindexPrev.elim 0 (·.nHeight + 1) →
    checker.plainStateAt pindexPrev n = checker.plainState pindexPrev
  first : ∀ n, n + 1 = height → checker.plainStateAt pindexPrev n ≠ checker.plainState pindexPrev

variable {checker} {a b q : CBlockIndex}

theorem stateAfter_of_not_endsPeriod (lt : ¬ checker.EndsPeriod (child p f)) :
    checker.stateAfter (child p f) = checker.stateAfter p := by
  rw [stateAfter, if_neg lt]

theorem stateAfter_of_period (ends : checker.EndsPeriod q) (lt : Ancestor q a)
    (near : a.nHeight < q.nHeight + checker.period) :
    checker.stateAfter a = checker.stateAfter q := by
  induction lt with
  | refl => rfl
  | @step p f lower ih =>
    have high := lower.nHeight_le
    rw [nHeight_child] at near
    rw [stateAfter_of_not_endsPeriod, ih (by omega)]
    intro endsToo
    rw [EndsPeriod] at ends endsToo
    rw [nHeight_child] at endsToo
    obtain ⟨m, low⟩ := dvd_of_mod_eq_zero ends
    obtain ⟨n, top⟩ := dvd_of_mod_eq_zero endsToo
    have more : m < n := by
      by_contra fewer
      have := mul_le_mul_left checker.period (not_lt.mp fewer)
      omega
    have := mul_le_mul_left checker.period (succ_le_of_lt more)
    rw [mul_succ] at this
    omega

theorem stateAfter_of_first_period (early : b.nHeight + 1 < checker.period) :
    checker.stateAfter b = .defined := by
  have lt : ¬ checker.EndsPeriod b := by
    rw [EndsPeriod, mod_eq_of_lt early]
    exact succ_ne_zero _
  induction b with
  | genesis f => rw [stateAfter, if_neg lt]
  | child p f ih =>
    rw [nHeight_child] at early
    rw [stateAfter_of_not_endsPeriod lt]
    refine ih (by omega) ?_
    rw [EndsPeriod, mod_eq_of_lt (by omega)]
    exact succ_ne_zero _

theorem periodParent_some (found : checker.periodParent b = some q) :
    checker.EndsPeriod q ∧ Ancestor q b ∧ b.nHeight < q.nHeight + checker.period := by
  have height := (getAncestor_eq_some.mp found).2
  have pos := checker.period_pos
  have small := mod_lt (b.nHeight + 1) pos
  refine ⟨?_, ?_, by omega⟩
  · rw [EndsPeriod]
    have split := div_add_mod (b.nHeight + 1) checker.period
    have level : q.nHeight + 1 = checker.period * ((b.nHeight + 1) / checker.period) := by omega
    rw [level, mul_mod_right]
  · rw [periodParent, ← height] at found
    exact getAncestor_eq_some_iff.mp found

theorem periodParent_none (absent : checker.periodParent b = none) :
    b.nHeight + 1 < checker.period := by
  by_contra late
  have pos := checker.period_pos
  have lt : (b.nHeight + 1) % checker.period ≤ b.nHeight := by
    have small := mod_lt (b.nHeight + 1) pos
    omega
  obtain ⟨a, found, -⟩ := @getAncestor_isSome b
    ((b.nHeight : Int) - (((b.nHeight + 1) % checker.period : Nat) : Int)) (by omega) (by omega)
  rw [periodParent, found] at absent
  cases absent

theorem stateOnTop_periodParent (pindexPrev : Option CBlockIndex) :
    checker.stateOnTop (pindexPrev.bind checker.periodParent) = checker.stateOnTop pindexPrev := by
  cases pindexPrev with
  | none => rfl
  | some b =>
    rw [Option.bind_some]
    cases found : checker.periodParent b with
    | none => exact (stateAfter_of_first_period (periodParent_none found)).symm
    | some q =>
      obtain ⟨ends, lt, near⟩ := periodParent_some found
      exact (stateAfter_of_period ends lt near).symm

/-- The last block of the period before the one that `b` ends. -/
def previous (checker : ConditionChecker) (b : CBlockIndex) : Option CBlockIndex :=
  b.getAncestor ((b.nHeight : Int) - checker.period)

section

variable (ends : checker.EndsPeriod b)
include ends

theorem previous_some (found : checker.previous b = some q) :
    checker.EndsPeriod q ∧ Ancestor q b ∧ q.nHeight + checker.period = b.nHeight := by
  have height := (getAncestor_eq_some.mp found).2
  have apart : q.nHeight + checker.period = b.nHeight := by omega
  refine ⟨?_, ?_, apart⟩
  · rw [EndsPeriod, ← apart, add_right_comm, add_mod_right] at ends
    exact ends
  · rw [previous, ← height] at found
    exact getAncestor_eq_some_iff.mp found

theorem previous_none (absent : checker.previous b = none) :
    b.nHeight + 1 = checker.period := by
  have low : b.nHeight < checker.period := by
    by_contra high
    obtain ⟨a, found, -⟩ :=
      @getAncestor_isSome b ((b.nHeight : Int) - checker.period) (by omega) (by omega)
    rw [previous, found] at absent
    cases absent
  have least := le_of_dvd (succ_pos _) (dvd_of_mod_eq_zero ends)
  omega

theorem stateOnTop_pprev :
    checker.stateOnTop b.pprev = checker.stateOnTop (checker.previous b) := by
  have pos := checker.period_pos
  cases found : checker.previous b with
  | none =>
    have height := previous_none ends found
    cases b with
    | genesis f => rfl
    | child p f =>
      rw [nHeight_child] at height
      exact stateAfter_of_first_period (by omega)
  | some q =>
    obtain ⟨endsToo, lt, apart⟩ := previous_some ends found
    cases lt with
    | refl => omega
    | step lower =>
      rw [nHeight_child] at apart
      exact stateAfter_of_period endsToo lower (by omega)

theorem stateAfter_of_endsPeriod :
    checker.stateAfter b = checker.climb (checker.stateOnTop (checker.previous b)) b := by
  rw [← stateOnTop_pprev ends]
  cases b with
  | genesis f => simp [stateAfter, ends, stateOnTop, pprev]
  | child p f => simp [stateAfter, ends, stateOnTop, pprev]

end

theorem countCondition_eq (le : n ≤ b.nHeight + 1) :
    checker.countCondition n (some b) = .ok ((b.path.reverse.take n).countP checker.condition) := by
  induction n generalizing b with
  | zero => rfl
  | succ n ih =>
    cases b with
    | genesis f =>
      obtain rfl : n = 0 := by
        rw [nHeight_genesis] at le
        omega
      cases met : checker.condition (genesis f) <;>
        simp [countCondition, path, met, ok_bind, pure, Except.pure]
    | child p f =>
      rw [nHeight_child] at le
      have counted := @ih p (by omega)
      cases met : checker.condition (child p f) <;>
        simp [countCondition, path, pprev, met, counted, ok_bind, pure, Except.pure]

theorem stateNext_eq (ends : checker.EndsPeriod b) (state : ThresholdState) :
    checker.stateNext state b = .ok (checker.climb state b) := by
  have enough := le_of_dvd (succ_pos _) (dvd_of_mod_eq_zero ends)
  cases state with
  | started => simp [stateNext, climb, signals, countCondition_eq enough, ok_bind, pure,
      Except.pure]
  | _ => rfl

theorem stateAfter_of_early (timely : AfterMedian b)
    (lt : b.getMedianTimePast < checker.beginTime) : checker.stateAfter b = .defined := by
  induction b with
  | genesis f => simp [stateAfter, climb, lt]
  | child p f ih =>
    have before := ih timely.1
      (lt_of_le_of_lt (getMedianTimePast_mono (Ancestor.refl.step) timely) lt)
    simp [stateAfter, climb, before, lt]

def IsKey (checker : ConditionChecker) (key : Option CBlockIndex) : Prop :=
  ∀ b ∈ key, checker.EndsPeriod b ∧ AfterMedian b

/-- The parents still to be computed on top of a key, each one period above the last. -/
def Pending (checker : ConditionChecker) (key : Option CBlockIndex) : List CBlockIndex → Prop
  | [] => True
  | b :: rest => checker.EndsPeriod b ∧ checker.previous b = key ∧ checker.Pending (some b) rest

def lastKey (key : Option CBlockIndex) : List CBlockIndex → Option CBlockIndex
  | [] => key
  | b :: rest => lastKey (some b) rest

theorem isKey_periodParent {pindexPrev : Option CBlockIndex}
    (timely : ∀ b ∈ pindexPrev, AfterMedian b) :
    checker.IsKey (pindexPrev.bind checker.periodParent) := by
  intro q found
  obtain ⟨b, isB, parent⟩ := Option.bind_eq_some_iff.mp found
  obtain ⟨ends, lt, -⟩ := periodParent_some parent
  exact ⟨ends, afterMedian_ancestor lt (timely b isB)⟩

theorem IsKey.previous (isKey : checker.IsKey (some b)) : checker.IsKey (checker.previous b) := by
  intro q found
  obtain ⟨ends, timely⟩ := isKey b rfl
  obtain ⟨endsToo, lt, -⟩ := previous_some ends found
  exact ⟨endsToo, afterMedian_ancestor lt timely⟩

variable {cache : ThresholdConditionCache} {key : Option CBlockIndex} {pending : List CBlockIndex}

theorem walkBack_late (unknown : ¬ (cache (some b)).isSome)
    (late : ¬ b.getMedianTimePast < checker.beginTime) :
    checker.walkBack cache (some b) pending =
      checker.walkBack cache (checker.previous b) (b :: pending) := by
  rw [walkBack, if_neg unknown, if_neg late]
  split
  · rename_i absent
    rw [previous, absent]
  · rename_i found
    rw [previous, found]

theorem walkBack_spec (agrees : Agrees cache checker.stateOnTop) (isKey : checker.IsKey key)
    (waiting : checker.Pending key pending) :
    ∃ cache' key' pending', checker.walkBack cache key pending = (cache', key', pending') ∧
      Agrees cache' checker.stateOnTop ∧ cache' key' = some (checker.stateOnTop key') ∧
      checker.Pending key' pending' ∧ lastKey key' pending' = lastKey key pending := by
  induction key, pending using walkBack.induct checker cache with
  | case1 key pending known =>
    obtain ⟨state, found⟩ := Option.isSome_iff_exists.mp known
    refine ⟨cache, key, pending, ?_, agrees, ?_, waiting, rfl⟩
    · cases key <;> rw [walkBack, if_pos known]
    · rw [found, agrees key state found]
  | case2 pending unknown =>
    have right : ThresholdState.defined = checker.stateOnTop none := rfl
    refine ⟨_, none, pending, ?_, agrees.update right, ?_, waiting, rfl⟩
    · rw [walkBack, if_neg unknown]
    · simp [right]
  | case3 pending b early unknown =>
    have right : ThresholdState.defined = checker.stateOnTop (some b) :=
      (stateAfter_of_early (isKey b rfl).2 early).symm
    refine ⟨_, some b, pending, ?_, agrees.update right, ?_, waiting, rfl⟩
    · rw [walkBack, if_neg unknown, if_pos early]
    · simp [right]
  | case4 pending b late absent unknown ih =>
    have lt : checker.previous b = none := absent
    rw [walkBack_late unknown late, lt]
    exact ih (lt ▸ isKey.previous) ⟨(isKey b rfl).1, lt, waiting⟩
  | case5 pending b late q found unknown ih =>
    have lt : checker.previous b = some q := found
    rw [walkBack_late unknown late, lt]
    exact ih (lt ▸ isKey.previous) ⟨(isKey b rfl).1, lt, waiting⟩

theorem walkForward_spec (agrees : Agrees cache checker.stateOnTop)
    (waiting : checker.Pending key pending) :
    ∃ cache', checker.walkForward (checker.stateOnTop key) cache pending =
        .ok (checker.stateOnTop (lastKey key pending), cache') ∧
      Agrees cache' checker.stateOnTop := by
  induction pending generalizing key cache with
  | nil => exact ⟨cache, rfl, agrees⟩
  | cons b rest ih =>
    obtain ⟨ends, lt, later⟩ := waiting
    have next : checker.stateNext (checker.stateOnTop key) b =
        .ok (checker.stateOnTop (some b)) := by
      rw [stateNext_eq ends, ← lt, ← stateAfter_of_endsPeriod ends]
      rfl
    obtain ⟨cache', walked, stillAgrees⟩ :=
      ih (agrees.update (rfl : checker.stateOnTop (some b) = _)) later
    refine ⟨cache', ?_, stillAgrees⟩
    simp only [walkForward, next, ok_bind, lastKey]
    exact walked

/-- `GetStateFor` gives the plain state, whatever branches filled the table. -/
theorem getStateFor_spec (timely : ∀ b ∈ pindexPrev, AfterMedian b)
    (agrees : Agrees cache checker.stateOnTop) :
    ∃ cache', checker.getStateFor pindexPrev cache = .ok (checker.plainState pindexPrev, cache') ∧
      Agrees cache' checker.stateOnTop := by
  rw [getStateFor, plainState]
  split
  · exact ⟨cache, rfl, agrees⟩
  split
  · exact ⟨cache, rfl, agrees⟩
  obtain ⟨back, key, pending, walked, agreesBack, known, waiting, same⟩ :=
    @walkBack_spec checker cache _ [] agrees (isKey_periodParent timely) trivial
  obtain ⟨cache', forward, agreesToo⟩ := walkForward_spec agreesBack waiting
  refine ⟨cache', ?_, agreesToo⟩
  simp only [walked, known, forward, same, lastKey, stateOnTop_periodParent]

/-- The moves between the states of two periods. -/
inductive Move : ThresholdState → ThresholdState → Prop
  | start : Move .defined .started
  | lockIn : Move .started .lockedIn
  | activate : Move .lockedIn .active
  | fail : Move .started .failed

def Final (state : ThresholdState) : Prop := state = .active ∨ state = .failed

theorem climb_move (state : ThresholdState) (b : CBlockIndex) :
    Relation.ReflGen Move state (checker.climb state b) := by
  cases state with
  | defined =>
    simp only [climb]
    split
    · exact .single .start
    · exact .refl
  | started =>
    simp only [climb]
    split
    · exact .single .lockIn
    · split
      · exact .single .fail
      · exact .refl
  | lockedIn =>
    simp only [climb]
    split
    · exact .single .activate
    · exact .refl
  | active => exact .refl
  | failed => exact .refl

theorem stateAfter_move (b : CBlockIndex) :
    Relation.ReflGen Move (checker.stateOnTop b.pprev) (checker.stateAfter b) := by
  cases b with
  | genesis f =>
    rw [stateAfter]
    split
    · exact climb_move _ _
    · exact .refl
  | child p f =>
    rw [stateAfter]
    split
    · exact climb_move _ _
    · exact .refl

theorem plainState_move (b : CBlockIndex) :
    Relation.ReflGen Move (checker.plainState b.pprev) (checker.plainState (some b)) := by
  simp only [plainState]
  split
  · exact .refl
  · split
    · exact .refl
    · exact stateAfter_move b

theorem Final.move (final : Final state) (move : Relation.ReflGen Move state next) :
    next = state := by
  cases move with
  | refl => rfl
  | single step => rcases final with rfl | rfl <;> cases step

theorem eq_defined_of_move (move : Relation.ReflGen Move state .defined) : state = .defined := by
  cases move with
  | refl => rfl
  | single step => cases step

theorem plainState_of_final (lt : Ancestor a b) (final : Final (checker.plainState (some a))) :
    checker.plainState (some b) = checker.plainState (some a) := by
  induction lt with
  | refl => rfl
  | @step p f lt ih =>
    have move := @plainState_move checker (child p f)
    rw [pprev, ih] at move
    exact final.move move

theorem stateAfter_ancestor_defined (lt : Ancestor a b)
    (still : checker.stateAfter b = .defined) : checker.stateAfter a = .defined := by
  induction lt with
  | refl => exact still
  | @step p f lt ih =>
    have move := @stateAfter_move checker (child p f)
    rw [still] at move
    exact ih (eq_defined_of_move move)

theorem plainState_ordinary
    (ordinary : ¬ (checker.beginTime = alwaysActive ∨ checker.beginTime = neverActive)) :
    checker.plainState pindexPrev = checker.stateOnTop pindexPrev := by
  rw [plainState, if_neg fun always => ordinary (.inl always),
    if_neg fun never => ordinary (.inr never)]

theorem walkSince_spec (agrees : Agrees cache checker.stateOnTop)
    (ordinary : ¬ (checker.beginTime = alwaysActive ∨ checker.beginTime = neverActive))
    (isKey : checker.IsKey (some b)) (begun : checker.stateAfter b = initialState)
    (moved : initialState ≠ .defined) :
    ∃ q cache', checker.walkSince initialState b cache = .ok ((q.nHeight : Int) + 1, cache') ∧
      Agrees cache' checker.stateOnTop ∧ Ancestor q b ∧
      (∀ a, Ancestor q a → Ancestor a b → checker.stateAfter a = initialState) ∧
      checker.stateOnTop q.pprev ≠ initialState := by
  induction height : b.nHeight using Nat.strong_induction_on generalizing b cache with
  | _ n ih =>
    have ends := (isKey b rfl).1
    have only : ∀ a, Ancestor b a → Ancestor a b → checker.stateAfter a = initialState := by
      intro a above lt
      rw [above.unique Ancestor.refl (le_antisymm above.nHeight_le lt.nHeight_le)] at begun
      exact begun
    rw [walkSince]
    split
    · rename_i absent
      refine ⟨b, cache, rfl, agrees, .refl, only, ?_⟩
      rw [stateOnTop_pprev ends, previous, absent]
      exact moved.symm
    rename_i q found
    have isKeyToo : checker.IsKey (some q) := by
      rw [← found]
      exact isKey.previous
    obtain ⟨endsToo, lt, apart⟩ := previous_some ends found
    have pos := checker.period_pos
    obtain ⟨next, got, agreesNext⟩ := @getStateFor_spec checker cache (some q)
      (by rintro _ ⟨⟩; exact (isKeyToo q rfl).2) agrees
    rw [plainState_ordinary ordinary] at got
    simp only [got, ok_bind]
    split
    · rename_i same
      obtain ⟨r, cache', walked, agreesToo, lower, holds, before⟩ :=
        ih q.nHeight (by omega) agreesNext isKeyToo same rfl
      refine ⟨r, cache', walked, agreesToo, lower.trans lt, ?_, before⟩
      intro a above under
      by_cases late : a.nHeight ≤ q.nHeight
      · exact holds a above (under.total lt late)
      by_cases top : a.nHeight = b.nHeight
      · rw [under.unique Ancestor.refl top]
        exact begun
      · have le := under.nHeight_le
        rw [stateAfter_of_period endsToo (lt.total under (by omega)) (by omega)]
        exact same
    · rename_i ne
      refine ⟨b, next, rfl, agreesNext, .refl, only, ?_⟩
      rw [stateOnTop_pprev ends, previous, found]
      exact ne

theorem plainStateAt_child {n : Nat} (found : b.getAncestor n = some a) :
    checker.plainStateAt (some b) (n + 1) = checker.plainState (some a) := by
  rw [plainStateAt, Option.bind_some, cast_succ, add_sub_cancel_right, found]

theorem plainStateAt_of_ancestor (lt : Ancestor q b) :
    checker.plainStateAt (some b) q.nHeight = checker.plainState q.pprev := by
  cases q with
  | genesis f => simp [plainStateAt, getAncestor, nHeight, pprev]
  | child p f => exact plainStateAt_child (getAncestor_of_ancestor (Ancestor.refl.step.trans lt))

theorem plainStateAt_above (low : n ≤ b.nHeight) :
    ∃ a, Ancestor a b ∧ a.nHeight = n ∧
      checker.plainStateAt (some b) (n + 1) = checker.plainState (some a) := by
  obtain ⟨a, found, lt, height⟩ := @getAncestor_isSome b n (Int.natCast_nonneg n) (by omega)
  exact ⟨a, lt, by omega, plainStateAt_child found⟩

theorem holdsSince_special
    (special : checker.beginTime = alwaysActive ∨ checker.beginTime = neverActive) :
    checker.HoldsSince pindexPrev 0 where
  inside := zero_le _
  holds := by
    rcases special with always | never
    · simp [plainStateAt, plainState, always]
    · simp [plainStateAt, plainState, never, neverActive, alwaysActive]
  first := by
    nofun

theorem holdsSince_defined
    (ordinary : ¬ (checker.beginTime = alwaysActive ∨ checker.beginTime = neverActive))
    (still : checker.plainState pindexPrev = .defined) : checker.HoldsSince pindexPrev 0 where
  inside := zero_le _
  first := by
    nofun
  holds := by
    intro n _ inside
    rw [still, plainStateAt, plainState_ordinary ordinary]
    rw [plainState_ordinary ordinary] at still
    cases pindexPrev with
    | none => rfl
    | some b =>
      rw [Option.bind_some]
      cases found : b.getAncestor ((n : Int) - 1) with
      | none => rfl
      | some a =>
        rw [← (getAncestor_eq_some.mp found).2] at found
        exact stateAfter_ancestor_defined (getAncestor_eq_some_iff.mp found) still

/-- `GetStateSinceHeightFor` gives the first height of the uninterrupted state. -/
theorem getStateSinceHeightFor_spec (timely : ∀ b ∈ pindexPrev, AfterMedian b)
    (agrees : Agrees cache checker.stateOnTop) :
    ∃ (height : Nat) (cache' : ThresholdConditionCache),
      checker.getStateSinceHeightFor pindexPrev cache = .ok ((height : Int), cache') ∧
      checker.HoldsSince pindexPrev height ∧ Agrees cache' checker.stateOnTop := by
  rw [getStateSinceHeightFor]
  split
  · rename_i special
    exact ⟨0, cache, rfl, holdsSince_special special, agrees⟩
  rename_i ordinary
  obtain ⟨next, got, agreesNext⟩ := getStateFor_spec timely agrees
  simp only [got, ok_bind]
  split
  · rename_i still
    exact ⟨0, next, rfl, holdsSince_defined ordinary still, agreesNext⟩
  rename_i moved
  have states := @stateOnTop_periodParent checker pindexPrev
  rw [plainState_ordinary ordinary] at moved ⊢
  cases pindexPrev with
  | none => exact absurd rfl moved
  | some b =>
    rw [Option.bind_some] at states
    cases found : checker.periodParent b with
    | none =>
      rw [found] at states
      exact absurd states.symm moved
    | some c =>
      rw [found] at states
      obtain ⟨ends, lt, near⟩ := periodParent_some found
      have isKey : checker.IsKey (some c) := by
        rw [← found]
        exact isKey_periodParent timely
      obtain ⟨q, cache', walked, agreesToo, lower, holds, before⟩ :=
        walkSince_spec agreesNext ordinary isKey states moved
      have above := (lower.trans lt).nHeight_le
      refine ⟨q.nHeight + 1, cache', ?_, ?_, agreesToo⟩
      · simp only [found, walked, cast_succ]
      constructor
      case inside => exact succ_le_succ above
      case holds =>
        intro n late inside
        obtain ⟨m, rfl⟩ : ∃ m, n = m + 1 := ⟨n - 1, by omega⟩
        obtain ⟨a, under, height, same⟩ :=
          @plainStateAt_above checker b m (le_of_succ_le_succ inside)
        rw [same, plainState_ordinary ordinary, plainState_ordinary ordinary]
        by_cases low : a.nHeight ≤ c.nHeight
        · have early := under.total lt low
          exact holds a ((lower.trans lt).total under (by omega)) early
        · have le := under.nHeight_le
          exact (stateAfter_of_period ends (lt.total under (by omega)) (by omega)).trans
            states
      case first =>
        intro n top
        cases top
        rw [plainStateAt_of_ancestor (lower.trans lt), plainState_ordinary ordinary,
          plainState_ordinary ordinary]
        exact before

inductive Query where
  | stateFor (pindexPrev : Option CBlockIndex)
  | sinceHeightFor (pindexPrev : Option CBlockIndex)

inductive Answer where
  | state (state : ThresholdState)
  | height (height : Int)
  deriving DecidableEq, Repr

def Query.pindexPrev : Query → Option CBlockIndex
  | .stateFor pindexPrev => pindexPrev
  | .sinceHeightFor pindexPrev => pindexPrev

def ask (checker : ConditionChecker) (query : Query) (cache : ThresholdConditionCache) :
    Except Fault (Answer × ThresholdConditionCache) :=
  match query with
  | .stateFor pindexPrev => do
    let (state, cache) ← checker.getStateFor pindexPrev cache
    return (.state state, cache)
  | .sinceHeightFor pindexPrev => do
    let (height, cache) ← checker.getStateSinceHeightFor pindexPrev cache
    return (.height height, cache)

def Right (checker : ConditionChecker) : Query → Answer → Prop
  | .stateFor pindexPrev, .state state => state = checker.plainState pindexPrev
  | .sinceHeightFor pindexPrev, .height height =>
    ∃ n : Nat, height = n ∧ checker.HoldsSince pindexPrev n
  | _, _ => False

theorem ask_transparent (timely : ∀ b ∈ query.pindexPrev, AfterMedian b) :
    Transparent checker.ask (Agrees · checker.stateOnTop) checker.Right query := by
  intro cache agrees
  cases query with
  | stateFor pindexPrev =>
    obtain ⟨next, got, agreesNext⟩ := getStateFor_spec timely agrees
    refine ⟨.state (checker.plainState pindexPrev), next, ?_, rfl, agreesNext⟩
    rw [Query.pindexPrev] at got
    simp only [ask, got, ok_bind, pure, Except.pure]
  | sinceHeightFor pindexPrev =>
    obtain ⟨height, next, got, holds, agreesNext⟩ := getStateSinceHeightFor_spec timely agrees
    refine ⟨.height height, next, ?_, ⟨height, rfl, holds⟩, agreesNext⟩
    rw [Query.pindexPrev] at got
    simp only [ask, got, ok_bind, pure, Except.pure]

/-- Queries at any blocks of any branches that share one table get the answers of the
    plain definition, and its states climb the ladder. -/
theorem queries_answered_plainly (checker : ConditionChecker) (queries : List Query)
    (timely : ∀ query ∈ queries, ∀ b ∈ query.pindexPrev, AfterMedian b) :
    (∃ given cache, answers checker.ask (fun _ => none) queries = .ok (given, cache) ∧
      List.Forall₂ checker.Right queries given) ∧
    (∀ b : CBlockIndex,
      Relation.ReflGen Move (checker.plainState b.pprev) (checker.plainState (some b))) ∧
    (∀ a b : CBlockIndex, Ancestor a b → Final (checker.plainState (some a)) →
      checker.plainState (some b) = checker.plainState (some a)) := by
  refine ⟨?_, plainState_move, fun a b => plainState_of_final⟩
  obtain ⟨given, cache, asked, right, -⟩ :=
    @answers_of_transparent _ _ _ _ checker.ask (Agrees · checker.stateOnTop) checker.Right queries _
      (agrees_empty checker.stateOnTop) fun query member => ask_transparent (timely query member)
  exact ⟨given, cache, asked, right⟩

/-- A deployment on bit 1 that a single block of a period of two locks in. -/
def exampleChecker : ConditionChecker where
  condition := versionBitsCondition 1
  beginTime := 2
  endTime := 100
  minActivationHeight := 0
  period := 2
  threshold := 1
  period_pos := by decide

/-- Two branches from one first block: the blocks of one signal, those of the other do not. -/
def exampleBranch (signals : Bool) : Nat → CBlockIndex
  | 0 => .genesis ⟨0x20000002, 0, 1, 0x207fffff, 0⟩
  | n + 1 => .child (exampleBranch signals n)
      ⟨if signals then 0x20000002 else 0x20000000, 0, UInt32.ofNat (n + 2), 0x207fffff, 0⟩

def exampleQueries : List Query :=
  [.stateFor (some (exampleBranch true 7)), .stateFor (some (exampleBranch false 7)),
    .sinceHeightFor (some (exampleBranch true 4))]

theorem queries_answered_plainly_branches :
    (∃ given cache, answers exampleChecker.ask (fun _ => none) exampleQueries = .ok (given, cache) ∧
      List.Forall₂ exampleChecker.Right exampleQueries given) ∧
    exampleChecker.plainState (some (exampleBranch true 4)) = .lockedIn ∧
    exampleChecker.plainState (some (exampleBranch true 7)) = .active ∧
    exampleChecker.plainState (some (exampleBranch false 7)) = .started := by
  have timely : ∀ signals n, n ≤ 7 → AfterMedian (exampleBranch signals n) := by
    intro signals n
    induction n with
    | zero => exact fun _ => trivial
    | succ n ih =>
      intro small
      have low : n < 7 := by omega
      refine ⟨ih (by omega), ?_⟩
      cases signals <;> interval_cases n <;> decide +kernel
  refine ⟨(queries_answered_plainly exampleChecker _ ?_).1, by decide +kernel⟩
  intro query member
  simp only [exampleQueries, List.mem_cons, List.not_mem_nil, or_false] at member
  obtain rfl | rfl | rfl := member <;> rintro b ⟨⟩ <;> exact timely _ _ (by decide)

end ConditionChecker

end HobbyHash.Versionbits
