import HobbyHash.CheckQueue.Invariant

/-! # The verdict of the check queue

Runs of the threads from the start of the queue on. When the master returns nothing is
left in the queue or with a thread, so its answer is that of the record of its session.
-/

namespace HobbyHash.CheckQueue

open Library Machine List Function State

variable {T : Type} {n : Nat} {config : Config T} {s s' : State n T}

/-- The checks of a session are fewer than `nTodo` can count. -/
def Countable (s : State n T) : Action n T → Prop
  | .add vChecks => s.added.length + vChecks.length < 2 ^ 32
  | _ => True

def Next (config : Config T) (s s' : State n T) : Prop :=
  ∃ action, Countable s action ∧ step config s action = .ok (some s')

theorem execute_added {thread nNow fOk} (vChecks : List T) :
    (s.execute config thread nNow fOk vChecks).added = s.added := by
  cases vChecks with
  | nil => exact added_setPc _ _
  | cons check rest =>
    rw [execute]
    split <;> exact added_setPc _ _

theorem Inv.step (inv : Inv config s) (lt : s.added.length < 2 ^ 32) (action : Action n T) :
    Ensures (Avoidable n) (step config s action) fun next =>
      ∀ s' ∈ next, Countable s action → Inv config s' ∧ s'.added.length < 2 ^ 32 := by
  cases action with
  | begin =>
    rw [CheckQueue.step]
    split
    · rename_i outside
      rintro _ ⟨⟩ _
      exact ⟨inv.begin outside, Nat.two_pow_pos 32⟩
    · exact .pure (by simp)
  | add vChecks =>
    rw [CheckQueue.step]
    split
    · rename_i adding
      rintro _ ⟨⟩ countable
      refine ⟨inv.add adding vChecks, ?_⟩
      rw [State.add]
      split
      · exact lt
      · rw [length_append]
        exact countable
    · exact .pure (by simp)
  | notify picked =>
    rw [CheckQueue.step]
    split
    · rename_i size notifying
      rintro _ ⟨⟩ _
      refine ⟨inv.notify notifying _ fun w => ?_, lt⟩
      split
      · exact .inl rfl
      · exact .inr rfl
    · exact .pure (by simp)
  | wait =>
    rw [CheckQueue.step]
    split
    · rename_i adding
      rintro _ ⟨⟩ _
      exact ⟨inv.wait adding, lt⟩
    · exact .pure (by simp)
  | leave =>
    rw [CheckQueue.step]
    split
    · rename_i fRet done
      rintro _ ⟨⟩ _
      exact ⟨inv.leave done, lt⟩
    · exact .pure (by simp)
  | enter thread =>
    rw [CheckQueue.step]
    split
    · rename_i nNow fOk here
      refine (inv.report here).bind ?_
      rintro locked ⟨inv', here', added⟩
      refine (inv'.proceed (added ▸ lt) here').bind ?_
      rintro released ⟨after, added'⟩ _ ⟨⟩ _
      exact ⟨after, by rwa [added', added]⟩
    · exact .pure (by simp)
  | wake thread =>
    rw [CheckQueue.step]
    split
    · rename_i b here
      refine (inv.resume here).bind ?_
      rintro locked ⟨inv', here', added⟩
      refine (inv'.proceed (added ▸ lt) here').bind ?_
      rintro released ⟨after, added'⟩ _ ⟨⟩ _
      exact ⟨after, by rwa [added', added]⟩
    · exact .pure (by simp)
  | execute thread =>
    rw [CheckQueue.step]
    split
    · rename_i vChecks nNow fOk here
      rintro _ ⟨⟩ _
      exact ⟨inv.execute here, by rwa [execute_added]⟩
    · exact .pure (by simp)

theorem Inv.reaches (reached : Relation.ReflTransGen (Next config) (State.initial n T) s) :
    Inv config s ∧ s.added.length < 2 ^ 32 := by
  induction reached with
  | refl => exact ⟨Inv.initial, Nat.two_pow_pos 32⟩
  | tail _ next ih =>
    obtain ⟨action, countable, run⟩ := next
    exact (ih.1.step ih.2 action).of_eq_ok run _ rfl countable

theorem Justified.failed_before {log later earlier check} (justified : Justified config log)
    (here : log = later ++ .skipped check :: earlier) :
    Failed config earlier := by
  induction later generalizing log with
  | nil =>
    subst here
    exact justified.1
  | cons event later ih =>
    subst here
    have rest : Justified config (later ++ .skipped check :: earlier) := by
      cases event with
      | ran other => exact justified
      | skipped other => exact justified.2
    exact ih rest rfl

theorem Justified.all_ran {log} (justified : Justified config log) (fine : ¬ Failed config log)
    {check} (mem : check ∈ log.map Event.check) :
    config.run check = true := by
  obtain ⟨event, lt, rfl⟩ := mem_map.mp mem
  cases event with
  | ran check =>
    by_contra fails
    exact fine ⟨check, lt, Bool.eq_false_of_not_eq_true fails⟩
  | skipped check =>
    obtain ⟨later, earlier, split⟩ := append_of_mem lt
    obtain ⟨failed, before, fails⟩ := justified.failed_before split
    refine absurd ⟨failed, ?_, fails⟩ fine
    rw [split]
    exact mem_append_right _ (mem_cons_of_mem _ before)

/-- In every run of the threads, with fewer checks in a session than `nTodo` can count: no
    counter overflows; `nTodo` counts what is queued and what is taken and not reported;
    `Wait` returns whether all checks of its session succeed, and only when each was executed
    or, after a failure, skipped; no check is executed twice or in another session; a session
    starts with nothing left over; and a master that waits without a notification has
    something to wait for. -/
theorem wait_verdict (few : 2 * n + 3 < 2 ^ 31)
    (reached : Relation.ReflTransGen (Next config) (initial n T) s) :
    (∀ action, ∃ next, step config s action = .ok next) ∧
    s.shared.nTodo.toNat = s.shared.queue.length + s.total LoopPc.taken ∧
    (∀ fRet, s.master = .loop (.returned fRet) →
      (fRet = true ↔ ∀ check ∈ s.added, config.run check = true) ∧
      (s.log.map Event.check).Perm s.added) ∧
    (∀ later check earlier, s.log = later ++ .skipped check :: earlier →
      ∃ failed, .ran failed ∈ earlier ∧ config.run failed = false) ∧
    (s.log.map Event.check).Subperm s.added ∧
    (s.master = .outside → s.shared.fAllOk = true ∧ s.shared.nTodo = 0 ∧ s.shared.queue = [] ∧
      s.total LoopPc.taken = 0) ∧
    (s.master = .loop (.waiting false) → s.shared.nTodo ≠ 0) := by
  obtain ⟨inv, bounded⟩ := Inv.reaches reached
  have counted : (s.log.map Event.check : Multiset T) ≤ s.added := by
    rw [← inv.conserved]
    exact Multiset.le_add_left _ _
  refine ⟨fun action => ?_, ?_, fun fRet returned => ?_, fun later check earlier here => ?_, ?_,
    fun outside => ?_, inv.waiting⟩
  · obtain ⟨next, run, -⟩ := (inv.step bounded action).exists_ok fun _ => few
    exact ⟨next, run⟩
  · rw [inv.todo, UInt32.toNat_ofNat_of_lt' (inv.pending.trans_lt bounded)]
  · obtain ⟨empty, none, -⟩ := inv.quiet (by rw [returned]; exact id)
    have conserved := inv.conserved
    rw [empty, inv.remaining_eq_zero none, add_zero, Multiset.coe_nil, zero_add] at conserved
    have perm : (s.log.map Event.check).Perm s.added := Multiset.coe_eq_coe.mp conserved
    refine ⟨?_, perm⟩
    have verdict := inv.returned fRet returned
    constructor
    · intro fine check member
      refine inv.justified.all_ran (fun failed => ?_) (perm.mem_iff.mpr member)
      cases (verdict.mpr failed).symm.trans fine
    · intro all
      by_contra fails
      obtain ⟨check, ran, failing⟩ := verdict.mp (by simpa using fails)
      have member : check ∈ s.added := perm.mem_iff.mp (mem_map.mpr ⟨_, ran, rfl⟩)
      rw [all check member] at failing
      cases failing
  · exact inv.justified.failed_before here
  · exact Multiset.coe_le.mp counted
  · obtain ⟨empty, none, fine⟩ := inv.quiet (by rw [outside]; exact id)
    refine ⟨fine, ?_, empty, none⟩
    rw [inv.todo, empty, none]
    rfl

/-- One worker and a session of a check that succeeds and one that fails: the master takes
    the failing one first, skips the other and returns false. -/
theorem wait_verdict_failure :
    ∃ s : State 1 Bool,
      Relation.ReflTransGen (Next { nBatchSize := 128, run := id }) (initial 1 Bool) s ∧
      s.master = .loop (.returned false) ∧ ¬ ∀ check ∈ s.added, id check = true := by
  have reached : ∃ s : State 1 Bool,
      Relation.ReflTransGen (Next { nBatchSize := 128, run := id }) (initial 1 Bool) s ∧
      s.master = .loop (.returned false) :=
    ⟨_, ((((((((((Relation.ReflTransGen.refl.tail ⟨.begin, trivial, rfl⟩).tail
      ⟨.add [true, false], (by decide : 0 + 2 < 2 ^ 32), rfl⟩).tail
      ⟨.notify none, trivial, rfl⟩).tail ⟨.wait, trivial, rfl⟩).tail
      ⟨.enter none, trivial, rfl⟩).tail ⟨.execute none, trivial, rfl⟩).tail
      ⟨.execute none, trivial, rfl⟩).tail ⟨.enter none, trivial, rfl⟩).tail
      ⟨.execute none, trivial, rfl⟩).tail ⟨.execute none, trivial, rfl⟩).tail
      ⟨.enter none, trivial, rfl⟩, rfl⟩
  obtain ⟨s, run, returned⟩ := reached
  obtain ⟨-, -, verdict, -⟩ := wait_verdict (by decide) run
  refine ⟨s, run, returned, fun all => ?_⟩
  have fine := (verdict false returned).1.mpr all
  cases fine

def AnyNext (config : Config T) (s s' : State n T) : Prop :=
  ∃ action, step config s action = .ok (some s')

/-- The first `k` workers have entered `Loop` and wait. -/
def entering (n : Nat) (T : Type) (k : Nat) : State n T where
  shared :=
    { queue := [], nIdle := k, nTotal := k, fAllOk := true, nTodo := 0, requestStop := false }
  worker := fun w => if w.val < k then .waiting false else .top 0 true
  master := .outside
  added := []
  log := []

theorem step_enter (here : s.pcOf thread = some (.top nNow fOk))
    (reported : s.report thread nNow fOk = .ok locked)
    (proceeded : locked.proceed config thread = .ok s') :
    step config s (.enter thread) = .ok (some s') := by
  simp only [step, here, reported, proceeded, ok_bind]
  rfl

theorem step_entering (lt : k < n) (few : n < 2 ^ 31) :
    step config (entering n T k) (.enter (some ⟨k, lt⟩)) = .ok (some (entering n T (k + 1))) := by
  have fits : IsInt ((k : Int) + 1) := ⟨by omega, by omega⟩
  have worker : update (update (entering n T k).worker ⟨k, lt⟩ .inside)
      ⟨k, lt⟩ (.waiting false) = (entering n T (k + 1)).worker := by
    rw [update_idem]
    funext w
    by_cases same : w = ⟨k, lt⟩
    · rw [same, update_self]
      simp [entering]
    · rw [update_of_ne same]
      have ne : w.val ≠ k := fun equal => same (Fin.ext equal)
      simp only [entering]
      split <;> split <;> first | rfl | omega
  have here : (entering n T k).pcOf (some ⟨k, lt⟩) = some (.top 0 true) := by
    simp [pcOf, entering]
  let locked : State n T := { entering n T k with
    shared := { (entering n T k).shared with nTotal := (k : Int) + 1 }
    worker := update (entering n T k).worker ⟨k, lt⟩ .inside }
  have reported : (entering n T k).report (some ⟨k, lt⟩) 0 true = .ok locked := by
    change (int ((k : Int) + 1) >>= _) = _
    rw [int_ok fits]
    rfl
  have proceeded : locked.proceed config (some ⟨k, lt⟩) = .ok (entering n T (k + 1)) := by
    change (int ((k : Int) + 1) >>= _) = _
    rw [int_ok fits]
    simp only [ok_bind, pure, Except.pure, setPc, locked, worker]
    simp [entering]
  exact step_enter here reported proceeded

theorem reaches_entering (few : n < 2 ^ 31) (k : Nat) (le : k ≤ n) :
    Relation.ReflTransGen (AnyNext config) (initial n T) (entering n T k) := by
  induction k with
  | zero =>
    have start : initial n T = entering n T 0 := by
      simp [initial, entering]
    rw [start]
  | succ k ih => exact (ih (by omega)).tail ⟨_, step_entering le few⟩

/-- With 2^32 checks in a session `nTodo` is zero although none of them is done, and with
    2^30 - 1 idle workers the divisor of the batch size overflows. -/
theorem wait_overflows :
    (∃ s : State 0 Bool, Relation.ReflTransGen (AnyNext { nBatchSize := 128, run := id })
        (initial 0 Bool) s ∧
      s.shared.nTodo = 0 ∧ s.shared.queue.length = 2 ^ 32) ∧
    ∃ s : State (2 ^ 30 - 1) Bool, Relation.ReflTransGen (AnyNext { nBatchSize := 128, run := id })
        (initial (2 ^ 30 - 1) Bool) s ∧
      step { nBatchSize := 128, run := id } s (.enter none) = .error .signedOverflow := by
  constructor
  · obtain ⟨checks, length⟩ : ∃ checks : List Bool, checks.length = 2 ^ 32 :=
      ⟨replicate (2 ^ 32) true, length_replicate⟩
    have nonempty : ¬ checks.isEmpty = true := by
      intro empty
      rw [isEmpty_iff.mp empty] at length
      cases length
    refine ⟨_, (Relation.ReflTransGen.refl.tail ⟨.begin, rfl⟩).tail ⟨.add checks, rfl⟩, ?_, ?_⟩
    · rw [add, if_neg nonempty, length]
      rfl
    · rw [add, if_neg nonempty]
      exact length
  · refine ⟨_, ((((reaches_entering (by decide) (2 ^ 30 - 1) (le_refl _)).tail ⟨.begin, rfl⟩).tail
      ⟨.add [true], rfl⟩).tail ⟨.notify none, rfl⟩).tail ⟨.wait, rfl⟩, ?_⟩
    rfl

end HobbyHash.CheckQueue
