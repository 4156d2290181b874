import HobbyHash.CheckQueue.Threads

/-! # The invariant of the check queue

What holds between any two steps. The counters are sums over the threads: what `nTodo`
counts is in the queue or in the batch of a thread that has not reported it, and a check
that was added is in the queue, in a batch or in the record of what became of it. A
failure is known to `fAllOk` or to a thread that will report it.
-/

namespace HobbyHash.CheckQueue

open Library Machine List Event UInt32 State Multiset Nat

variable {T : Type} {n : Nat} {config : Config T} {s s' : State n T}

def Failed (config : Config T) (log : List (Event T)) : Prop :=
  ∃ check, ran check ∈ log ∧ config.run check = false

/-- A check is skipped only after another has failed. -/
def Justified (config : Config T) : List (Event T) → Prop
  | [] => True
  | .ran _ :: rest => Justified config rest
  | .skipped _ :: rest => Failed config rest ∧ Justified config rest

/-- From the start of a session until `Wait` returns. -/
def InSession : MasterPc T → Prop
  | .outside => False
  | .loop (.returned _) => False
  | _ => True

/-- With so few threads no counter overflows. -/
def Avoidable (n : Nat) (_ : Fault) : Prop := 2 * n + 3 < 2 ^ 31

structure Inv (config : Config T) (s : State n T) : Prop where
  going : s.shared.requestStop = false
  sized : ∀ thread pc, s.pcOf thread = some pc → pc.Sized
  todo : s.shared.nTodo = ofNat (s.shared.queue.length + s.total LoopPc.taken)
  pending : s.shared.queue.length + s.total LoopPc.taken ≤ s.added.length
  nTotal : s.shared.nTotal = s.total LoopPc.entered
  nIdle : s.shared.nIdle = s.total LoopPc.idle
  conserved : (s.shared.queue : Multiset T) + s.total LoopPc.remaining
    + (s.log.map check : Multiset T) = s.added
  justified : Justified config s.log
  failed : InSession s.master →
    (Failed config s.log ↔ s.shared.fAllOk = false ∨ s.total LoopPc.failures ≠ 0)
  quiet : ¬ InSession s.master →
    s.shared.queue = [] ∧ s.total LoopPc.taken = 0 ∧ s.shared.fAllOk = true
  returned : ∀ fRet, s.master = .loop (.returned fRet) → (fRet = false ↔ Failed config s.log)
  waiting : s.master = .loop (.waiting false) → s.shared.nTodo ≠ 0

namespace Inv

variable {thread : State.Thread n} {pc pc' : LoopPc T}

theorem initial : Inv config (State.initial n T) := by
  have none : ∀ f : LoopPc T → Nat, f (.top 0 true) = 0 → (State.initial n T).total f = 0 := by
    intro f zero
    simp [State.total, State.initial, State.ofMaster, zero]
  constructor
  case going => rfl
  case sized =>
    intro thread pc here
    cases thread with
    | none => cases here
    | some w =>
      cases here
      exact fun _ => rfl
  case todo =>
    rw [none _ rfl]
    rfl
  case pending =>
    rw [none _ rfl]
    exact le_refl _
  case nTotal =>
    rw [none _ rfl]
    rfl
  case nIdle =>
    rw [none _ rfl]
    rfl
  case conserved => simp [State.total, State.initial, State.ofMaster, LoopPc.remaining]
  case justified => trivial
  case failed => exact fun session => session.elim
  case quiet => exact fun _ => ⟨rfl, none _ rfl, rfl⟩
  case returned => rintro _ ⟨⟩
  case waiting => rintro ⟨⟩

theorem failures_eq_zero (inv : Inv config s) (none : s.total LoopPc.taken = 0) :
    s.total LoopPc.failures = 0 :=
  le_zero.mp (none ▸ total_mono fun thread pc here =>
    LoopPc.failures_le_taken (inv.sized thread pc here))

theorem inSession (inv : Inv config s) (here : s.pcOf thread = some pc) (ne : pc.taken ≠ 0) :
    InSession s.master := by
  by_contra over'
  have le : pc.taken ≤ s.total LoopPc.taken := le_total here
  rw [(inv.quiet over').2.1] at le
  exact ne (le_zero.mp le)

end Inv

def LoopPc.Active : LoopPc T → Prop
  | .returned _ => False
  | _ => True

section Moves

variable {thread : State.Thread n} {pc pc' : LoopPc T}

theorem master_of_pcOf (here : s.pcOf none = some pc) : s.master = .loop pc := by
  rw [pcOf] at here
  split at here
  · rename_i current atLoop
    cases here
    exact atLoop
  · cases here

theorem inSession_loop : InSession (.loop pc) ↔ pc.Active := by
  cases pc <;> exact Iff.rfl

variable (moves : State.Moves s s' thread pc pc')
include moves

theorem State.Moves.inSession_iff (here : s.pcOf thread = some pc) (active : pc.Active)
    (active' : pc'.Active) : InSession s'.master ↔ InSession s.master := by
  obtain same | ⟨rfl, now⟩ | ⟨-, b, before, now⟩ := moves.master
  · rw [same]
  · rw [now, master_of_pcOf here, inSession_loop, inSession_loop]
    exact iff_of_true active' active
  · rw [now, before]
    exact Iff.rfl

theorem State.Moves.returned (active' : pc'.Active) {fRet}
    (now : s'.master = .loop (.returned fRet)) : s.master = .loop (.returned fRet) := by
  obtain same | ⟨-, moved⟩ | ⟨-, b, -, moved⟩ := moves.master
  · rw [← same, now]
  · cases moved.symm.trans now
    exact active'.elim
  · cases moved.symm.trans now

theorem State.Moves.waiting (now : s'.master = .loop (.waiting false))
    (ne : pc' ≠ .waiting false) : s.master = .loop (.waiting false) := by
  obtain same | ⟨-, moved⟩ | ⟨-, b, -, moved⟩ := moves.master
  · rw [← same, now]
  · cases moved.symm.trans now
    exact absurd rfl ne
  · cases moved.symm.trans now

theorem State.Moves.sized (inv : Inv config s) (sized' : pc'.Sized) :
    ∀ other current, s'.pcOf other = some current → current.Sized := by
  intro other current now
  obtain ⟨rfl, -⟩ | before | rfl := moves.pcs other current now
  · exact sized'
  · exact inv.sized other current before
  · trivial

end Moves

namespace Inv

variable {thread : State.Thread n} {pc : LoopPc T} {nNow : UInt32} {fOk : Bool}

theorem threads (inv : Inv config s) :
    0 ≤ s.shared.nTotal ∧ s.shared.nTotal ≤ n + 1 ∧ 0 ≤ s.shared.nIdle ∧
      s.shared.nIdle ≤ n + 1 := by
  have total := @total_le T n s LoopPc.entered 1 LoopPc.entered_le_one
  have waiting := @total_le T n s LoopPc.idle 1 LoopPc.idle_le_one
  rw [inv.nTotal, inv.nIdle]
  omega

theorem ensures_count {x : Int} (le : -1 ≤ x) (upper : x ≤ 2 * n + 3) :
    Ensures (Avoidable n) (int x) (· = x) :=
  ensures_int fun few => ⟨by omega, by unfold Avoidable at few; omega⟩

section

variable (inv : Inv config s)
include inv

/-- A step within a session or between two of them: every sum changes by the difference
    of two parts, and what the lock protects changes with the sums. -/
theorem shift {pc pc'} (totals : ∀ {M : Type} [AddCommMonoid M] (part : LoopPc T → M),
      part (.waiting false) = part (.waiting true) →
      s'.total part + part pc = s.total part + part pc')
    (sized : ∀ thread pc, s'.pcOf thread = some pc → pc.Sized)
    (session : InSession s'.master ↔ InSession s.master)
    (going : s'.shared.requestStop = s.shared.requestStop)
    (todo : s'.shared.nTodo + UInt32.ofNat (s.shared.queue.length + pc.taken)
      = s.shared.nTodo + UInt32.ofNat (s'.shared.queue.length + pc'.taken))
    (pending : s'.shared.queue.length + pc'.taken + s.added.length
      ≤ s.shared.queue.length + pc.taken + s'.added.length)
    (counts : s'.shared.nTotal + pc.entered = s.shared.nTotal + pc'.entered ∧
      s'.shared.nIdle + pc.idle = s.shared.nIdle + pc'.idle)
    (conserved : (s'.shared.queue : Multiset T) + pc'.remaining
        + (s'.log.map check : Multiset T) + (s.added : Multiset T)
      = s.shared.queue + pc.remaining + (s.log.map check : Multiset T) + s'.added)
    (justified : Justified config s'.log) (failed : InSession s.master →
      (Failed config s'.log ↔ s'.shared.fAllOk = false ∨ s'.total LoopPc.failures ≠ 0))
    (quiet : ¬ InSession s.master → s'.shared.queue = s.shared.queue ∧ pc'.taken = 0 ∧
      s'.shared.fAllOk = s.shared.fAllOk ∧ s'.log = s.log ∧
      ∀ fRet, s'.master = .loop (.returned fRet) → s.master = .loop (.returned fRet))
    (waiting : s'.master = .loop (.waiting false) → s'.shared.nTodo ≠ 0) : Inv config s' := by
  have taken := totals LoopPc.taken rfl
  constructor
  case going => exact going.trans inv.going
  case sized => exact sized
  case todo =>
    refine (UInt32.add_left_inj (UInt32.ofNat (s.shared.queue.length + pc.taken))).mp ?_
    rw [todo, inv.todo, ← UInt32.ofNat_add, ← UInt32.ofNat_add]
    congr 1
    omega
  case pending =>
    have before := inv.pending
    omega
  case nTotal =>
    have entered := totals LoopPc.entered rfl
    have before := inv.nTotal
    omega
  case nIdle =>
    have idle := totals LoopPc.idle rfl
    have before := inv.nIdle
    omega
  case conserved =>
    have remaining := totals LoopPc.remaining rfl
    refine add_right_cancel (b := pc.remaining + (s.added : Multiset T)) ?_
    calc (s'.shared.queue : Multiset T) + s'.total LoopPc.remaining
          + (s'.log.map check : Multiset T) + (pc.remaining + (s.added : Multiset T))
        = (s'.total LoopPc.remaining + pc.remaining) + ((s'.shared.queue : Multiset T)
          + (s'.log.map check : Multiset T) + (s.added : Multiset T)) := by ac_rfl
      _ = s.total LoopPc.remaining + ((s'.shared.queue : Multiset T) + pc'.remaining
          + (s'.log.map check : Multiset T) + (s.added : Multiset T)) := by
        rw [remaining]
        ac_rfl
      _ = ((s.shared.queue : Multiset T) + s.total LoopPc.remaining
          + (s.log.map check : Multiset T)) + (pc.remaining + (s'.added : Multiset T)) := by
        rw [conserved]
        ac_rfl
      _ = (s'.added : Multiset T) + (pc.remaining + (s.added : Multiset T)) := by
        rw [inv.conserved]
        ac_rfl
  case justified => exact justified
  case failed => exact fun lt => failed (session.mp lt)
  case quiet =>
    intro over'
    obtain ⟨empty, none, fine⟩ := inv.quiet (session.not.mp over')
    obtain ⟨queue, none', fAllOk, -⟩ := quiet (session.not.mp over')
    exact ⟨queue.trans empty, by omega, fAllOk.trans fine⟩
  case returned =>
    intro fRet now
    have over' : ¬ InSession s.master := session.not.mp (by rw [now]; exact id)
    obtain ⟨-, -, -, log, before⟩ := quiet over'
    rw [log]
    exact inv.returned fRet (before fRet now)
  case waiting => exact waiting

theorem report_batch (here : s.pcOf thread = some (.top nNow fOk)) (ne : nNow ≠ 0)
    (moves : State.Moves s s' thread (.top nNow fOk) .inside)
    (shared : s'.shared = { s.shared with
      fAllOk := s.shared.fAllOk && fOk
      nTodo := s.shared.nTodo - nNow })
    (added : s'.added = s.added) (log : s'.log = s.log)
    (informed : s'.master = .loop (.waiting false) → s'.shared.nTodo ≠ 0) : Inv config s' := by
  have busy : (LoopPc.top nNow fOk : LoopPc T).taken ≠ 0 := by
    rw [ne_eq, ← UInt32.toNat_inj] at ne
    exact ne
  have session := inv.inSession here busy
  refine inv.shift moves.totals (moves.sized inv trivial)
    (moves.inSession_iff here trivial trivial)
    (by rw [shared]) ?_ ?_ ?_ (by rw [shared, added, log]; rfl)
    (log ▸ inv.justified) (fun _ => ?_) (fun over' => absurd session over') informed
  · rw [shared]
    simp only [LoopPc.taken, UInt32.ofNat_add, UInt32.ofNat_toNat, add_zero]
    rw [UInt32.add_comm (UInt32.ofNat _), ← UInt32.add_assoc, UInt32.sub_add_cancel]
  · rw [shared, added]
    simp only [LoopPc.taken]
    omega
  · rw [shared, LoopPc.entered, if_neg ne]
    exact ⟨rfl, rfl⟩
  have failures := moves.totals LoopPc.failures rfl
  rw [log, inv.failed session, shared]
  cases fOk with
  | true =>
    have eq : s'.total LoopPc.failures = s.total LoopPc.failures := failures
    rw [eq, Bool.and_true]
  | false =>
    have one : s'.total LoopPc.failures + 1 = s.total LoopPc.failures := failures
    simp only [Bool.and_false]
    exact iff_of_true (.inr (by omega)) (.inl trivial)

/-- A thread without a batch comes to the lock or waits: only the counters of threads
    change. -/
theorem without_batch (here : s.pcOf thread = some pc) (pc' : LoopPc T)
    (active : pc.Active ∧ pc'.Active) (sized' : pc'.Sized) (none : pc.taken = 0 ∧ pc'.taken = 0)
    (nothing : pc.remaining = 0 ∧ pc'.remaining = 0) (unfailed : pc.failures = 0 ∧ pc'.failures = 0)
    {nTotal nIdle} (counts : nTotal + pc.entered = s.shared.nTotal + pc'.entered ∧
      nIdle + pc.idle = s.shared.nIdle + pc'.idle)
    (informed : thread = Option.none → pc' = .waiting false → s.shared.nTodo ≠ 0) :
    Inv config ({ s with shared := { s.shared with nTotal, nIdle } }.setPc thread pc') := by
  have moves := moves_to here { s.shared with nTotal, nIdle } s.log pc'
  have failures := moves.totals LoopPc.failures rfl
  rw [unfailed.1, unfailed.2] at failures
  refine inv.shift moves.totals (moves.sized inv sized')
    (moves.inSession_iff here active.1 active.2) ?_ ?_ ?_ ?_ ?_ ?_ (fun lt => ?_)
    (fun _ => ⟨?_, none.2, ?_, log_setPc .., fun _ => moves.returned active.2⟩)
    (fun waits => ?_)
  all_goals simp only [shared_setPc, added_setPc, log_setPc]
  · rw [none.1, none.2]
  · rw [none.1, none.2]
  · exact counts
  · rw [nothing.1, nothing.2]
  · exact inv.justified
  · rw [add_right_cancel failures]
    exact inv.failed lt
  · cases thread with
    | none => exact informed rfl (by cases waits; rfl)
    | some w => exact inv.waiting waits

theorem report (here : s.pcOf thread = some (.top nNow fOk)) :
    Ensures (Avoidable n) (s.report thread nNow fOk) fun s' =>
      Inv config s' ∧ s'.pcOf thread = some .inside ∧ s'.added = s.added := by
  rw [State.report]
  by_cases zero : nNow = 0
  · obtain ⟨lower, upper, -, -⟩ := inv.threads
    have fine := inv.sized thread _ here zero
    rw [if_neg (not_not.mpr zero)]
    refine (ensures_count (by omega) (by omega)).bindEq ?_
    subst zero fine
    refine .pure ⟨?_, pcOf_setPc_self .., added_setPc ..⟩
    exact inv.without_batch here .inside ⟨trivial, trivial⟩ trivial ⟨rfl, rfl⟩ ⟨rfl, rfl⟩ ⟨rfl, rfl⟩
      ⟨by simp [LoopPc.entered], rfl⟩ nofun
  · let next : State n T := { s with shared := { s.shared with
      fAllOk := s.shared.fAllOk && fOk
      nTodo := s.shared.nTodo - nNow } }
    have here' : next.pcOf thread = some (.top nNow fOk) := here
    rw [if_pos zero]
    refine .pure ?_
    split
    · rename_i last
      obtain ⟨w, rfl⟩ := Option.isSome_iff_exists.mp last.2
      obtain ⟨shared, added, log⟩ := notifyMaster_frame next
      refine ⟨inv.report_batch here zero ((moves_notify here' .inside).of_frame rfl rfl)
        ?_ ?_ ?_ fun waits => absurd waits (notifyMaster_ne next), pcOf_setPc_self _ _, ?_⟩
      all_goals simp only [shared_setPc, added_setPc, log_setPc]
      all_goals assumption
    rename_i more
    refine ⟨inv.report_batch here zero ((moves_setPc here' .inside).of_frame rfl rfl)
      ?_ ?_ ?_ fun waits => ?_, pcOf_setPc_self _ _, ?_⟩
    case refine_4 =>
      cases thread with
      | none => cases waits
      | some w => exact fun none => more ⟨by rwa [shared_setPc] at none, rfl⟩
    all_goals simp only [shared_setPc, added_setPc, log_setPc]

theorem resume (here : s.pcOf thread = some (.waiting b)) :
    Ensures (Avoidable n) (s.resume thread) fun s' =>
      Inv config s' ∧ s'.pcOf thread = some .inside ∧ s'.added = s.added := by
  obtain ⟨-, -, lower, upper⟩ := inv.threads
  refine (ensures_count (by omega) (by omega)).bindEq ?_
  refine .pure ⟨?_, pcOf_setPc_self .., added_setPc ..⟩
  exact inv.without_batch here .inside ⟨trivial, trivial⟩ trivial ⟨rfl, rfl⟩ ⟨rfl, rfl⟩ ⟨rfl, rfl⟩
    ⟨rfl, by simp [LoopPc.idle]⟩ nofun

theorem batchSize (nBatchSize : UInt32) (ne : s.shared.queue ≠ []) :
    Ensures (Avoidable n) (batchSize nBatchSize s.shared) fun nNow =>
      nNow ≠ 0 ∧ nNow.toNat ≤ s.shared.queue.length := by
  obtain ⟨lower, upper, lower', upper'⟩ := inv.threads
  refine (ensures_count (by omega) (by omega)).bindEq ?_
  refine (ensures_count (by omega) (by omega)).bind ?_
  rintro divisor isDivisor
  split
  · exact .fail fun _ => by omega
  have le : (UInt32.ofNat s.shared.queue.length / UInt32.ofInt divisor).toNat
      ≤ s.shared.queue.length := by
    rw [UInt32.toNat_div, UInt32.toNat_ofNat']
    exact (div_le_self _ _).trans (mod_le _ _)
  have pos : 1 ≤ s.shared.queue.length := length_pos_iff.mpr ne
  refine .pure ?_
  rw [ne_eq, ← UInt32.toNat_inj, UInt32.toNat_max, UInt32.toNat_min, UInt32.toNat_one]
  exact ⟨by simp only [UInt32.toNat_zero]; omega, by omega⟩

theorem none_left (lt : s.added.length < 2 ^ 32) (none : s.shared.nTodo = 0) :
    s.shared.queue.length + s.total LoopPc.taken = 0 := by
  have fits := inv.pending.trans_lt lt
  have value := congrArg toNat (inv.todo.symm.trans none)
  rwa [toNat_ofNat_of_lt' fits] at value

theorem proceed_returned (lt : s.added.length < 2 ^ 32) (here : s.pcOf none = some .inside)
    (empty : s.shared.queue = []) (none : s.shared.nTodo = 0) :
    Inv config { s with
      shared := { s.shared with nTotal := s.shared.nTotal - 1, fAllOk := true }
      master := .loop (.returned s.shared.fAllOk) } := by
  have moves : State.Moves s { s with
      shared := { s.shared with nTotal := s.shared.nTotal - 1, fAllOk := true }
      master := .loop (.returned s.shared.fAllOk) } Option.none .inside (.returned s.shared.fAllOk) :=
    moves_to here _ s.log _
  have session : InSession s.master := by
    rw [master_of_pcOf here]
    trivial
  have taken := add_right_cancel (moves.totals LoopPc.taken rfl)
  have left := inv.none_left lt none
  constructor
  case going => exact inv.going
  case sized => exact moves.sized inv trivial
  case todo => rw [taken]; exact inv.todo
  case pending => rw [taken]; exact inv.pending
  case nTotal =>
    have entered : _ + 1 = s.total LoopPc.entered := moves.totals LoopPc.entered rfl
    have before := inv.nTotal
    change s.shared.nTotal - 1 = _
    omega
  case nIdle =>
    rw [add_right_cancel (moves.totals LoopPc.idle rfl)]
    exact inv.nIdle
  case conserved =>
    rw [add_right_cancel (moves.totals LoopPc.remaining rfl)]
    exact inv.conserved
  case justified => exact inv.justified
  case failed => exact fun inside => inside.elim
  case quiet => exact fun _ => ⟨empty, by omega, rfl⟩
  case returned =>
    rw [inv.failed session, inv.failures_eq_zero (by omega)]
    simp
  case waiting => exact nofun

theorem proceed_taken (here : s.pcOf thread = some .inside) (ne : nNow ≠ 0) {left batch}
    (whole : left ++ batch = s.shared.queue) (size : batch.length = nNow.toNat) :
    Inv config ({ s with shared := { s.shared with queue := left } }.setPc thread
      (.running batch nNow s.shared.fAllOk)) := by
  have moves := moves_to here { s.shared with queue := left } s.log
    (.running batch nNow s.shared.fAllOk)
  have failures := moves.totals LoopPc.failures rfl
  have length : left.length + nNow.toNat = s.shared.queue.length := by
    rw [← whole, length_append, size]
  refine inv.shift moves.totals (moves.sized inv ⟨ne, size.le⟩)
    (moves.inSession_iff here trivial trivial) ?_ ?_ ?_ ?_ ?_ ?_ (fun inside => ?_)
    (fun over' => ?_)
    (fun waits => ?_)
  all_goals simp only [shared_setPc, added_setPc, log_setPc] at failures ⊢
  · simp only [LoopPc.taken, add_zero]
    rw [length]
  · simp only [LoopPc.taken]
    omega
  · exact ⟨rfl, rfl⟩
  · rw [← whole, ← coe_add]
    simp only [LoopPc.remaining, add_zero]
  · exact inv.justified
  · rw [inv.failed inside]
    cases fine : s.shared.fAllOk with
    | true =>
      rw [fine] at failures
      rw [add_right_cancel failures]
    | false => simp
  · rw [(inv.quiet over').1, length_nil] at length
    rw [ne_eq, ← UInt32.toNat_inj] at ne
    exact absurd (Nat.eq_zero_of_add_eq_zero_left length) ne
  · exact inv.waiting (moves.waiting waits (by simp))

theorem proceed (lt : s.added.length < 2 ^ 32) (here : s.pcOf thread = some .inside) :
    Ensures (Avoidable n) (s.proceed config thread) fun s' =>
      Inv config s' ∧ s'.added = s.added := by
  obtain ⟨lower, upper, lower', upper'⟩ := inv.threads
  simp only [State.proceed]
  by_cases empty : s.shared.queue = []
  · rw [if_pos (by simp [empty, inv.going])]
    split
    · rename_i last
      obtain rfl : thread = none := by simpa using last.1
      refine (ensures_count (by omega) (by omega)).bindEq ?_
      exact .pure ⟨inv.proceed_returned lt here empty last.2, rfl⟩
    rename_i more
    refine (ensures_count (by omega) (by omega)).bindEq ?_
    refine .pure ⟨?_, added_setPc ..⟩
    exact inv.without_batch here (.waiting false) ⟨trivial, trivial⟩ trivial ⟨rfl, rfl⟩ ⟨rfl, rfl⟩
      ⟨rfl, rfl⟩ ⟨rfl, by simp [LoopPc.idle]⟩ fun isMaster _ none =>
        more ⟨by simp [isMaster], none⟩
  · rw [if_neg (by simp [empty]), if_neg (by simp [inv.going])]
    refine (inv.batchSize config.nBatchSize empty).bind ?_
    rintro nNow ⟨ne, le⟩
    exact .pure ⟨inv.proceed_taken here ne (take_append_drop ..) (by rw [length_drop]; omega),
      added_setPc ..⟩

theorem with_batch (here : s.pcOf thread = some pc) (moves : State.Moves s s' thread pc pc')
    (ne : pc.taken ≠ 0) (active : pc.Active ∧ pc'.Active) (sized' : pc'.Sized)
    (counts : pc'.taken = pc.taken ∧ pc'.entered = pc.entered ∧ pc'.idle = 0 ∧ pc.idle = 0)
    (shared : s'.shared = s.shared) (added : s'.added = s.added)
    (conserved : pc'.remaining + (s'.log.map check : Multiset T)
      = pc.remaining + (s.log.map check : Multiset T)) (justified : Justified config s'.log)
    (failed : Failed config s'.log ↔ s.shared.fAllOk = false ∨ s'.total LoopPc.failures ≠ 0) :
    Inv config s' := by
  have session := inv.inSession here ne
  refine inv.shift moves.totals (moves.sized inv sized')
    (moves.inSession_iff here active.1 active.2) (by rw [shared]) (by rw [shared, counts.1])
    (by rw [shared, added, counts.1]) (by rw [shared, counts.2.1, counts.2.2.1, counts.2.2.2]; simp)
    ?_ justified (fun _ => by rw [shared]; exact failed) (fun over' => absurd session over')
    (fun waits => ?_)
  · rw [shared, added, add_assoc (s.shared.queue : Multiset T), conserved, ← add_assoc]
  · rw [shared]
    refine inv.waiting (moves.waiting waits fun same => ?_)
    rw [same] at counts
    cases counts.2.2.1

end

theorem failed_ran {check log} :
    Failed config (.ran check :: log) ↔ Failed config log ∨ config.run check = false := by
  constructor
  · rintro ⟨other, mem, fails⟩
    obtain same | mem := mem_cons.mp mem
    · cases same
      exact .inr fails
    · exact .inl ⟨other, mem, fails⟩
  · rintro (⟨other, mem, fails⟩ | fails)
    · exact ⟨other, mem_cons_of_mem _ mem, fails⟩
    · exact ⟨check, mem_cons_self, fails⟩

theorem failed_skipped {check log} :
    Failed config (.skipped check :: log) ↔ Failed config log := by
  simp [Failed]

theorem logged (check : T) (rest log : List T) :
    (rest : Multiset T) + ((check :: log : List T) : Multiset T)
      = ((check :: rest : List T) : Multiset T) + (log : Multiset T) := by
  rw [← cons_coe, ← cons_coe, add_cons, cons_add]

theorem execute (inv : Inv config s) {vChecks}
    (here : s.pcOf thread = some (.running vChecks nNow fOk)) :
    Inv config (s.execute config thread nNow fOk vChecks) := by
  obtain ⟨ne, length⟩ := inv.sized thread _ here
  have busy : (LoopPc.running vChecks nNow fOk).taken ≠ 0 := by
    rw [ne_eq, ← UInt32.toNat_inj] at ne
    exact ne
  have known := inv.failed (inv.inSession here busy)
  cases vChecks with
  | nil =>
    have moves := moves_setPc here (.top nNow fOk)
    have failures := moves.totals LoopPc.failures rfl
    rw [State.execute]
    refine inv.with_batch here moves busy ⟨trivial, trivial⟩ (fun zero => absurd zero ne)
      ⟨rfl, if_neg ne, rfl, rfl⟩ (shared_setPc _ _) (added_setPc _ _) ?_ ?_ ?_
    · rw [log_setPc]
      rfl
    · rw [log_setPc]
      exact inv.justified
    · rw [log_setPc, add_right_cancel failures]
      exact known
  | cons check rest =>
    have le : rest.length ≤ nNow.toNat := (le_succ _).trans length
    rw [State.execute]
    cases fOk with
    | true =>
      let next := { s with log := .ran check :: s.log }.setPc thread
        (.running rest nNow (config.run check))
      have moves := moves_to here s.shared (.ran check :: s.log)
        (.running rest nNow (config.run check))
      have gained : next.total LoopPc.failures
          = s.total LoopPc.failures + if config.run check then 0 else 1 :=
        moves.totals LoopPc.failures rfl
      have log : next.log = .ran check :: s.log := log_setPc _ _
      rw [if_pos rfl]
      refine inv.with_batch here moves busy ⟨trivial, trivial⟩ ⟨ne, le⟩
        ⟨rfl, rfl, rfl, rfl⟩ (shared_setPc _ _) (added_setPc _ _) ?_ ?_ ?_
      · rw [log]
        exact logged check rest _
      · rw [log]
        exact inv.justified
      · rw [log, failed_ran, known, gained]
        cases config.run check <;> simp
    | false =>
      have moves := moves_to here s.shared (.skipped check :: s.log)
        (.running rest nNow false)
      have failures := moves.totals LoopPc.failures rfl
      rw [if_neg (by decide)]
      refine inv.with_batch here moves busy ⟨trivial, trivial⟩ ⟨ne, le⟩
        ⟨rfl, rfl, rfl, rfl⟩ (shared_setPc _ _) (added_setPc _ _) ?_ ?_ ?_
      · rw [log_setPc]
        exact logged check rest _
      · rw [log_setPc]
        have own : 1 ≤ s.total LoopPc.failures := @le_total T n s thread _ LoopPc.failures here
        exact ⟨known.mpr (.inr (by omega)), inv.justified⟩
      · rw [log_setPc, failed_skipped, add_right_cancel failures]
        exact known

end Inv

structure SameTotals (s s' : State n T) : Prop where
  taken : s'.total LoopPc.taken = s.total LoopPc.taken
  remaining : s'.total LoopPc.remaining = s.total LoopPc.remaining
  failures : s'.total LoopPc.failures = s.total LoopPc.failures
  entered : s'.total LoopPc.entered = s.total LoopPc.entered
  idle : s'.total LoopPc.idle = s.total LoopPc.idle

namespace Inv

variable (inv : Inv config s)
include inv

theorem remaining_eq_zero (none : s.total LoopPc.taken = 0) : s.total LoopPc.remaining = 0 := by
  have each : ∀ thread pc, s.pcOf thread = some pc → pc.remaining = 0 := by
    intro thread pc here
    have le : pc.taken ≤ s.total LoopPc.taken := le_total here
    cases pc with
    | running vChecks nNow fOk =>
      obtain ⟨-, length⟩ := inv.sized thread _ here
      have zero : vChecks.length = 0 := by
        rw [LoopPc.taken] at le
        omega
      rw [LoopPc.remaining, eq_nil_of_length_eq_zero zero]
      rfl
    | top | inside | waiting | returned => rfl
  have master : ofMaster LoopPc.remaining s.master = 0 := by
    cases atLoop : s.master with
    | loop pc => exact each Option.none pc (by rw [pcOf, atLoop])
    | outside | adding | notifying => rfl
  rw [total, master, add_zero]
  exact Finset.sum_eq_zero fun w _ => each (some w) _ rfl

theorem sized_of_worker (worker : s'.worker = s.worker)
    (master : ∀ pc, s'.pcOf none = some pc → pc.Sized) :
    ∀ thread pc, s'.pcOf thread = some pc → pc.Sized := by
  intro thread pc here
  cases thread with
  | none => exact master pc here
  | some w =>
    rw [pcOf, worker] at here
    exact inv.sized (some w) pc here

theorem begin (outside : s.master = .outside) :
    Inv config { s with master := .adding, added := [], log := [] } := by
  have same : SameTotals s { s with master := .adding, added := [], log := [] } := by
    constructor <;> refine total_congr (fun _ => rfl) ?_ <;> rw [outside] <;> rfl
  obtain ⟨empty, none, fine⟩ := inv.quiet (by rw [outside]; exact id)
  constructor
  case going => exact inv.going
  case sized => exact inv.sized_of_worker rfl nofun
  case todo => rw [same.taken]; exact inv.todo
  case pending => rw [same.taken, none, empty]; exact zero_le _
  case nTotal => rw [same.entered]; exact inv.nTotal
  case nIdle => rw [same.idle]; exact inv.nIdle
  case conserved =>
    rw [same.remaining, inv.remaining_eq_zero none, empty]
    rfl
  case justified => trivial
  case failed =>
    rw [fine, same.failures, inv.failures_eq_zero none]
    simp [Failed]
  case quiet => exact fun over' => absurd trivial over'
  case returned => exact nofun
  case waiting => exact nofun

theorem add (adding : s.master = .adding) (vChecks : List T) : Inv config (s.add vChecks) := by
  rw [State.add]
  split
  · exact inv
  have session : InSession s.master := by rw [adding]; trivial
  refine @shift T n config s _ inv (.returned true) (.returned true)
    (fun part _ => congrArg (· + _) (total_congr (fun _ => rfl) (by rw [adding]; rfl)))
    (inv.sized_of_worker rfl nofun) (iff_of_true trivial session) rfl ?_ ?_ ⟨rfl, rfl⟩ ?_
    inv.justified (fun _ => ?_) (fun over' => absurd session over') nofun
  · simp only [length_append, ofNat_add]
    ac_rfl
  · simp only [length_append]
    omega
  · simp only [← coe_add]
    ac_rfl
  · simpa [total, ofMaster, adding] using inv.failed session

/-- Steps of the master that touch nothing but program counters. -/
theorem of_sameTotals (same : SameTotals s s') (shared : s'.shared = s.shared)
    (added : s'.added = s.added) (log : s'.log = s.log)
    (sized : ∀ thread pc, s'.pcOf thread = some pc → pc.Sized)
    (session : InSession s'.master ↔ InSession s.master)
    (notReturned : ∀ fRet, s'.master ≠ .loop (.returned fRet))
    (ne : s'.master ≠ .loop (.waiting false)) : Inv config s' where
  going := shared ▸ inv.going
  sized := sized
  todo := by rw [shared, same.taken]; exact inv.todo
  pending := by rw [shared, added, same.taken]; exact inv.pending
  nTotal := by rw [shared, same.entered]; exact inv.nTotal
  nIdle := by rw [shared, same.idle]; exact inv.nIdle
  conserved := by rw [shared, added, log, same.remaining]; exact inv.conserved
  justified := log ▸ inv.justified
  failed := by rw [session, log, shared, same.failures]; exact inv.failed
  quiet := by rw [session, shared, same.taken]; exact inv.quiet
  returned := fun fRet now => absurd now (notReturned fRet)
  waiting := fun now => absurd now ne

theorem notify {size} (notifying : s.master = .notifying size) (woken : Fin n → LoopPc T)
    (each : ∀ w, woken w = s.worker w ∨ woken w = notified (s.worker w)) :
    Inv config { s with worker := woken, master := .adding } := by
  have part : ∀ {M : Type} (f : LoopPc T → M), f (.waiting false) = f (.waiting true) →
      ∀ w, f (woken w) = f (s.worker w) := by
    intro M f same w
    obtain unchanged | isNotified := each w
    · rw [unchanged]
    rw [isNotified]
    cases s.worker w with
    | waiting b =>
      cases b with
      | false => exact same.symm
      | true => rfl
    | top | inside | running | returned => rfl
  refine inv.of_sameTotals ?_ rfl rfl rfl ?_ (by rw [notifying]; exact Iff.rfl) (by simp) (by simp)
  · constructor <;> refine total_congr (part _ rfl) ?_ <;> rw [notifying] <;> rfl
  intro thread pc here
  cases thread with
  | none => cases here
  | some w =>
    cases here
    have sized := inv.sized (some w) _ rfl
    exact cast (part LoopPc.Sized rfl w).symm sized

theorem wait (adding : s.master = .adding) :
    Inv config { s with master := .loop (.top 0 true) } := by
  refine inv.of_sameTotals ?_ rfl rfl rfl ?_ (by rw [adding]; exact Iff.rfl) (by simp) (by simp)
  · constructor <;> refine total_congr (fun _ => rfl) ?_ <;> rw [adding] <;> rfl
  · refine inv.sized_of_worker rfl fun pc here => ?_
    cases here
    exact fun _ => rfl

theorem leave {fRet} (done : s.master = .loop (.returned fRet)) :
    Inv config { s with master := .outside } := by
  refine inv.of_sameTotals ?_ rfl rfl rfl (inv.sized_of_worker rfl nofun)
    (by rw [done]; exact Iff.rfl) (by simp) (by simp)
  constructor <;> refine total_congr (fun _ => rfl) ?_ <;> rw [done] <;> rfl

end Inv

end HobbyHash.CheckQueue
