import HobbyHash.Machine

/-! # The queue of script checks

`CCheckQueue` and `CCheckQueueControl` of `checkqueue.h` as a system of threads: a
master that adds checks and waits for the verdict, and workers that run `Loop`.
What a thread does while it holds `m_mutex` is one step, so a run is a list of
steps of the threads in any order. A thread in `cond.wait` may return from it at any
time, notified or not.

Two records are kept beside the state of the program: the checks added in the current
session, and what became of each check that left the queue, the latest first.
-/

namespace HobbyHash.CheckQueue

open Machine

variable {T : Type} {n : Nat}

/-- Where a thread stands in `Loop`. -/
inductive LoopPc (T : Type) where
  /-- In front of the lock, with the batch to be reported; no batch at first. -/
  | top (nNow : UInt32) (fOk : Bool)
  /-- Holding the lock, at the inner `while`. -/
  | inside
  | waiting (notified : Bool)
  | running (vChecks : List T) (nNow : UInt32) (fOk : Bool)
  | returned (fRet : Bool)

/-- Where the master stands: without a `CCheckQueueControl`, with one, in `Add` behind the
    lock, or in `Wait`. -/
inductive MasterPc (T : Type) where
  | outside
  | adding
  | notifying (size : Nat)
  | loop (pc : LoopPc T)

inductive Event (T : Type) where
  | ran (check : T)
  | skipped (check : T)

def Event.check : Event T → T
  | .ran check => check
  | .skipped check => check

/-- What `m_mutex` protects. -/
structure Shared (T : Type) where
  queue : List T
  nIdle : Int
  nTotal : Int
  fAllOk : Bool
  nTodo : UInt32
  requestStop : Bool

/-- The batch size and `operator()` of the checks. -/
structure Config (T : Type) where
  nBatchSize : UInt32
  run : T → Bool

structure State (n : Nat) (T : Type) where
  shared : Shared T
  worker : Fin n → LoopPc T
  master : MasterPc T
  added : List T
  log : List (Event T)

def State.initial (n : Nat) (T : Type) : State n T where
  shared :=
    { queue := [], nIdle := 0, nTotal := 0, fAllOk := true, nTodo := 0, requestStop := false }
  worker := fun _ => .top 0 true
  master := .outside
  added := []
  log := []

namespace State

abbrev Thread (n : Nat) := Option (Fin n)

variable (s : State n T)

def pcOf : Thread n → Option (LoopPc T)
  | none =>
    match s.master with
    | .loop pc => some pc
    | _ => none
  | some w => some (s.worker w)

def setPc (thread : Thread n) (pc : LoopPc T) : State n T :=
  match thread with
  | none => { s with master := .loop pc }
  | some w => { s with worker := Function.update s.worker w pc }

/-- `m_master_cv.notify_one()`. -/
def notifyMaster : State n T :=
  match s.master with
  | .loop (.waiting _) => { s with master := .loop (.waiting true) }
  | _ => s

/-- A notification for one thread that waits. -/
def notified : LoopPc T → LoopPc T
  | .waiting _ => .waiting true
  | pc => pc

/-- The clean-up of the previous loop run, or the first iteration. -/
def report (thread : Thread n) (nNow : UInt32) (fOk : Bool) :
    Except Fault (State n T) :=
  if nNow ≠ 0 then
    let shared := { s.shared with
      fAllOk := s.shared.fAllOk && fOk
      nTodo := s.shared.nTodo - nNow }
    let s := { s with shared := shared }
    .ok ((if shared.nTodo = 0 ∧ thread.isSome then s.notifyMaster else s).setPc thread .inside)
  else do
    let nTotal ← int (s.shared.nTotal + 1)
    return { s with shared := { s.shared with nTotal := nTotal } }.setPc thread .inside

/-- The return from `cond.wait`. -/
def resume (thread : Thread n) : Except Fault (State n T) := do
  let nIdle ← int (s.shared.nIdle - 1)
  return { s with shared := { s.shared with nIdle := nIdle } }.setPc thread .inside

/-- `nNow`, the number of checks to be taken. -/
def batchSize (nBatchSize : UInt32) (shared : Shared T) : Except Fault UInt32 := do
  let threads ← int (shared.nTotal + shared.nIdle)
  let divisor ← int (threads + 1)
  if divisor = 0 then .error .divisionByZero
  else return max 1 (min nBatchSize (UInt32.ofNat shared.queue.length / UInt32.ofInt divisor))

/-- From the inner `while` to the end of the critical section. -/
def proceed (config : Config T) (s : State n T) (thread : Thread n) :
    Except Fault (State n T) :=
  let shared := s.shared
  if shared.queue.isEmpty ∧ !shared.requestStop then
    if thread.isNone ∧ shared.nTodo = 0 then do
      let nTotal ← int (shared.nTotal - 1)
      return { s with shared := { shared with nTotal := nTotal, fAllOk := true } }.setPc thread
        (.returned shared.fAllOk)
    else do
      let nIdle ← int (shared.nIdle + 1)
      return { s with shared := { shared with nIdle := nIdle } }.setPc thread (.waiting false)
  else if shared.requestStop then .ok (s.setPc thread (.returned false))
  else do
    let nNow ← batchSize config.nBatchSize shared
    let start := shared.queue.length - nNow.toNat
    return { s with shared := { shared with queue := shared.queue.take start } }.setPc thread
      (.running (shared.queue.drop start) nNow shared.fAllOk)

/-- One round of the loop that executes the batch, and its end. -/
def execute (config : Config T) (s : State n T) (thread : Thread n) (nNow : UInt32) (fOk : Bool) :
    List T → State n T
  | [] => s.setPc thread (.top nNow fOk)
  | check :: rest =>
    if fOk then
      { s with log := .ran check :: s.log }.setPc thread (.running rest nNow (config.run check))
    else { s with log := .skipped check :: s.log }.setPc thread (.running rest nNow fOk)

/-- `Add` up to the end of the lock. -/
def add (vChecks : List T) : State n T :=
  if vChecks.isEmpty then s
  else { s with
    shared := { s.shared with
      queue := s.shared.queue ++ vChecks
      nTodo := s.shared.nTodo + UInt32.ofNat vChecks.length }
    master := .notifying vChecks.length
    added := s.added ++ vChecks }

end State

/-- The steps of the threads. `notify` names the worker that `notify_one` picks; to name
    none, or one that does not wait, loses the notification and only adds runs. -/
inductive Action (n : Nat) (T : Type) where
  | begin
  | add (vChecks : List T)
  | notify (picked : Option (Fin n))
  | wait
  | leave
  | enter (thread : State.Thread n)
  | wake (thread : State.Thread n)
  | execute (thread : State.Thread n)

open State in
/-- One step; nothing if the thread is not where the step starts. -/
def step (config : Config T) (s : State n T) : Action n T → Except Fault (Option (State n T))
  | .begin =>
    match s.master with
    | .outside => .ok (some { s with master := .adding, added := [], log := [] })
    | _ => .ok none
  | .add vChecks =>
    match s.master with
    | .adding => .ok (some (s.add vChecks))
    | _ => .ok none
  | .notify picked =>
    match s.master with
    | .notifying size =>
      let woken : Fin n → LoopPc T := fun w =>
        if size = 1 ∧ picked ≠ some w then s.worker w else notified (s.worker w)
      .ok (some { s with worker := woken, master := .adding })
    | _ => .ok none
  | .wait =>
    match s.master with
    | .adding => .ok (some { s with master := .loop (.top 0 true) })
    | _ => .ok none
  | .leave =>
    match s.master with
    | .loop (.returned _) => .ok (some { s with master := .outside })
    | _ => .ok none
  | .enter thread =>
    match s.pcOf thread with
    | some (.top nNow fOk) => do
      let s ← s.report thread nNow fOk
      return some (← s.proceed config thread)
    | _ => .ok none
  | .wake thread =>
    match s.pcOf thread with
    | some (.waiting _) => do
      let s ← s.resume thread
      return some (← s.proceed config thread)
    | _ => .ok none
  | .execute thread =>
    match s.pcOf thread with
    | some (.running vChecks nNow fOk) => .ok (some (s.execute config thread nNow fOk vChecks))
    | _ => .ok none

end HobbyHash.CheckQueue
