import HobbyHash.CheckQueue
import Mathlib.Algebra.BigOperators.Fin
import Mathlib.Algebra.Order.BigOperators.Group.Finset

/-! # Sums over the threads of the check queue

Each thread has a part in what the counters of the queue count and in the checks that
have left the queue without being executed. When a thread moves, a sum changes by the
difference of its own parts.
-/

namespace HobbyHash.CheckQueue

open Function Finset Nat

variable {T : Type} {n : Nat} {s s' : State n T}

namespace LoopPc

/-- The checks of the batch that have not been reported. -/
def taken : LoopPc T → Nat
  | .top nNow _ => nNow.toNat
  | .running _ nNow _ => nNow.toNat
  | _ => 0

/-- The checks of the batch that have not been executed. -/
def remaining : LoopPc T → Multiset T
  | .running vChecks _ _ => vChecks
  | _ => 0

/-- A failure that only this thread knows of, as a number. -/
def failures : LoopPc T → Nat
  | .top _ fOk => if fOk then 0 else 1
  | .running _ _ fOk => if fOk then 0 else 1
  | _ => 0

/-- The part of a thread in `nTotal` and in `nIdle`. -/
def entered : LoopPc T → Nat
  | .top nNow _ => if nNow = 0 then 0 else 1
  | .inside => 1
  | .waiting _ => 1
  | .running _ _ _ => 1
  | .returned _ => 0

def idle : LoopPc T → Nat
  | .waiting _ => 1
  | _ => 0

/-- A batch that is run is not empty to begin with, and a failure is that of a batch. -/
def Sized : LoopPc T → Prop
  | .top nNow fOk => nNow = 0 → fOk = true
  | .running vChecks nNow _ => nNow ≠ 0 ∧ vChecks.length ≤ nNow.toNat
  | _ => True

theorem failures_le_taken {pc : LoopPc T} (sized : pc.Sized) : pc.failures ≤ pc.taken := by
  have positive : ∀ nNow : UInt32, nNow ≠ 0 → 1 ≤ nNow.toNat := by
    intro nNow nonzero
    rw [ne_eq, ← UInt32.toNat_inj] at nonzero
    exact pos_of_ne_zero nonzero
  cases pc with
  | top nNow fOk =>
    cases fOk with
    | true => exact zero_le _
    | false => exact positive nNow fun zero => absurd (sized zero) (by decide)
  | running vChecks nNow fOk =>
    cases fOk with
    | true => exact zero_le _
    | false => exact positive nNow sized.1
  | inside => exact le_refl _
  | waiting => exact le_refl _
  | returned => exact le_refl _

theorem entered_le_one (pc : LoopPc T) : pc.entered ≤ 1 := by
  cases pc <;> simp only [entered] <;> first | split <;> omega | omega

theorem idle_le_one (pc : LoopPc T) : pc.idle ≤ 1 := by
  cases pc <;> simp [idle]

end LoopPc

namespace State

section Totals

variable {M : Type} [AddCommMonoid M] {thread other : Thread n} {pc : LoopPc T}
  {part : LoopPc T → M}

def ofMaster (f : LoopPc T → M) : MasterPc T → M
  | .loop pc => f pc
  | _ => 0

def total (s : State n T) (f : LoopPc T → M) : M :=
  (∑ w, f (s.worker w)) + ofMaster f s.master

theorem sum_update (worker : Fin n → LoopPc T) (w : Fin n) (pc : LoopPc T) (f : LoopPc T → M) :
    (∑ v, f (Function.update worker w pc v)) + f (worker w) = (∑ v, f (worker v)) + f pc := by
  rw [← add_sum_erase _ _ (mem_univ w), ← add_sum_erase univ
    (fun v => f (worker v)) (mem_univ w), update_self]
  have others : ∑ v ∈ univ.erase w, f (update worker w pc v)
      = ∑ v ∈ univ.erase w, f (worker v) := by
    refine sum_congr rfl fun v mem => ?_
    rw [update_of_ne (ne_of_mem_erase mem)]
  rw [others]
  ac_rfl

theorem total_congr (worker : ∀ w, part (s'.worker w) = part (s.worker w))
    (master : ofMaster part s'.master = ofMaster part s.master) : s'.total part = s.total part := by
  simp only [total, worker, master]

theorem pcOf_setPc_self (thread : Thread n) (pc : LoopPc T) :
    (s.setPc thread pc).pcOf thread = some pc := by
  cases thread with
  | none => rfl
  | some w => simp [setPc, pcOf]

theorem pcOf_setPc_ne (ne : other ≠ thread) (pc : LoopPc T) :
    (s.setPc thread pc).pcOf other = s.pcOf other := by
  cases thread with
  | none =>
    cases other with
    | none => exact absurd rfl ne
    | some w => rfl
  | some w =>
    cases other with
    | none => rfl
    | some v =>
      have apart : v ≠ w := fun same => ne (congrArg some same)
      simp [setPc, pcOf, update_of_ne apart]

theorem notifyMaster_cases (s : State n T) :
    s.notifyMaster = s ∨ ∃ b, s.master = .loop (.waiting b) ∧
      s.notifyMaster = { s with master := .loop (.waiting true) } := by
  rw [notifyMaster]
  split
  · rename_i b waits
    exact .inr ⟨b, waits, rfl⟩
  · exact .inl rfl

theorem notifyMaster_ne (s : State n T) : s.notifyMaster.master ≠ .loop (.waiting false) := by
  rw [notifyMaster]
  split
  · simp
  · rename_i other
    exact other false

theorem total_le (each : ∀ pc, f pc ≤ bound) :
    s.total f ≤ (n + 1) * bound := by
  have le : ∑ w, f (s.worker w) ≤ ∑ _w : Fin n, bound := sum_le_sum fun w _ => each _
  rw [sum_const, Finset.card_univ, Fintype.card_fin, smul_eq_mul] at le
  have master : ofMaster f s.master ≤ bound := by
    cases s.master with
    | loop pc => exact each pc
    | outside | adding | notifying => exact zero_le _
  rw [total, add_mul, one_mul]
  exact Nat.add_le_add le master

theorem total_mono {f g : LoopPc T → Nat}
    (each : ∀ thread pc, s.pcOf thread = some pc → f pc ≤ g pc) : s.total f ≤ s.total g := by
  refine Nat.add_le_add (sum_le_sum fun w _ => each (some w) _ rfl) ?_
  cases atLoop : s.master with
  | loop pc => exact each none pc (by rw [pcOf, atLoop])
  | outside | adding | notifying => exact Nat.le_refl _

theorem le_total {f : LoopPc T → Nat} (here : s.pcOf thread = some pc) : f pc ≤ s.total f := by
  cases thread with
  | none =>
    cases atLoop : s.master with
    | loop current =>
      rw [pcOf, atLoop] at here
      cases here
      rw [total, atLoop]
      exact le_add_left _ _
    | outside | adding | notifying =>
      rw [pcOf, atLoop] at here
      cases here
  | some w =>
    obtain rfl : s.worker w = pc := Option.some.inj here
    exact (single_le_sum (fun v _ => zero_le (f (s.worker v)))
      (mem_univ w)).trans (le_add_right _ _)

end Totals

/-- One thread moves from `pc` to `pc'`; the master may be notified meanwhile. -/
structure Moves (s s' : State n T) (thread : Thread n) (pc pc' : LoopPc T) : Prop where
  totals : ∀ {M : Type} [AddCommMonoid M] (part : LoopPc T → M),
    part (.waiting false) = part (.waiting true) →
    s'.total part + part pc = s.total part + part pc'
  pcs : ∀ other current, s'.pcOf other = some current → (current = pc' ∧ other = thread) ∨
    s.pcOf other = some current ∨ current = .waiting true
  master : s'.master = s.master ∨ (thread = none ∧ s'.master = .loop pc') ∨
    (thread ≠ none ∧ ∃ b, s.master = .loop (.waiting b) ∧ s'.master = .loop (.waiting true))

@[simp] theorem shared_setPc (thread : Thread n) (pc : LoopPc T) :
    (s.setPc thread pc).shared = s.shared := by
  cases thread <;> rfl

@[simp] theorem added_setPc (thread : Thread n) (pc : LoopPc T) :
    (s.setPc thread pc).added = s.added := by
  cases thread <;> rfl

@[simp] theorem log_setPc (thread : Thread n) (pc : LoopPc T) :
    (s.setPc thread pc).log = s.log := by
  cases thread <;> rfl

theorem notifyMaster_frame (s : State n T) :
    s.notifyMaster.shared = s.shared ∧ s.notifyMaster.added = s.added ∧
      s.notifyMaster.log = s.log := by
  obtain same | ⟨b, -, isNotified⟩ := notifyMaster_cases s
  · rw [same]
    exact ⟨rfl, rfl, rfl⟩
  · rw [isNotified]
    exact ⟨rfl, rfl, rfl⟩

variable {thread : Thread n} {pc : LoopPc T}

theorem Moves.of_frame {before pc'} (moves : Moves before s' thread pc pc')
    (worker : before.worker = s.worker) (master : before.master = s.master) :
    Moves s s' thread pc pc' where
  totals := fun part same => by
    rw [moves.totals part same, total, total, worker, master]
  pcs := fun other current now => by
    have pcs := moves.pcs other current now
    cases other with
    | none => rwa [pcOf, master] at pcs
    | some w => rwa [pcOf, worker] at pcs
  master := by
    rw [← master]
    exact moves.master

theorem moves_setPc (here : s.pcOf thread = some pc) (pc' : LoopPc T) :
    Moves s (s.setPc thread pc') thread pc pc' where
  totals := by
    intro M _ f _
    cases thread with
    | none =>
      cases atLoop : s.master with
      | loop current =>
        rw [pcOf, atLoop] at here
        cases here
        simp only [total, setPc, ofMaster, atLoop]
        rw [add_assoc, add_comm (f pc'), ← add_assoc]
      | outside | adding | notifying =>
        rw [pcOf, atLoop] at here
        cases here
    | some w =>
      obtain rfl : s.worker w = pc := Option.some.inj here
      have moved := sum_update s.worker w pc' f
      simp only [total, setPc]
      rw [add_right_comm, moved, add_right_comm]
  pcs := by
    intro other current now
    by_cases same : other = thread
    · subst same
      rw [pcOf_setPc_self] at now
      exact .inl ⟨(Option.some.inj now).symm, rfl⟩
    · rw [pcOf_setPc_ne same] at now
      exact .inr (.inl now)
  master := by
    cases thread with
    | none => exact .inr (.inl ⟨rfl, rfl⟩)
    | some w => exact .inl rfl

theorem moves_to (here : s.pcOf thread = some pc) (shared : Shared T) (log : List (Event T))
    (pc' : LoopPc T) :
    Moves s ({ s with shared, log }.setPc thread pc') thread pc pc' :=
  (@moves_setPc T n { s with shared, log } thread pc here pc').of_frame rfl rfl

theorem moves_notify {w} (here : s.pcOf (some w) = some pc) (pc' : LoopPc T) :
    Moves s (s.notifyMaster.setPc (some w) pc') (some w) pc pc' := by
  obtain same | ⟨b, waits, isNotified⟩ := notifyMaster_cases s
  · rw [same]
    exact moves_setPc here pc'
  have moved : Moves s.notifyMaster (s.notifyMaster.setPc (some w) pc') (some w) pc pc' := by
    refine moves_setPc ?_ pc'
    rw [isNotified]
    exact here
  have workers : s.notifyMaster.worker = s.worker := by rw [isNotified]
  have master : s.notifyMaster.master = .loop (.waiting true) := by rw [isNotified]
  constructor
  case totals =>
    intro M _ part same
    rw [moved.totals part same]
    congr 1
    refine total_congr (fun v => by rw [workers]) ?_
    rw [master, waits, ofMaster, ofMaster]
    cases b with
    | false => exact same.symm
    | true => rfl
  case pcs =>
    intro other current now
    obtain moves | before | notified := moved.pcs other current now
    · exact .inl moves
    · cases other with
      | none =>
        rw [pcOf, master] at before
        exact .inr (.inr (Option.some.inj before).symm)
      | some v =>
        rw [pcOf, workers] at before
        exact .inr (.inl before)
    · exact .inr (.inr notified)
  case master =>
    exact .inr (.inr ⟨by simp, b, waits, master⟩)

end State

end HobbyHash.CheckQueue
