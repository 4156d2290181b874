import Mathlib.Data.List.Nodup

/-! # Logs of writes

A log is a list of writes to the keys of a map, made one after the other. Only
the last write to a key matters, and where there is one the map that the log is
replayed on does not. Two consequences carry undo and recovery: a log that ends
with the old value of every key it covers undoes another one, and a map that is
partly written is repaired by replaying all that leads from the old state to the
new one.
-/

namespace HobbyHash.Library.WriteLog

open List Prod

variable {κ β : Type} [DecidableEq κ] {log undo : List (κ × β)} {m : κ → β} {k : κ}

def replay (log : List (κ × β)) (m : κ → β) : κ → β :=
  log.foldl (fun m write => Function.update m write.1 write.2) m

/-- The last value that a log writes to a key. -/
def last : List (κ × β) → κ → Option β
  | [], _ => none
  | write :: rest, k => (last rest k).or (if write.1 = k then some write.2 else none)

theorem replay_cons (write : κ × β) (log : List (κ × β)) (m : κ → β) :
    replay (write :: log) m = replay log (Function.update m write.1 write.2) := rfl

theorem replay_append (log later : List (κ × β)) (m : κ → β) :
    replay (log ++ later) m = replay later (replay log m) :=
  foldl_append

theorem replay_apply (log : List (κ × β)) (m : κ → β) (k : κ) :
    replay log m k = (last log k).getD (m k) := by
  induction log generalizing m with
  | nil => rfl
  | cons write rest ih =>
    rw [replay_cons, ih, last]
    cases last rest k with
    | some b => rfl
    | none =>
      by_cases here : write.1 = k
      · subst here
        simp
      · simp [here, Function.update_of_ne (Ne.symm here)]

theorem replay_of_last (written : last log k = some b) (m : κ → β) : replay log m k = b := by
  rw [replay_apply, written]
  rfl

theorem last_append (log later : List (κ × β)) (k : κ) :
    last (log ++ later) k = (last later k).or (last log k) := by
  induction log with
  | nil => simp [last]
  | cons write rest ih => rw [cons_append, last, last, ih, Option.or_assoc]

theorem last_eq_none : last log k = none ↔ k ∉ log.map fst := by
  induction log with
  | nil => simp [last]
  | cons write rest ih =>
    by_cases here : write.1 = k
    · simp [last, here]
    · simp [last, here, ih, Ne.symm here]

theorem replay_of_notMem (nmem : k ∉ log.map fst) (m : κ → β) : replay log m k = m k := by
  rw [replay_apply, last_eq_none.mpr nmem]
  rfl

theorem mem_of_last (written : last log k = some b) : (k, b) ∈ log := by
  induction log with
  | nil => cases written
  | cons write rest ih =>
    rw [last] at written
    cases later : last rest k with
    | some c =>
      rw [later, Option.some_or] at written
      exact mem_cons_of_mem _ (ih (later.trans written))
    | none =>
      rw [later, Option.none_or] at written
      split at written
      · rename_i here
        obtain rfl := Option.some.inj written
        exact here ▸ mem_cons_self
      · cases written

theorem last_of_mem (ne : (log.map fst).Nodup) (mem : (k, b) ∈ log) :
    last log k = some b := by
  induction log with
  | nil => cases mem
  | cons write rest ih =>
    obtain ⟨apart, distinctRest⟩ := nodup_cons.mp ne
    rw [last]
    obtain rfl | inRest := mem_cons.mp mem
    · rw [last_eq_none.mpr apart]
      simp
    · rw [ih distinctRest inRest, Option.some_or]

theorem last_isSome (mem : k ∈ log.map fst) : ∃ b, last log k = some b := by
  cases written : last log k with
  | some b => exact ⟨b, rfl⟩
  | none => exact absurd mem (last_eq_none.mp written)

/-- A log that leaves the old value wherever another one has written undoes it. -/
theorem replay_undo (covers : ∀ k, k ∈ log.map fst → k ∈ undo.map fst)
    (restores : ∀ k b, last undo k = some b → b = m k) : replay undo (replay log m) = m := by
  funext k
  by_cases touched : k ∈ undo.map fst
  · obtain ⟨b, written⟩ := last_isSome touched
    rw [replay_of_last written]
    exact restores k b written
  · have alone : k ∉ log.map fst := fun written => touched (covers k written)
    rw [replay_of_notMem touched, replay_of_notMem alone]

/-- Part of a log that writes no key twice leaves every key in its old or in its
    new state. -/
theorem replay_prefix (ne : ((log ++ later).map fst).Nodup) (m : κ → β) (k : κ) :
    replay log m k = m k ∨ replay log m k = replay (log ++ later) m k := by
  by_cases touched : k ∈ log.map fst
  · rw [map_append] at ne
    have alone : k ∉ later.map fst := fun again =>
      (nodup_append.mp ne).2.2 k touched k again rfl
    rw [replay_append, replay_of_notMem alone]
    exact .inr rfl
  · exact .inl (replay_of_notMem touched m)

/-- A map in which every key is in its old or in its new state is made new by
    the log that leads from the old state to the new one. -/
theorem replay_mixed (reaches : replay log old = new)
    (mixture : ∀ k, mixed k = old k ∨ mixed k = new k) : replay log mixed = new := by
  funext k
  have here := congrFun reaches k
  by_cases touched : k ∈ log.map fst
  · obtain ⟨b, written⟩ := last_isSome touched
    rw [replay_of_last written] at here ⊢
    exact here
  · rw [replay_of_notMem touched] at here ⊢
    obtain isOld | isNew := mixture k
    · exact isOld.trans here
    · exact isNew

end HobbyHash.Library.WriteLog
