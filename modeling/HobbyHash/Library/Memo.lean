import Mathlib.Tactic.Common

/-! # Caches that cannot be seen

Queries share a cache that each of them reads and writes. If on every valid cache
a query is answered as it should be and leaves a valid cache behind, so is every
query of a sequence, whatever came before it. A table is valid if it holds no value
but those of a function, a set if it holds nothing that was not put into it.
-/

namespace HobbyHash.Library.Memo

section Queries

variable {ε Q A C : Type}

/-- The answers of queries that share one cache. -/
def answers (run : Q → C → Except ε (A × C)) : C → List Q → Except ε (List A × C)
  | cache, [] => .ok ([], cache)
  | cache, query :: rest => do
    let (answer, cache) ← run query cache
    let (later, cache) ← answers run cache rest
    return (answer :: later, cache)

/-- A query is answered as specified on every valid cache, and keeps it valid. -/
def Transparent (run : Q → C → Except ε (A × C)) (valid : C → Prop) (spec : Q → A → Prop)
    (query : Q) : Prop :=
  ∀ cache, valid cache →
    ∃ answer cache', run query cache = .ok (answer, cache') ∧ spec query answer ∧ valid cache'

theorem answers_of_transparent {run : Q → C → Except ε (A × C)} {valid : C → Prop}
    {spec : Q → A → Prop} {queries : List Q} {cache : C} (start : valid cache)
    (each : ∀ query ∈ queries, Transparent run valid spec query) :
    ∃ given cache', answers run cache queries = .ok (given, cache') ∧
      List.Forall₂ spec queries given ∧ valid cache' := by
  induction queries generalizing cache with
  | nil => exact ⟨[], cache, rfl, .nil, start⟩
  | cons query rest ih =>
    obtain ⟨answer, next, ran, right, stillValid⟩ := each query List.mem_cons_self cache start
    obtain ⟨later, last, ranLater, rightLater, lastValid⟩ :=
      ih stillValid (List.forall_mem_cons.mp each).2
    refine ⟨answer :: later, last, ?_, .cons right rightLater, lastValid⟩
    simp only [answers, ran, ranLater, bind, Except.bind]
    rfl

end Queries

section Tables

variable {K V : Type} {table : K → Option V} {f : K → V} {k : K} {v : V}

/-- Every value in the table is the value of the function. -/
def Agrees (table : K → Option V) (f : K → V) : Prop := ∀ k v, table k = some v → v = f k

theorem agrees_empty (f : K → V) : Agrees (fun _ => none) f := nofun

theorem Agrees.update [DecidableEq K] (agrees : Agrees table f) (right : v = f k) :
    Agrees (Function.update table k (some v)) f := by
  intro key value found
  by_cases same : key = k
  · subst same
    rw [Function.update_self] at found
    cases found
    exact right
  · rw [Function.update_of_ne same] at found
    exact agrees key value found

end Tables

/-- A set that may forget elements at any time, and invents none. -/
structure LossySet (K : Type) where
  State : Type
  empty : State
  contains : State → K → Bool
  /-- The set after a look-up that gives the element up. -/
  release : State → K → State
  insert : State → K → State
  contains_empty : ∀ k, contains empty k = false
  contains_release : ∀ {s k other}, contains (release s k) other → contains s other
  contains_insert : ∀ {s k other}, contains (insert s k) other → other = k ∨ contains s other

def LossySet.exact (K : Type) [DecidableEq K] : LossySet K where
  State := List K
  empty := []
  contains s k := decide (k ∈ s)
  release s k := s.filter (· ≠ k)
  insert s k := k :: s
  contains_empty _ := rfl
  contains_release := by
    intro s k other found
    simp only [decide_eq_true_eq, List.mem_filter] at found ⊢
    exact found.1
  contains_insert := by
    intro s k other found
    simpa using found

end HobbyHash.Library.Memo
