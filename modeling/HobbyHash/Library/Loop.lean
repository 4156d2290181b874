import HobbyHash.Library.Ensures
import Mathlib.Order.WellFounded

/-! # Loops with a limited number of passes

A loop whose body may fail is run for at most a given number of passes. Where the
program has a limit of its own the state at which it is reached counts as well
(`loopUpTo`), with the invariant rule `Loop.upTo`. Where it has none (`loop`),
`Loop.total` adds a variant, and then some number of passes is enough.
-/

namespace HobbyHash.Library

variable {ε σ ρ : Type}

/-- Repeats `body` until it leaves the loop with a result, or the passes run out. -/
def loopUpTo (body : σ → Except ε (σ ⊕ ρ)) : Nat → σ → Except ε (σ ⊕ ρ)
  | 0, s => .ok (.inl s)
  | passes + 1, s => do
    match ← body s with
    | .inl next => loopUpTo body passes next
    | .inr result => return .inr result

/-- The result of the loop, or `none` if the passes run out before it. -/
def loop (body : σ → Except ε (σ ⊕ ρ)) (passes : Nat) (s : σ) : Except ε (Option ρ) := do
  match ← loopUpTo body passes s with
  | .inl _ => return none
  | .inr result => return some result

namespace Loop

variable {body : σ → Except ε (σ ⊕ ρ)} {bad : ε → Prop} {post : ρ → Prop} {s : σ}

/-- The invariant may count the passes. -/
theorem upTo {k} (inv : ℕ → σ → Prop)
    (each : ∀ k s, inv k s → Ensures bad (body s) (Sum.elim (inv (k + 1)) post))
    (start : inv k s) (passes : Nat) :
    Ensures bad (loopUpTo body passes s) (Sum.elim (inv (k + passes)) post) := by
  induction passes generalizing k s with
  | zero => exact .pure start
  | succ passes ih =>
    refine (each k s start).bind ?_
    rintro (next | res) holds
    · rw [Nat.add_comm passes, ← Nat.add_assoc]
      exact ih holds
    · exact .pure holds

theorem ensures (inv : σ → Prop)
    (each : ∀ s, inv s → Ensures bad (body s) (Sum.elim inv post)) (start : inv s) (passes : Nat) :
    Ensures bad (loop body passes s) (fun res => ∀ r, res = some r → post r) := by
  refine (upTo (k := 0) (fun _ => inv) (fun _ => each) start passes).bind ?_
  rintro (last | res) holds
  · exact .pure nofun
  · refine .pure ?_
    rintro r ⟨⟩
    exact holds

theorem total {α : Type} {lt} (wf : WellFounded lt) (variant : σ → α) (inv : σ → Prop)
    (each : ∀ s, inv s → ∃ next, body s = .ok next ∧
      Sum.elim (fun s' => inv s' ∧ lt (variant s') (variant s)) post next) (start : inv s) :
    ∃ enough, ∀ passes, enough ≤ passes →
      ∃ res, loop body passes s = .ok (some res) ∧ post res := by
  induction at_ : variant s using wf.induction generalizing s with
  | _ a ih =>
    obtain ⟨next, ran, holds⟩ := each s start
    cases next with
    | inl s' =>
      obtain ⟨kept, less⟩ := holds
      obtain ⟨enough, ends⟩ := ih (variant s') (at_ ▸ less) kept rfl
      refine ⟨enough + 1, fun passes many => ?_⟩
      obtain ⟨passes, rfl⟩ : ∃ n, passes = n + 1 := ⟨passes - 1, by omega⟩
      obtain ⟨res, ret, holds⟩ := ends passes (by omega)
      refine ⟨res, ?_, holds⟩
      rw [loop, loopUpTo, ran]
      exact ret
    | inr res =>
      refine ⟨1, fun passes many => ?_⟩
      obtain ⟨passes, rfl⟩ : ∃ n, passes = n + 1 := ⟨passes - 1, by omega⟩
      refine ⟨res, ?_, holds⟩
      rw [loop, loopUpTo, ran]
      rfl

end Loop

end HobbyHash.Library
