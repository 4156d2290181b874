import Mathlib.Tactic.Common

/-! # Postconditions of computations that may fail

`Ensures bad x post` says that `x` does not fail in a way that `bad` names, and
that what it returns satisfies `post`. With `bad` empty this is partial
correctness, with `bad` full it is total correctness, and with `bad` one kind of
error it says that this error cannot happen. The rules are the same for all.
-/

namespace HobbyHash.Library

variable {ε α β : Type} {bad : ε → Prop} {x : Except ε α} {post : α → Prop}

def Ensures (bad : ε → Prop) (x : Except ε α) (post : α → Prop) : Prop :=
  match x with
  | .ok a => post a
  | .error e => ¬ bad e

variable {next : α → Except ε β} {after : β → Prop} {a : α}

namespace Ensures

theorem pure (h : post a) : Ensures bad (.ok a) post := h

theorem fail {e} (h : ¬ bad e) : Ensures bad (.error e) post := h

theorem mono {weaker} (h : Ensures bad x post) (le : ∀ a, post a → weaker a) :
    Ensures bad x weaker := by
  cases x with
  | ok a => exact le a h
  | error e => exact h

theorem weaken {fewer} (h : Ensures bad x post) (le : ∀ e, fewer e → bad e) :
    Ensures fewer x post := by
  cases x with
  | ok a => exact h
  | error e => exact mt (le e) h

theorem bind (h : Ensures bad x post) (rest : ∀ a, post a → Ensures bad (next a) after) :
    Ensures bad (x >>= next) after := by
  cases x with
  | ok a => exact rest a h
  | error e => exact h

theorem bindEq (h : Ensures bad x (· = a)) (rest : Ensures bad (next a) after) :
    Ensures bad (x >>= next) after := by
  refine h.bind ?_
  rintro _ rfl
  exact rest

theorem bindOk (ret : x = .ok a) (rest : Ensures bad (next a) after) :
    Ensures bad (x >>= next) after := by
  subst ret
  exact rest

theorem of_imp {good : Prop} (h : good → x = .ok a) :
    Ensures (fun _ => good) x fun b => x = .ok b ∧ (good → b = a) := by
  cases x with
  | ok b => exact ⟨rfl, fun isGood => Except.ok.inj (h isGood)⟩
  | error e => exact fun isGood => nomatch h isGood

theorem returning (h : Ensures bad x post) : Ensures bad x fun a => x = .ok a ∧ post a := by
  cases x with
  | ok a => exact ⟨rfl, h⟩
  | error e => exact h

theorem of_eq_ok (h : Ensures bad x post) (ret : x = .ok a) : post a := by
  subst ret
  exact h

theorem exists_ok (h : Ensures bad x post) (all : ∀ e, bad e) : ∃ a, x = .ok a ∧ post a := by
  cases x with
  | ok a => exact ⟨a, rfl, h⟩
  | error e => exact absurd (all e) h

theorem ne_error {e} (h : Ensures bad x post) (isBad : bad e) : x ≠ .error e := by
  rintro rfl
  exact h isBad

theorem partially (none : ∀ e, ¬ bad e) (h : ∀ a, x = .ok a → post a) : Ensures bad x post := by
  cases x with
  | ok a => exact h a rfl
  | error e => exact none e

theorem andThen (h : Ensures bad x (fun _ => True)) (rest : ∀ a, Ensures bad (next a) after) :
    Ensures bad (x >>= next) after :=
  h.bind fun a _ => rest a

/-- A loop: the invariant may mention the elements still to come. -/
theorem foldlM {step} (inv : List α → β → Prop) {l b} (start : inv l b)
    (each : ∀ a rest b, inv (a :: rest) b → Ensures bad (step b a) (inv rest)) :
    Ensures bad (l.foldlM step b) (inv []) := by
  induction l generalizing b with
  | nil => exact start
  | cons a rest ih =>
    exact (each a rest b start).bind fun b' kept => ih kept

end Ensures

end HobbyHash.Library
