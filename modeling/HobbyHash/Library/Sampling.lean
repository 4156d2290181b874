import Mathlib.Data.List.Infix

/-! # Samples of a sequence

A sequence is numbered from some position on, and at the chosen positions a value
of the element is recorded. Two sequences with matching samples agree at every
chosen position that the first of them reaches; nothing is said about the others.
-/

namespace HobbyHash.Library.Sampling

open List

variable {α β : Type*} (chosen : Nat → Prop) [DecidablePred chosen] (value : α → β)

/-- The values at the chosen positions of a list that starts at position `n`. -/
def samples : Nat → List α → List β
  | _, [] => []
  | n, a :: rest =>
    if chosen n then value a :: samples (n + 1) rest else samples (n + 1) rest

theorem samples_append (n : Nat) (l m : List α) :
    samples chosen value n (l ++ m) =
      samples chosen value n l ++ samples chosen value (n + l.length) m := by
  induction l generalizing n with
  | nil => rfl
  | cons a rest ih =>
    have pos : n + 1 + rest.length = n + (a :: rest).length := by
      rw [length_cons]
      omega
    simp only [cons_append, samples]
    split
    · rw [ih, pos, cons_append]
    · rw [ih, pos]

theorem length_samples (n : Nat) (l : List α) :
    (samples chosen value n l).length = (List.range' n l.length).countP chosen := by
  induction l generalizing n with
  | nil => rfl
  | cons a rest ih =>
    rw [length_cons, range'_succ, countP_cons, ← ih]
    simp only [samples]
    split
    · rename_i here
      rw [length_cons, if_pos (decide_eq_true here)]
    · rename_i skipped
      rw [if_neg (by simpa using skipped)]
      rfl

theorem agree_of_isPrefix {n l m} (matching : samples chosen value n l <+: samples chosen value n m)
    {i a} (there : l[i]? = some a) (here : chosen (n + i)) :
    ∃ b, m[i]? = some b ∧ value b = value a := by
  induction l generalizing n m i with
  | nil => simp at there
  | cons first rest ih =>
    cases m with
    | nil =>
      have none : samples chosen value n (first :: rest) = [] := prefix_nil.mp matching
      have sampled : 0 < (samples chosen value n (first :: rest)).length := by
        rw [length_samples, countP_pos_iff]
        have lt : i < (first :: rest).length := (List.getElem?_eq_some_iff.mp there).1
        exact ⟨n + i, mem_range'_1.mpr ⟨by omega, by omega⟩, decide_eq_true here⟩
      rw [none] at sampled
      exact absurd sampled (Nat.lt_irrefl 0)
    | cons b later =>
      cases i with
      | zero =>
        simp only [Nat.add_zero] at here
        simp only [samples, if_pos here, cons_prefix_cons] at matching
        obtain rfl : first = a := by simpa using there
        exact ⟨b, rfl, matching.1.symm⟩
      | succ i =>
        have next : chosen (n + 1 + i) := by
          have : n + 1 + i = n + (i + 1) := by omega
          rwa [this]
        have tail : samples chosen value (n + 1) rest <+: samples chosen value (n + 1) later := by
          simp only [samples] at matching
          split at matching
          · exact (cons_prefix_cons.mp matching).2
          · exact matching
        exact ih tail (by simpa using there) next

end HobbyHash.Library.Sampling
