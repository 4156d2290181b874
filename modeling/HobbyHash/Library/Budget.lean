import Mathlib.Algebra.BigOperators.Group.Finset.Piecewise
import Mathlib.Algebra.Order.BigOperators.Group.Finset

/-! # Weights that stay within a budget

A weight on an unbounded set of keys, of which only finitely many matter at a
time, is within a budget when no finite set of keys weighs more. Changing the
weight of one key changes the budget by the difference.
-/

namespace HobbyHash.Library

variable {κ M : Type} [AddCommGroup M] [PartialOrder M] [IsOrderedAddMonoid M]
  {weight heavier : κ → M} {budget : M}

def Within (weight : κ → M) (budget : M) : Prop :=
  ∀ keys : Finset κ, ∑ k ∈ keys, weight k ≤ budget

namespace Within

omit [IsOrderedAddMonoid M] in
theorem mono {larger} (within : Within weight budget) (le : budget ≤ larger) :
    Within weight larger :=
  fun keys => (within keys).trans le

theorem of_le (within : Within heavier budget) (le : ∀ k, weight k ≤ heavier k) :
    Within weight budget :=
  fun keys => (Finset.sum_le_sum fun k _ => le k).trans (within keys)

omit [IsOrderedAddMonoid M] in
theorem zero : Within (fun _ : κ => (0 : M)) 0 :=
  fun _ => (Finset.sum_eq_zero fun _ _ => rfl).le

theorem update [DecidableEq κ] (within : Within weight budget) (k : κ) (le : 0 ≤ new) :
    Within (Function.update weight k new) (budget - weight k + new) := by
  intro keys
  have others : ∑ j ∈ keys \ {k}, weight j ≤ budget - weight k := by
    have all := within (insert k (keys \ {k}))
    rw [Finset.sum_insert (by simp)] at all
    rw [le_sub_iff_add_le, add_comm]
    exact all
  by_cases mem : k ∈ keys
  · rw [Finset.sum_update_of_mem mem, add_comm]
    exact add_le_add_left others new
  · rw [Finset.sdiff_singleton_eq_erase, Finset.erase_eq_of_notMem mem] at others
    rw [Finset.sum_update_of_notMem mem]
    exact others.trans (le_add_of_nonneg_right le)

end Within

end HobbyHash.Library
