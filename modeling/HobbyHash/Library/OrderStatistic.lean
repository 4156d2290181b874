import Mathlib.Data.List.Sort

/-! # Order statistics of a list

The `k`-th smallest entry is at most `v` exactly when more than `k` entries are.
Everything a sliding median needs follows from this count: it is monotone in
every entry and lies among the entries themselves.
-/

namespace HobbyHash.Library.OrderStatistic

open List

variable {α : Type*} [LinearOrder α]

def kthSmallest (l : List α) (k : Nat) : Option α :=
  (l.insertionSort (· ≤ ·))[k]?

variable {l : List α} {k : Nat}

theorem kthSmallest_isSome (lt : k < l.length) :
    ∃ v, kthSmallest l k = some v :=
  ⟨_, getElem?_eq_getElem (by simpa using lt)⟩

theorem kthSmallest_mem (h : kthSmallest l k = some v) : v ∈ l :=
  (l.perm_insertionSort (· ≤ ·)).mem_iff.mp (mem_of_getElem? h)

private theorem sorted_count (sorted : l.Pairwise (· ≤ ·)) (at_k : l[k]? = some x) (v : α) :
    x ≤ v ↔ k < l.countP (· ≤ v) := by
  induction l generalizing k with
  | nil => simp at at_k
  | cons head tail ih =>
    obtain ⟨least, tailSorted⟩ := pairwise_cons.mp sorted
    by_cases lt : head ≤ v
    · rw [countP_cons_of_pos (by simpa using lt)]
      cases k with
      | zero =>
        obtain rfl : head = x := by simpa using at_k
        simp only [lt, Nat.zero_lt_succ]
      | succ k =>
        rw [ih tailSorted (by simpa using at_k)]
        omega
    have none : ∀ y ∈ tail, ¬ y ≤ v := fun y mem le => lt ((least y mem).trans le)
    rw [countP_cons_of_neg (by simpa using lt),
      countP_eq_zero.mpr (by simpa using none)]
    simp only [Nat.not_lt_zero, iff_false]
    cases k with
    | zero =>
      obtain rfl : head = x := by simpa using at_k
      exact lt
    | succ k => exact none x (mem_of_getElem? (by simpa using at_k))

theorem kthSmallest_le_iff (h : kthSmallest l k = some x) (v : α) :
    x ≤ v ↔ k < l.countP (· ≤ v) := by
  rw [sorted_count (l.pairwise_insertionSort (· ≤ ·)) h v,
    (l.perm_insertionSort (· ≤ ·)).countP_eq]

theorem lt_kthSmallest_iff (h : kthSmallest l k = some x) (v : α) :
    v < x ↔ l.countP (· ≤ v) ≤ k := by
  rw [← not_le, kthSmallest_le_iff h, Nat.not_lt]

theorem kthSmallest_mono (h : List.Forall₂ (· ≤ ·) l m) (hx : kthSmallest l k = some x)
    (hy : kthSmallest m k = some y) : x ≤ y := by
  rw [kthSmallest_le_iff hx]
  have more : m.countP (· ≤ y) ≤ l.countP (· ≤ y) := by
    clear hx hy
    induction h with
    | nil => exact le_rfl
    | cons le _ ih =>
      simp only [countP_cons]
      split <;> split
      · omega
      · simp_all only [decide_eq_true_eq]
        exact absurd (le.trans ‹_›) ‹_›
      · omega
      · omega
  exact lt_of_lt_of_le ((kthSmallest_le_iff hy y).mp le_rfl) more

end HobbyHash.Library.OrderStatistic
