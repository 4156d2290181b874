import Mathlib.Algebra.BigOperators.Intervals
import Mathlib.Algebra.Order.BigOperators.Group.Finset
import Mathlib.Algebra.Order.Ring.Int
import Mathlib.Data.Finset.Sort

/-! # Searching all subsets, inclusion first

A depth-first search over the subsets of `{0, …, n - 1}` decides one index after
another and tries to include it before it tries to leave it out. The chosen
indices, newest first, and the number of decided ones are the whole state of the
search. The subsets it has left behind are those that differ from the current
path for the first time at an index they contain; `Covers` says that each of them
is settled, and has one rule for each move of the search. What "settled" means is
up to the user of the rules.
-/

namespace HobbyHash.Library

open Finset

/-- The indices below `depth` are decided: those in `chosen`, newest first, are in. -/
structure SearchPath (chosen : List ℕ) (depth : ℕ) : Prop where
  decreasing : chosen.Pairwise (· > ·)
  below : ∀ i ∈ chosen, i < depth

namespace SearchPath

variable {chosen : List ℕ} {depth last : ℕ}

theorem root : SearchPath [] 0 where
  decreasing := .nil
  below := by simp

theorem take (path : SearchPath chosen depth) : SearchPath (depth :: chosen) (depth + 1) where
  decreasing := List.pairwise_cons.mpr ⟨path.below, path.decreasing⟩
  below := by
    intro i mem
    cases mem with
    | head => exact Nat.lt_succ_self depth
    | tail _ older => exact Nat.lt_succ_of_lt (path.below i older)

theorem skip (path : SearchPath chosen depth) : SearchPath chosen (depth + 1) where
  decreasing := path.decreasing
  below := fun i mem => Nat.lt_succ_of_lt (path.below i mem)

theorem last_lt (path : SearchPath (last :: chosen) depth) : last < depth :=
  path.below last List.mem_cons_self

theorem back (path : SearchPath (last :: chosen) depth) : SearchPath chosen last where
  decreasing := (List.pairwise_cons.mp path.decreasing).2
  below := (List.pairwise_cons.mp path.decreasing).1

theorem nodup (path : SearchPath chosen depth) : chosen.Nodup :=
  path.decreasing.imp fun older => Nat.ne_of_gt older

theorem sum_le (path : SearchPath chosen depth) {f : ℕ → ℤ} (le : depth ≤ n)
    (nonneg : ∀ i < n, 0 ≤ f i) : (chosen.map f).sum ≤ ∑ i ∈ range n, f i := by
  rw [← List.sum_toFinset _ path.nodup]
  refine sum_le_sum_of_subset_of_nonneg ?_ fun i mem _ => nonneg i (mem_range.mp mem)
  intro i mem
  exact mem_range.mpr ((path.below i (List.mem_toFinset.mp mem)).trans_le le)

end SearchPath

/-- The subset makes the decisions of the path. -/
def AgreesBelow (subset : Finset ℕ) (chosen : List ℕ) (depth : ℕ) : Prop :=
  ∀ i < depth, (i ∈ subset ↔ i ∈ chosen)

/-- The search tried to include an index and has come back from it, and that is
    where the subset and the path part. -/
def Passed (subset : Finset ℕ) (chosen : List ℕ) (depth : ℕ) : Prop :=
  ∃ i < depth, i ∈ subset ∧ i ∉ chosen ∧ AgreesBelow subset chosen i

variable {subset : Finset ℕ} {chosen : List ℕ} {depth last n : ℕ}

theorem agrees_cons (le : i ≤ last) :
    AgreesBelow subset (last :: chosen) i ↔ AgreesBelow subset chosen i := by
  refine forall₂_congr fun j lt => ?_
  simp [Nat.ne_of_lt (Nat.lt_of_lt_of_le lt le)]

theorem not_passed_root : ¬ Passed subset chosen 0 := by
  rintro ⟨i, lt, -⟩
  exact Nat.not_lt_zero i lt

theorem passed_take (passed : Passed subset (depth :: chosen) (depth + 1)) :
    Passed subset chosen depth := by
  obtain ⟨i, below, mem, absent, agrees⟩ := passed
  have ne : i ≠ depth := by
    rintro rfl
    exact absent List.mem_cons_self
  have lt : i < depth := by omega
  exact ⟨i, lt, mem, fun older => absent (List.mem_cons_of_mem _ older),
    (agrees_cons (by omega)).mp agrees⟩

theorem passed_skip (passed : Passed subset chosen (depth + 1)) :
    Passed subset chosen depth ∨ (AgreesBelow subset chosen depth ∧ depth ∈ subset) := by
  obtain ⟨i, lt, mem, absent, agrees⟩ := passed
  by_cases here : i = depth
  · subst here
    exact .inr ⟨agrees, mem⟩
  · exact .inl ⟨i, by omega, mem, absent, agrees⟩

/-- Two paths that part: the subset was passed, agrees, or is still to come. -/
theorem passed_or_agrees (depth : ℕ) (first : ∀ i < depth, i ∈ chosen → i ∈ subset) :
    Passed subset chosen depth ∨ AgreesBelow subset chosen depth := by
  induction depth with
  | zero => exact .inr fun i lt => absurd lt (Nat.not_lt_zero i)
  | succ depth ih =>
    rcases ih fun i lt => first i (by omega) with passed | agrees
    · obtain ⟨i, lt, rest⟩ := passed
      exact .inl ⟨i, by omega, rest⟩
    by_cases mem : depth ∈ subset
    · by_cases taken : depth ∈ chosen
      · refine .inr fun i lt => ?_
        by_cases here : i = depth
        · simp [here, mem, taken]
        · exact agrees i (by omega)
      · exact .inl ⟨depth, by omega, mem, taken, agrees⟩
    refine .inr fun i lt => ?_
    by_cases here : i = depth
    · subst here
      exact iff_of_false mem fun taken => mem (first i (by omega) taken)
    · exact agrees i (by omega)

theorem passed_back (path : SearchPath (last :: chosen) depth)
    (passed : Passed subset chosen (last + 1)) :
    Passed subset (last :: chosen) depth ∨ AgreesBelow subset (last :: chosen) depth := by
  have before := path.last_lt
  rcases passed_skip passed with ⟨i, below, mem, absent, agrees⟩ | ⟨agrees, mem⟩
  · refine .inl ⟨i, by omega, mem, ?_, (agrees_cons (by omega)).mpr agrees⟩
    simp [Nat.ne_of_lt below, absent]
  · refine passed_or_agrees depth fun i below taken => ?_
    cases taken with
    | head => exact mem
    | tail _ older => exact (agrees i (path.back.below i older)).mpr older

section Covers

variable {settled settled' : Finset ℕ → Prop}

/-- Every subset of the first `n` indices that was passed is settled. -/
def Covers (settled : Finset ℕ → Prop) (n : ℕ) (chosen : List ℕ) (depth : ℕ) : Prop :=
  ∀ subset ⊆ range n, Passed subset chosen depth → settled subset

/-- Every subset of the first `n` indices that makes these decisions is settled. -/
def Barren (settled : Finset ℕ → Prop) (n : ℕ) (chosen : List ℕ) (depth : ℕ) : Prop :=
  ∀ subset ⊆ range n, AgreesBelow subset chosen depth → settled subset

theorem Covers.root : Covers settled n chosen 0 :=
  fun _ _ passed => absurd passed not_passed_root

section

variable (covers : Covers settled n chosen depth)
include covers

theorem Covers.mono (weaker : ∀ subset, settled subset → settled' subset) :
    Covers settled' n chosen depth :=
  fun subset lt passed => weaker subset (covers subset lt passed)

theorem Covers.take :
    Covers settled n (depth :: chosen) (depth + 1) :=
  fun subset lt passed => covers subset lt (passed_take passed)

/-- An index may be left out when nothing is gained by including it. -/
theorem Covers.skip
    (none : ∀ subset ⊆ range n, AgreesBelow subset chosen depth → depth ∈ subset → settled subset) :
    Covers settled n chosen (depth + 1) := by
  intro subset lt passed
  rcases passed_skip passed with passed | ⟨agrees, mem⟩
  · exact covers subset lt passed
  · exact none subset lt agrees mem

end

theorem Covers.back (covers : Covers settled n (last :: chosen) depth)
    (path : SearchPath (last :: chosen) depth) (barren : Barren settled n (last :: chosen) depth) :
    Covers settled n chosen (last + 1) := by
  intro subset lt passed
  rcases passed_back path passed with passed | agrees
  · exact covers subset lt passed
  · exact barren subset lt agrees

theorem Covers.done (covers : Covers settled n [] depth) (barren : Barren settled n [] depth) :
    ∀ subset ⊆ range n, settled subset := by
  intro subset lt
  rcases passed_or_agrees depth (fun i _ taken => absurd taken List.not_mem_nil) with
    passed | agrees
  · exact covers subset lt passed
  · exact barren subset lt agrees

end Covers

section Sums

variable {M : Type} [AddCommGroup M] [LinearOrder M] [IsOrderedAddMonoid M] {f : ℕ → M}

omit [LinearOrder M] [IsOrderedAddMonoid M] in
theorem AgreesBelow.sum_eq (agrees : AgreesBelow subset chosen depth)
    (path : SearchPath chosen depth) :
    ∑ i ∈ subset, f i = (chosen.map f).sum + ∑ i ∈ subset with depth ≤ i, f i := by
  have decided : subset.filter (fun i => ¬ depth ≤ i) = chosen.toFinset := by
    ext i
    simp only [mem_filter, List.mem_toFinset, not_le]
    constructor
    · intro ⟨mem, below⟩
      exact (agrees i below).mp mem
    · intro taken
      have below := path.below i taken
      exact ⟨(agrees i below).mpr taken, below⟩
  rw [← sum_filter_add_sum_filter_not subset (fun i => depth ≤ i), decided,
    List.sum_toFinset f path.nodup, add_comm]

theorem AgreesBelow.le_sum (agrees : AgreesBelow subset chosen depth)
    (path : SearchPath chosen depth)
    (nonneg : ∀ i ∈ subset, 0 ≤ f i) : (chosen.map f).sum ≤ ∑ i ∈ subset, f i := by
  rw [agrees.sum_eq path]
  refine le_add_of_nonneg_right (sum_nonneg fun i mem => ?_)
  exact nonneg i (mem_filter.mp mem).1

theorem AgreesBelow.sum_le (agrees : AgreesBelow subset chosen depth)
    (path : SearchPath chosen depth)
    (lt : subset ⊆ range n) (nonneg : ∀ i < n, 0 ≤ f i) :
    ∑ i ∈ subset, f i ≤ (chosen.map f).sum + ∑ i ∈ Ico depth n, f i := by
  rw [agrees.sum_eq path]
  refine add_le_add_right ?_ _
  refine sum_le_sum_of_subset_of_nonneg ?_ fun i mem _ => nonneg i (mem_Ico.mp mem).2
  intro i mem
  obtain ⟨mem, from_⟩ := mem_filter.mp mem
  exact mem_Ico.mpr ⟨from_, mem_range.mp (lt mem)⟩

end Sums

section Exchange

/-- The subset with index `old` replaced by `new`. -/
def exchange (subset : Finset ℕ) (old new : ℕ) : Finset ℕ :=
  insert new (subset.erase old)

theorem sum_exchange {M : Type} [AddCommGroup M] {f : ℕ → M} (mem : old ∈ subset)
    (absent : new ∉ subset) :
    ∑ i ∈ exchange subset old new, f i = ∑ i ∈ subset, f i - f old + f new := by
  have nmem : new ∉ subset.erase old := fun taken => absent (mem_of_mem_erase taken)
  rw [exchange, sum_insert nmem, ← sum_erase_add subset f mem, add_sub_cancel_right,
    add_comm]

theorem exchange_subset (inside : subset ⊆ range n) (lt : new < n) :
    exchange subset old new ⊆ range n := by
  intro i mem
  rcases mem_insert.mp mem with rfl | mem
  · exact mem_range.mpr lt
  · exact inside (mem_of_mem_erase mem)

/-- An omitted index put back in place of a later one gives a subset that was
    passed already. -/
theorem passed_exchange (agrees : AgreesBelow subset chosen depth) (lt : new < depth)
    (le : depth ≤ old) (nmem : new ∉ chosen) : Passed (exchange subset old new) chosen depth := by
  refine ⟨new, lt, mem_insert_self _ _, nmem, fun i below => ?_⟩
  rw [← agrees i (by omega), exchange, mem_insert, mem_erase]
  constructor
  · rintro (rfl | ⟨-, mem⟩)
    · exact absurd below (Nat.lt_irrefl i)
    · exact mem
  · intro mem
    exact .inr ⟨by omega, mem⟩

/-- The index before the one to be decided was left out: taking it in place of that one
    gives a subset that is settled. -/
theorem Covers.exchange {settled : Finset ℕ → Prop} (covers : Covers settled n chosen (i + 1))
    (lt : i < n) (nmem : i ∉ chosen) (inside : subset ⊆ range n)
    (agrees : AgreesBelow subset chosen (i + 1)) :
    i ∉ subset ∧ settled (exchange subset (i + 1) i) :=
  ⟨fun taken => nmem ((agrees i (Nat.lt_succ_self i)).mp taken),
    covers _ (exchange_subset inside lt)
      (passed_exchange agrees (Nat.lt_succ_self i) (Nat.le_refl _) nmem)⟩

end Exchange

section Remaining

/-- The nodes of the search tree that are still to be visited: those below the path, and for
    every chosen index those of the branch that leaves it out. -/
def remaining (n : ℕ) (chosen : List ℕ) (depth : ℕ) : ℕ :=
  2 ^ (n + 1 - depth) - 1 + (chosen.map fun i => 2 ^ (n - i) - 1).sum

theorem remaining_root : remaining n [] 0 < 2 ^ (n + 1) := by
  rw [remaining, List.map_nil, List.sum_nil]
  exact Nat.sub_lt (Nat.two_pow_pos _) Nat.one_pos

theorem remaining_pos (le : depth ≤ n) : 0 < remaining n chosen depth := by
  have more : 2 ^ 1 ≤ 2 ^ (n + 1 - depth) := Nat.pow_le_pow_right Nat.two_pos (by omega)
  rw [remaining]
  omega

theorem remaining_next (lt : depth < n) :
    remaining n (depth :: chosen) (depth + 1) < remaining n chosen depth ∧
      remaining n chosen (depth + 1) < remaining n chosen depth := by
  have double : 2 ^ (n + 1 - depth) = 2 * 2 ^ (n - depth) := by
    rw [← Nat.pow_succ', Nat.sub_add_comm lt.le]
  have pos := Nat.two_pow_pos (n - depth)
  simp only [remaining, Nat.add_sub_add_right, List.map_cons, List.sum_cons]
  omega

theorem remaining_skip (le : depth ≤ next) :
    remaining n chosen next ≤ remaining n chosen depth := by
  have less : 2 ^ (n + 1 - next) ≤ 2 ^ (n + 1 - depth) :=
    Nat.pow_le_pow_right Nat.two_pos (by omega)
  rw [remaining, remaining]
  omega

theorem remaining_back (le : depth ≤ n) :
    remaining n chosen (last + 1) < remaining n (last :: chosen) depth := by
  have pos := @remaining_pos [] depth n le
  simp only [remaining, Nat.add_sub_add_right, List.map_cons, List.sum_cons, List.map_nil,
    List.sum_nil] at pos ⊢
  omega

end Remaining

end HobbyHash.Library
