import Mathlib.Order.Bounds.Basic
import Mathlib.Tactic.Ring

/-! # Rounding down to a set of representable values

A lossy encoding whose decoder returns the greatest representable value not
above its input is monotone and fixes what it can represent. Nothing else about
the encoding is needed by its users, so the order facts stand over an arbitrary
partial order and the base/mantissa grid is a separate instance of them.
-/

namespace HobbyHash.Library.Rounding

variable {α : Type*} [PartialOrder α] {grid domain : Set α} {round : α → α} {x y : α}

/-- On `domain`, `round` returns the greatest member of `grid` below its input. -/
def RoundsDown (grid domain : Set α) (round : α → α) : Prop :=
  ∀ x ∈ domain, IsGreatest {y | y ∈ grid ∧ y ≤ x} (round x)

namespace RoundsDown

variable (h : RoundsDown grid domain round)
include h

variable (hx : x ∈ domain)
include hx

theorem le : round x ≤ x :=
  (h x hx).1.2

theorem mem : round x ∈ grid :=
  (h x hx).1.1

theorem le_round (hy : y ∈ grid) (lt : y ≤ x) : y ≤ round x :=
  (h x hx).2 ⟨hy, lt⟩

theorem mono (hy : y ∈ domain) (le : x ≤ y) : round x ≤ round y :=
  h.le_round hy (h.mem hx) ((h.le hx).trans le)

end RoundsDown

/-- Values `m * base ^ e` whose mantissa `m` stays below `bound`. -/
def Floating (base bound : Nat) : Set Nat :=
  {y | ∃ m e, m < bound ∧ y = m * base ^ e}

theorem Floating.mul_pow (lt : m < bound) (e : Nat) :
    m * base ^ e ∈ Floating base bound :=
  ⟨m, e, lt, rfl⟩

theorem Floating.of_lt (lt : m < bound) : m ∈ Floating base bound :=
  ⟨m, 0, lt, by simp only [pow_zero, mul_one]⟩

private theorem multiple_le_floor {step k x : Nat} (lt : k * step ≤ x) :
    k * step ≤ x / step * step := by
  obtain rfl | pos := Nat.eq_zero_or_pos step
  · simp only [mul_zero, Nat.le_refl]
  · exact Nat.mul_le_mul_right step ((Nat.le_div_iff_mul_le pos).mpr lt)

/-- Truncating to the least exponent whose mantissa fits is the rounding. The
    base has to divide the mantissa bound: only then is the first value that
    needs exponent `e` itself on the grid of exponent `e`. -/
theorem Floating.truncate {base bound x e : Nat} (pos : 0 < base) (divides : base ∣ bound)
    (fits : x / base ^ e < bound) (least : e = 0 ∨ bound * base ^ (e - 1) ≤ x) :
    IsGreatest {y | y ∈ Floating base bound ∧ y ≤ x} (x / base ^ e * base ^ e) := by
  refine ⟨⟨⟨x / base ^ e, e, fits, rfl⟩, Nat.div_mul_le_self x _⟩, ?_⟩
  rintro y ⟨⟨m, f, small, rfl⟩, lt⟩
  by_cases coarse : e ≤ f
  · obtain ⟨d, rfl⟩ := Nat.exists_eq_add_of_le coarse
    have split : m * base ^ (e + d) = m * base ^ d * base ^ e := by ring
    rw [split] at lt ⊢
    exact multiple_le_floor lt
  obtain rfl | reached := least
  · omega
  obtain ⟨k, rfl⟩ := divides
  have onGrid : base * k * base ^ (e - 1) = k * base ^ e := by
    obtain ⟨e, rfl⟩ : ∃ n, e = n + 1 := ⟨e - 1, by omega⟩
    simp only [Nat.add_sub_cancel]
    ring
  calc
    m * base ^ f ≤ base * k * base ^ (e - 1) :=
      Nat.mul_le_mul small.le (Nat.pow_le_pow_right pos (by omega))
    _ = k * base ^ e := onGrid
    _ ≤ x / base ^ e * base ^ e := multiple_le_floor (onGrid ▸ reached)

end HobbyHash.Library.Rounding
