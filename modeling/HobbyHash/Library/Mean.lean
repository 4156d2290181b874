import Mathlib.Analysis.MeanInequalities

/-! # Products of numbers with a bounded mean

The arithmetic-geometric mean inequality in the form a sequence of scalings
needs: factors that average at most `m` multiply to at most `m ^ n`.
-/

namespace HobbyHash.Library.Mean

theorem prod_le_pow {m} (factors : List Nat) (mean : factors.sum ≤ m * factors.length) :
    factors.prod ≤ m ^ factors.length := by
  obtain empty | pos := Nat.eq_zero_or_pos factors.length
  · simp [List.eq_nil_of_length_eq_zero empty]
  have lt : (0 : ℝ) < factors.length := by exact_mod_cast pos
  have amgm := Real.geom_mean_le_arith_mean Finset.univ (fun _ : Fin factors.length => (1 : ℝ))
    (fun i => (factors.get i : ℝ)) (fun _ _ => zero_le_one) (by simpa using lt)
    (fun i _ => Nat.cast_nonneg _)
  have product : ∏ i, (factors.get i : ℝ) = factors.prod := by
    rw [← Nat.cast_prod]
    exact congrArg Nat.cast (Fin.prod_univ_getElem factors)
  have total : ∑ i, (factors.get i : ℝ) = factors.sum := by
    rw [← Nat.cast_sum]
    exact congrArg Nat.cast (Fin.sum_univ_getElem factors)
  simp only [Real.rpow_one, one_mul, Finset.sum_const, Finset.card_univ, Fintype.card_fin,
    nsmul_eq_mul, mul_one, product, total] at amgm
  have le : (factors.sum : ℝ) / factors.length ≤ m := by
    rw [div_le_iff₀ lt]
    exact_mod_cast mean
  have real : (factors.prod : ℝ) ≤ (m : ℝ) ^ factors.length := by
    calc
      (factors.prod : ℝ) = ((factors.prod : ℝ) ^ (factors.length : ℝ)⁻¹) ^ factors.length :=
        (Real.rpow_inv_natCast_pow (Nat.cast_nonneg _) pos.ne').symm
      _ ≤ (m : ℝ) ^ factors.length :=
        pow_le_pow_left₀ (Real.rpow_nonneg (Nat.cast_nonneg _) _) (amgm.trans le) _
  exact_mod_cast real

end HobbyHash.Library.Mean
