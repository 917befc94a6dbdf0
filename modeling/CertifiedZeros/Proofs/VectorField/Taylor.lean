import CertifiedZeros.Proofs.VectorField.Convolution

/-! # The derivative of the Fisher field

The field is quadratic, so its increment is a linear and a quadratic form in the step, without a
remainder. The linear form is what the program computes as its derivative, entry by entry.

* **`derivative_get`** — an entry of the derivative, by the modes that it stands for.
* **`derivative_apply_get`** — the derivative applied to a profile: the linear part of the field
  and twice a convolution.
* **`value_add_eq`** — the expansion of the field at a point. -/

namespace CertifiedZeros.Fisher

variable {R : Type} [CommRing R]

theorem value_get (p : Fisher R) (x : Vector R (p.order + 1)) (k : Fin (p.order + 1)) :
    (p.value x).get k = p.linear k * x.get k - p.coefficient * (convolution x).get k := by
  simp only [value, get_ofFn]

/-- **An entry of the derivative.** A reflected term beyond the truncation is a mode that
vanishes, so only mode zero, which is its own reflection, is told apart. -/
theorem derivative_get (p : Fisher R) (x : Vector R (p.order + 1)) (k l : Fin (p.order + 1)) :
    (p.derivative x).get k l = (if k = l then p.linear k else 0) - 2 * p.coefficient *
      (mode x ((k : ℕ) - (l : ℕ)) + if (l : ℕ) = 0 then 0 else mode x ((k : ℕ) + (l : ℕ))) := by
  have hreflected : (if (l : ℕ) = 0 then 0 else mode x ((k : ℕ) + (l : ℕ)))
      = if h : 0 < l.val ∧ k.val + l.val ≤ p.order then x.get ⟨k + l, by omega⟩ else 0 := by
    by_cases hl : (l : ℕ) = 0
    · rw [if_pos hl, dif_neg (by omega)]
    · rw [if_neg hl, mode]
      by_cases hle : k.val + l.val ≤ p.order
      · rw [dif_pos (by omega), dif_pos ⟨by omega, hle⟩]
        rfl
      · rw [dif_neg (by omega), dif_neg (by omega)]
  rw [hreflected, mode_sub, derivative, Grid.get_ofFn]
  dsimp only
  push_cast
  split_ifs <;> ring

/-- **The derivative applied to a profile.** -/
theorem derivative_apply_get (p : Fisher R) (x h : Vector R (p.order + 1))
    (k : Fin (p.order + 1)) :
    ((p.derivative x).apply h).get k
      = p.linear k * h.get k - 2 * p.coefficient * (convolve x h).get k := by
  rw [Grid.get_apply, leftSum_eq_sum, convolve_get_eq_sum, Finset.mul_sum]
  calc ∑ l, (p.derivative x).get k l * h.get l
      = ∑ l, ((if k = l then p.linear k * h.get l else 0) - 2 * p.coefficient *
          ((mode x ((k : ℕ) - (l : ℕ)) + if (l : ℕ) = 0 then 0 else mode x ((k : ℕ) + (l : ℕ)))
            * h.get l)) := by
        refine Finset.sum_congr rfl fun l _ => ?_
        rw [derivative_get, sub_mul, ite_mul, zero_mul, mul_assoc]
    _ = _ := by rw [Finset.sum_sub_distrib, Finset.sum_ite_eq, if_pos (Finset.mem_univ k)]

/-- **The expansion of the field**: the increment is the derivative applied to the step, less the
coefficient times the convolution square of the step. -/
theorem value_add_eq (p : Fisher R) (x h : Vector R (p.order + 1)) :
    p.value (x + h)
      = p.value x + (p.derivative x).apply h - (convolution h).map (p.coefficient * ·) := by
  refine ext_get fun k => ?_
  have hsub : ∀ u v : Vector R (p.order + 1), (u - v).get k = u.get k - v.get k := fun u v => by
    simp [get_eq_getElem]
  rw [hsub, get_add, get_map, value_get, value_get, derivative_apply_get, convolution_add,
    get_add]
  ring

end CertifiedZeros.Fisher
