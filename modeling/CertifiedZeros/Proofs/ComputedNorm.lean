import CertifiedZeros.Proofs.Binary64.Accumulation
import CertifiedZeros.Proofs.Binary64.Reflection
import CertifiedZeros.Proofs.Bounds.Relation
import CertifiedZeros.Proofs.InducedNorm
import CertifiedZeros.Proofs.Interval.Arithmetic

/-! # Norms of float vectors

A norm of floats rounds its weights, its products and its sums. The weights belong to the norm: with
those that were computed, the same norm has an exact value, and an operator norm that goes with it.

* **`computedWeight`**, **`HasWeights`** — the weights in floats, and that they are positive.
* **`exactNorm`**, **`exactOperator`** — the norm with these weights in exact arithmetic.
* **`exactNorm_apply_le`**, **`exactNorm_sizes_le`** — what a matrix does to it.
* **`exactNorm_between`** — the computed norm is the exact one up to a factor and an underflow. -/

namespace CertifiedZeros.PhaseNorm

open Binary64

variable {n : ℕ} {norm : PhaseNorm Float}

/-! ## The norm with its computed weights -/

/-- **The weights that a norm computes.** Only cosine series have weights other than one. -/
def computedWeight : PhaseNorm Float → ℕ → Float
  | .cosine ratio => cosineWeight ratio
  | _ => fun _ => 1

/-- **The weights of `n` coordinates are positive floats**, neither overflowed nor underflowed. -/
def HasWeights (norm : PhaseNorm Float) (n : ℕ) : Prop :=
  ∀ i : Fin n, (norm.computedWeight i).isFinite = true ∧ 0 < real (norm.computedWeight i)

/-- The norm over the reals that is left when the weights are taken out. -/
def unweighted : PhaseNorm Float → PhaseNorm ℝ
  | .max => .max
  | _ => .sum

theorem unweighted_proper (norm : PhaseNorm Float) : norm.unweighted.Proper := by
  cases norm <;> trivial

/-- The coordinates times their weights. -/
noncomputable def weighted (norm : PhaseNorm Float) (v : Vector ℝ n) : Vector ℝ n :=
  Vector.ofFn fun i => real (norm.computedWeight i) * v.get i

/-- **The norm in exact arithmetic**, with the computed weights. -/
noncomputable def exactNorm (norm : PhaseNorm Float) (v : Vector ℝ n) : ℝ :=
  norm.unweighted.ofVector (norm.weighted v)

/-- A matrix between weighted coordinates. -/
noncomputable def weightedGrid (norm : PhaseNorm Float) (a : Grid n n ℝ) : Grid n n ℝ :=
  .ofFn fun i j => real (norm.computedWeight i) * a.get i j / real (norm.computedWeight j)

/-- **The operator norm in exact arithmetic**, with the computed weights. -/
noncomputable def exactOperator (norm : PhaseNorm Float) (a : Grid n n ℝ) : ℝ :=
  norm.unweighted.ofGrid (norm.weightedGrid a)

theorem exactNorm_nonneg (v : Vector ℝ n) : 0 ≤ norm.exactNorm v :=
  ofVector_nonneg norm.unweighted_proper _

theorem exactOperator_nonneg (a : Grid n n ℝ) : 0 ≤ norm.exactOperator a := ofGrid_nonneg _

/-- **The operator norm bounds what a matrix does**, whatever the weights. -/
theorem exactNorm_apply_le (h : norm.HasWeights n) (a : Grid n n ℝ) (v : Vector ℝ n) :
    norm.exactNorm (a.apply v) ≤ norm.exactOperator a * norm.exactNorm v := by
  -- without weights it is the known bound, for the matrix between weighted coordinates
  have hcommute : norm.weighted (a.apply v) = (norm.weightedGrid a).apply (norm.weighted v) := by
    refine ext_get fun i => ?_
    rw [weighted, get_ofFn, Grid.get_apply, Grid.get_apply, leftSum_eq_sum, leftSum_eq_sum,
      Finset.mul_sum]
    refine Finset.sum_congr rfl fun j _ => ?_
    have hj := (h j).2.ne'
    rw [weightedGrid, Grid.get_ofFn, weighted, get_ofFn]
    field_simp
  rw [exactNorm, hcommute]
  exact ofVector_apply_le norm.unweighted_proper _ _

/-- The absolute values of a matrix and of a vector, combined. -/
noncomputable def sizes (a : Grid n n ℝ) (v : Vector ℝ n) : Vector ℝ n :=
  (Grid.ofFn fun i j => |a.get i j|).apply (v.map (|·|))

theorem get_sizes (a : Grid n n ℝ) (v : Vector ℝ n) (i : Fin n) :
    (sizes a v).get i = ∑ j, |a.get i j| * |v.get j| := by
  simp only [sizes, Grid.get_apply, leftSum_eq_sum, Grid.get_ofFn, get_map]

theorem ofVector_congr_abs {form : PhaseNorm ℝ} {v v' : Vector ℝ n}
    (h : ∀ i, |v.get i| = |v'.get i|) : form.ofVector v = form.ofVector v' := by
  cases form <;> simp only [ofVector, magnitude_abs, h]

theorem ofGrid_congr_abs {form : PhaseNorm ℝ} {a a' : Grid n n ℝ}
    (h : ∀ i j, |a.get i j| = |a'.get i j|) : form.ofGrid a = form.ofGrid a' := by
  cases form with
  | entrywise => simp only [ofGrid_entrywise, h]
  | max | sum | cosine => simp only [ofGrid, magnitude_abs, h]

/-- **The operator norm bounds the sizes of all products**, and not only their sum. -/
theorem exactNorm_sizes_le (h : norm.HasWeights n) (a : Grid n n ℝ) (v : Vector ℝ n) :
    norm.exactNorm (sizes a v) ≤ norm.exactOperator a * norm.exactNorm v := by
  have hle := exactNorm_apply_le h (Grid.ofFn fun i j => |a.get i j|) (v.map (|·|))
  have hgrid : norm.exactOperator (Grid.ofFn fun i j => |a.get i j|) = norm.exactOperator a :=
    ofGrid_congr_abs fun i j => by
      simp only [weightedGrid, Grid.get_ofFn, abs_mul, abs_div, abs_abs]
  have hvector : norm.exactNorm (v.map (|·|)) = norm.exactNorm v :=
    ofVector_congr_abs fun i => by simp only [weighted, get_ofFn, get_map, abs_mul, abs_abs]
  rwa [hgrid, hvector] at hle

/-! ## Estimates of every coordinate -/

theorem exactNorm_max (v : Vector ℝ n) :
    (max : PhaseNorm Float).exactNorm v = (max : PhaseNorm ℝ).ofVector v := by
  have hsame : (max : PhaseNorm Float).weighted v = v := by
    refine ext_get fun i => ?_
    rw [weighted, get_ofFn]
    simp only [computedWeight, real_one, one_mul]
  rw [exactNorm, hsame, unweighted]

theorem exactOperator_max (a : Grid n n ℝ) :
    (max : PhaseNorm Float).exactOperator a = (max : PhaseNorm ℝ).ofGrid a := by
  have hsame : (max : PhaseNorm Float).weightedGrid a = a := by
    refine Grid.ext_get fun i j => ?_
    rw [weightedGrid, Grid.get_ofFn]
    simp only [computedWeight, real_one, one_mul, div_one]
  rw [exactOperator, hsame, unweighted]

theorem exactNorm_eq_sum (h : norm.HasWeights n) (hmax : norm ≠ .max) (v : Vector ℝ n) :
    norm.exactNorm v = ∑ i : Fin n, real (norm.computedWeight i) * |v.get i| := by
  have hform : norm.unweighted = .sum := by
    cases norm with
    | max => exact absurd rfl hmax
    | sum | cosine | entrywise => rfl
  rw [exactNorm, hform, ofVector_eq_weighted (by simp)]
  refine Finset.sum_congr rfl fun i _ => ?_
  simp only [weight, one_mul, weighted, get_ofFn, abs_mul, abs_of_pos (h i).2]

/-- **Vectors that are close in every coordinate** have norms that are. -/
theorem exactNorm_le_of_close (h : norm.HasWeights n) {c d : ℝ} (hc : 0 ≤ c) (hd : 0 ≤ d)
    {u p q z : Vector ℝ n} (hclose : ∀ i, |u.get i - p.get i| ≤ c * |q.get i| + d * |z.get i|) :
    norm.exactNorm u ≤ norm.exactNorm p + c * norm.exactNorm q + d * norm.exactNorm z := by
  have hle : ∀ i, |u.get i| ≤ |p.get i| + c * |q.get i| + d * |z.get i| := fun i => by
    linarith [abs_sub_abs_le_abs_sub (u.get i) (p.get i), hclose i]
  by_cases hmax : norm = .max
  · subst hmax
    simp only [exactNorm_max]
    have hcoord : ∀ (v : Vector ℝ n) (i : Fin n), |v.get i| ≤ (max : PhaseNorm ℝ).ofVector v :=
      fun v => (ofVector_max_le_iff.mp le_rfl).2
    have hnonneg : ∀ v : Vector ℝ n, 0 ≤ (max : PhaseNorm ℝ).ofVector v := fun _ => leftMax_nonneg
    refine ofVector_max_le_iff.mpr ⟨?_, fun i => (hle i).trans ?_⟩
    · have hp := hnonneg p
      have hq := mul_nonneg hc (hnonneg q)
      have hz := mul_nonneg hd (hnonneg z)
      linarith
    · have hp := hcoord p i
      have hq := mul_le_mul_of_nonneg_left (hcoord q i) hc
      have hz := mul_le_mul_of_nonneg_left (hcoord z i) hd
      linarith
  · simp only [exactNorm_eq_sum h hmax, Finset.mul_sum, ← Finset.sum_add_distrib]
    refine Finset.sum_le_sum fun i _ => ?_
    calc real (norm.computedWeight i) * |u.get i|
        ≤ real (norm.computedWeight i) * (|p.get i| + c * |q.get i| + d * |z.get i|) :=
          mul_le_mul_of_nonneg_left (hle i) (h i).2.le
      _ = _ := by ring

/-! ## The computed norm -/

/-- **The maximum norm is computed without an error.** -/
theorem ofVector_max_finite {w : Vector Float n} (hw : ∀ i, (w.get i).isFinite = true) :
    ((max : PhaseNorm Float).ofVector w).isFinite = true ∧
      real ((max : PhaseNorm Float).ofVector w) = (max : PhaseNorm ℝ).ofVector (w.map real) := by
  refine leftMax_related (R := fun (a : Float) (r : ℝ) => a.isFinite = true ∧ real a = r)
    ⟨rfl, real_zero⟩ (fun {a b r s} ha hb => ?_) fun i => ?_
  · obtain ⟨hfin, hreal⟩ := Interval.larger_finite ha.1 hb.1
    exact ⟨hfin, by rw [← ha.2, ← hb.2]; exact hreal⟩
  · rw [get_map, magnitude_abs]
    exact abs_finite (hw i)

/-- **The computed norm of a finite vector is a number**, although it may be infinite. -/
theorem isNumber_ofVector (h : norm.HasWeights n) {w : Vector Float n}
    (hw : ∀ i, (w.get i).isFinite = true) :
    IsNumber (norm.ofVector w) ∧ 0 ≤ value (norm.ofVector w) := by
  have hsum : ∀ {t : Fin n → Float}, (∀ i, IsNumber (t i) ∧ 0 ≤ value (t i)) →
      IsNumber (leftSum t) ∧ 0 ≤ value (leftSum t) := fun ht =>
    leftSum_induction (P := fun a => IsNumber a ∧ 0 ≤ value a) ⟨zero_isNumber, value_zero.ge⟩
      (fun ha hb => (add_nonneg_spec ha.1 hb.1 ha.2 hb.2).imp_right ha.2.trans) ht
  have habs : ∀ i, IsNumber (w.get i).abs ∧ 0 ≤ value (w.get i).abs := fun i => by
    obtain ⟨hfin, hreal⟩ := abs_finite (hw i)
    rw [← coe_real hfin, hreal]
    exact ⟨isNumber_of_isFinite hfin, EReal.coe_nonneg.mpr (abs_nonneg _)⟩
  cases norm with
  | max =>
    obtain ⟨hfin, hreal⟩ := ofVector_max_finite hw
    rw [← coe_real hfin, hreal]
    exact ⟨isNumber_of_isFinite hfin, EReal.coe_nonneg.mpr leftMax_nonneg⟩
  | sum | entrywise => exact hsum habs
  | cosine ratio =>
    have hweight : ∀ i : Fin n, 0 ≤ value (cosineWeight ratio i) := fun i =>
      (EReal.coe_nonneg.mpr (h i).2.le).trans_eq (coe_real (h i).1)
    exact hsum fun i => ⟨(mul_spec (h i).1 (abs_finite (hw i)).1).1,
      value_mul_nonneg (hweight i) (habs i).2⟩

/-- **The computed norm** of a finite vector is the exact one up to the growth of a sum of products,
if it does not overflow. -/
theorem exactNorm_between (h : norm.HasWeights n) {w : Vector Float n}
    (hw : ∀ i, (w.get i).isFinite = true) (hfin : (norm.ofVector w).isFinite = true) :
    norm.exactNorm (w.map real) ≤ growth n * real (norm.ofVector w) + underflow n ∧
      real (norm.ofVector w) ≤ growth n * norm.exactNorm (w.map real) + underflow n := by
  have hgrowth := one_le_growth n
  have hunderflow := underflow_nonneg n
  have habs : ∀ i, real (w.get i).abs = |real (w.get i)| := fun i => (abs_finite (hw i)).2
  -- a relative error within the growth, and no underflow, is a special case
  have hwiden : ∀ {N R c : ℝ}, 0 ≤ N → 0 ≤ R → c ≤ growth n → N ≤ c * R → R ≤ c * N →
      N ≤ growth n * R + underflow n ∧ R ≤ growth n * N + underflow n := by
    intro N R c hN hR hc hbelow habove
    have hstep := mul_le_mul_of_nonneg_right hc hR
    have hstep' := mul_le_mul_of_nonneg_right hc hN
    constructor <;> linarith
  cases norm with
  | max =>
    rw [(ofVector_max_finite hw).2, exactNorm_max]
    have hnonneg : 0 ≤ (max : PhaseNorm ℝ).ofVector (w.map real) := leftMax_nonneg
    exact hwiden hnonneg hnonneg hgrowth (one_mul _).ge (one_mul _).ge
  | cosine ratio =>
    have hexact : (cosine ratio).exactNorm (w.map real)
        = ∑ i : Fin n, real (cosineWeight ratio i) * real (w.get i).abs := by
      rw [exactNorm_eq_sum h (by simp)]
      simp only [computedWeight, get_map, habs]
    rw [hexact]
    exact dot_between hfin fun i => mul_nonneg (h i).2.le (habs i ▸ abs_nonneg _)
  | sum | entrywise =>
    rw [exactNorm_eq_sum h (by simp)]
    simp only [computedWeight, real_one, one_mul, get_map, ← habs]
    obtain ⟨hsum, hbelow, habove⟩ := leftSum_between (fun i => habs i ▸ abs_nonneg _) hfin
    exact hwiden (Finset.sum_nonneg fun i _ => habs i ▸ abs_nonneg _) hsum
      (pow_le_pow_right₀ (one_le_pow_roundoff 1 |>.trans_eq (pow_one _)) n.le_succ) hbelow habove

end CertifiedZeros.PhaseNorm
