import CertifiedZeros.Proofs.Bounds.Reflection
import CertifiedZeros.Proofs.ComputedNorm

/-! # Growing residuals

The bound `y0` measures the residual after the matrix. A matrix need not keep the order of two norms:
it may stretch the smaller residual and not the larger one. It cannot when the residual grows by more
than its condition number, and a multiple of the identity keeps the order.

* **`amplified`**, **`recovered`** — the largest norm of `A v`, given that of `v`, and the largest norm
  of `v`, given that of `A v`, as they are computed.
* **`Outgrows`** — a growth that no matrix with these norms undoes; **`ofVector_apply_le_of_outgrows`**.
* **`ofVector_max_multiple_le`** — a multiple of the identity.
* **`bounds_y0_mono`** — the order of `y0`; **`bounds_y0_drops`** — where it fails. -/

namespace CertifiedZeros

open Binary64

variable {n : ℕ}

/-! ## Computed products -/

/-- A finite product of a grid and a vector has finite factors. -/
theorem Grid.isFinite_of_apply {a : Grid n n Float} {f : Vector Float n} {i : Fin n}
    (h : ((a.apply f).get i).isFinite = true) (j : Fin n) :
    (a.get i j).isFinite = true ∧ (f.get j).isFinite = true := by
  rw [get_apply] at h
  exact isFinite_of_mul (isFinite_of_leftSum h j)

namespace PhaseNorm

variable {norm : PhaseNorm Float}

/-- The vector of ones, which the underflows of a product are measured by. -/
def ones (n : ℕ) : Vector ℝ n := Vector.ofFn fun _ => 1

theorem get_ones (i : Fin n) : (ones n).get i = 1 := get_ofFn ..

section

variable (h : norm.HasWeights n) {a : Grid n n Float} {f : Vector Float n}
  (hw : ∀ i, ((a.apply f).get i).isFinite = true)

include hw

/-- **One coordinate of a computed product.** -/
theorem abs_get_apply_sub_le (i : Fin n) :
    |((a.apply f).map real).get i - ((a.map real).apply (f.map real)).get i|
      ≤ (growth n - 1) * |(sizes (a.map real) (f.map real)).get i|
        + underflow n * |(ones n).get i| := by
  have hfin := hw i
  rw [Grid.get_apply] at hfin
  have herr := abs_dot_sub_le hfin
  have hsizes : 0 ≤ ∑ j, |real (a.get i j)| * |real (f.get j)| :=
    Finset.sum_nonneg fun j _ => mul_nonneg (abs_nonneg _) (abs_nonneg _)
  simp only [get_ones, get_sizes, Grid.get_apply, leftSum_eq_sum, Grid.get_map, get_map, abs_one,
    mul_one, abs_of_nonneg hsizes]
  exact herr

include h

/-- **The computed product is not much larger** than the exact one can be. -/
theorem exactNorm_computed_le :
    norm.exactNorm ((a.apply f).map real)
      ≤ growth n * (norm.exactOperator (a.map real) * norm.exactNorm (f.map real))
        + underflow n * norm.exactNorm (ones n) := by
  have hgrowth := sub_nonneg.mpr (one_le_growth n)
  have hsum := exactNorm_le_of_close h hgrowth (underflow_nonneg n) (abs_get_apply_sub_le hw)
  have happly := exactNorm_apply_le h (a.map real) (f.map real)
  have hsizes := mul_le_mul_of_nonneg_left (exactNorm_sizes_le h (a.map real) (f.map real)) hgrowth
  linarith

/-- **The exact product is not much larger** than the computed one. -/
theorem exactNorm_apply_le_computed :
    norm.exactNorm ((a.map real).apply (f.map real))
      ≤ norm.exactNorm ((a.apply f).map real)
        + (growth n - 1) * (norm.exactOperator (a.map real) * norm.exactNorm (f.map real))
        + underflow n * norm.exactNorm (ones n) := by
  have hgrowth := sub_nonneg.mpr (one_le_growth n)
  have hsum := exactNorm_le_of_close h hgrowth (underflow_nonneg n) fun i =>
    (abs_sub_comm _ _).trans_le (abs_get_apply_sub_le hw i)
  have hsizes := mul_le_mul_of_nonneg_left (exactNorm_sizes_le h (a.map real) (f.map real)) hgrowth
  linarith

end

/-! ## There and back -/

/-- **The largest computed norm of `A v`** that a computed norm `r` of `v` allows. But for rounding, it
is `‖A‖ r`. -/
noncomputable def amplified (norm : PhaseNorm Float) (a : Grid n n ℝ) (r : ℝ) : ℝ :=
  growth n ^ 3 * norm.exactOperator a * r
    + underflow n * (growth n ^ 2 * norm.exactOperator a + growth n * norm.exactNorm (ones n) + 1)

/-- **The largest computed norm of `v`** that a computed norm `r` of `A v` allows, where `B` is a left
inverse of `A`, up to the part that rounding hides. But for rounding, it is `‖B‖ r`. -/
noncomputable def recovered (norm : PhaseNorm Float) (b : Grid n n ℝ) (r : ℝ) : ℝ :=
  growth n ^ 2 * norm.exactOperator b * r
    + underflow n * (growth n * norm.exactOperator b * (1 + norm.exactNorm (ones n)) + 1)

/-- The part of a vector that is lost when a product with the matrix `A` is rounded, relative to its
size: the error of a sum of products, times the condition number of `A`. -/
noncomputable def hidden (norm : PhaseNorm Float) (a b : Grid n n ℝ) : ℝ :=
  (growth n - 1) * (norm.exactOperator b * norm.exactOperator a)

/-- **A growth from `r` to `r'` that a matrix `A` with left inverse `B` does not undo**: what is left of
`r'` after rounding is at least what the largest norm that `A` makes of `r` allows. But for rounding,
this is `‖B‖ ‖A‖ r ≤ r'`. -/
structure Outgrows (norm : PhaseNorm Float) (a b : Grid n n ℝ) (r r' : ℝ) : Prop where
  visible : norm.hidden a b ≤ 1
  grows : norm.recovered b (norm.amplified a r) ≤ (1 - norm.hidden a b) * r'

theorem hidden_nonneg {a b : Grid n n ℝ} : 0 ≤ norm.hidden a b :=
  mul_nonneg (sub_nonneg.mpr (one_le_growth n))
    (mul_nonneg (exactOperator_nonneg b) (exactOperator_nonneg a))

/-- **The way back in exact arithmetic**, from the computed product: some part of the vector is hidden
by its rounding. -/
theorem exactNorm_visible_le (h : norm.HasWeights n) {a : Grid n n Float} {b : Grid n n ℝ}
    {f : Vector Float n} (hw : ∀ i, ((a.apply f).get i).isFinite = true)
    (hinverse : b.mul (a.map real) = .identity n) :
    (1 - norm.hidden (a.map real) b) * norm.exactNorm (f.map real)
      ≤ norm.exactOperator b * (norm.exactNorm ((a.apply f).map real)
        + underflow n * norm.exactNorm (ones n)) := by
  have hback := exactNorm_apply_le h b ((a.map real).apply (f.map real))
  rw [← Grid.apply_mul, hinverse, identity_apply] at hback
  have hoperator : 0 ≤ norm.exactOperator b := exactOperator_nonneg _
  have hproduct := mul_le_mul_of_nonneg_left (exactNorm_apply_le_computed h hw) hoperator
  unfold hidden
  linarith

/-- **Nothing overflows** when the matrix is applied to `f`: the coordinates of the product are finite,
and so is the norm of `f`. -/
structure Clear (norm : PhaseNorm Float) (a : Grid n n Float) (f : Vector Float n) : Prop where
  product : ∀ i, ((a.apply f).get i).isFinite = true
  residual : (norm.ofVector f).isFinite = true

/-- Then the vector is finite. -/
theorem Clear.finite {a : Grid n n Float} {f : Vector Float n} (hf : norm.Clear a f) (i : Fin n) :
    (f.get i).isFinite = true :=
  (Grid.isFinite_of_apply (hf.product i) i).2

section

variable (h : norm.HasWeights n) {a : Grid n n Float} {b : Grid n n ℝ} {f f' : Vector Float n}

include h

/-- A matrix with a left inverse has one that is not zero. -/
theorem exactOperator_pos (hn : 0 < n) (hinverse : b.mul (a.map real) = .identity n) :
    0 < norm.exactOperator b := by
  -- otherwise the vector of ones would come back as zero
  refine (exactOperator_nonneg b).lt_of_ne fun hzero => ?_
  have hback := exactNorm_apply_le h b ((a.map real).apply (ones n))
  rw [← Grid.apply_mul, hinverse, identity_apply, ← hzero, zero_mul] at hback
  refine hback.not_gt (ofVector_pos norm.unweighted_proper (i := ⟨0, hn⟩) ?_)
  rw [weighted, get_ofFn, get_ones, mul_one]
  exact (h _).2.ne'

variable (hf : norm.Clear a f) (hproduct : (norm.ofVector (a.apply f)).isFinite = true)

include hf hproduct

/-- **The norm after the matrix is not larger** than the amplified one. -/
theorem le_amplified :
    real (norm.ofVector (a.apply f)) ≤ norm.amplified (a.map real) (real (norm.ofVector f)) := by
  have hgrowth : 0 ≤ growth n := zero_le_one.trans (one_le_growth n)
  have hoperator : 0 ≤ norm.exactOperator (a.map real) := exactOperator_nonneg _
  have hbefore := (exactNorm_between h hf.finite hf.residual).1
  have hcomputed := exactNorm_computed_le h hf.product
  calc real (norm.ofVector (a.apply f))
      ≤ growth n * norm.exactNorm ((a.apply f).map real) + underflow n :=
        (exactNorm_between h hf.product hproduct).2
    _ ≤ growth n * (growth n * (norm.exactOperator (a.map real)
          * (growth n * real (norm.ofVector f) + underflow n))
          + underflow n * norm.exactNorm (ones n)) + underflow n := by
        gcongr
        exact hcomputed.trans (by gcongr)
    _ = norm.amplified (a.map real) (real (norm.ofVector f)) := by
        unfold amplified
        ring

/-- **The norm before the matrix is not larger** than the recovered one, up to what rounding hides. -/
theorem le_recovered (hinverse : b.mul (a.map real) = .identity n)
    (hvisible : norm.hidden (a.map real) b ≤ 1) :
    (1 - norm.hidden (a.map real) b) * real (norm.ofVector f)
      ≤ norm.recovered b (real (norm.ofVector (a.apply f))) := by
  have hgrowth : 0 ≤ growth n := zero_le_one.trans (one_le_growth n)
  have hoperator : 0 ≤ norm.exactOperator b := exactOperator_nonneg _
  have hrest : 1 - norm.hidden (a.map real) b ≤ 1 := sub_le_self _ hidden_nonneg
  have hback := exactNorm_visible_le h hf.product hinverse
  have hafter := (exactNorm_between h hf.product hproduct).1
  calc (1 - norm.hidden (a.map real) b) * real (norm.ofVector f)
      ≤ (1 - norm.hidden (a.map real) b) * (growth n * norm.exactNorm (f.map real) + underflow n) :=
        mul_le_mul_of_nonneg_left (exactNorm_between h hf.finite hf.residual).2
          (sub_nonneg.mpr hvisible)
    _ = growth n * ((1 - norm.hidden (a.map real) b) * norm.exactNorm (f.map real))
        + (1 - norm.hidden (a.map real) b) * underflow n := by ring
    _ ≤ growth n * (norm.exactOperator b * (growth n * real (norm.ofVector (a.apply f))
          + underflow n + underflow n * norm.exactNorm (ones n))) + 1 * underflow n := by
        refine add_le_add (mul_le_mul_of_nonneg_left (hback.trans ?_) hgrowth)
          (mul_le_mul_of_nonneg_right hrest (underflow_nonneg n))
        gcongr
    _ = norm.recovered b (real (norm.ofVector (a.apply f))) := by
        unfold recovered
        ring

/-- **A residual that outgrows the matrix** has the larger norm after it, too. -/
theorem ofVector_apply_le_of_outgrows (hn : 0 < n) (hinverse : b.mul (a.map real) = .identity n)
    (hf' : norm.Clear a f') (hgrowth : norm.Outgrows (a.map real) b (real (norm.ofVector f))
      (real (norm.ofVector f'))) :
    norm.ofVector (a.apply f) ≤ norm.ofVector (a.apply f') := by
  obtain ⟨hnum, hnonneg⟩ := isNumber_ofVector h hf'.product
  -- the larger norm may have overflowed to infinity, where there is nothing left to show
  rcases hnum.cases with hproduct' | ⟨-, htop | hbot⟩
  · refine le_of_real_le hproduct hproduct' ?_
    have hoperator := exactOperator_pos h hn hinverse
    have hfactor : 0 < growth n ^ 2 * norm.exactOperator b :=
      mul_pos (pow_pos (zero_lt_one.trans_le (one_le_growth n)) 2) hoperator
    -- the same amount of rounding stands on both sides
    have hbefore := mul_le_mul_of_nonneg_left (le_amplified h hf hproduct) hfactor.le
    have hafter := le_recovered h hf' hproduct' hinverse hgrowth.visible
    have hgrows := hgrowth.grows
    unfold recovered at hafter hgrows
    exact le_of_mul_le_mul_left (by linarith) hfactor
  · refine le_iff.mpr ⟨isNumber_of_isFinite hproduct, hnum, ?_⟩
    rw [htop]
    exact le_top
  · rw [hbot] at hnonneg
    exact absurd hnonneg (by simp)

end

/-! ## Multiples of the identity -/

section

variable {a : Grid n n Float} {c : Float} {f f' : Vector Float n}
  (ha : ∀ i j, a.get i j = if i = j then c else 0)

include ha

/-- **A multiple of the identity** rounds each coordinate once. -/
theorem real_get_apply_multiple {i : Fin n} (h : ((a.apply f).get i).isFinite = true) :
    real ((a.apply f).get i) = rounded (real c * real (f.get i)) := by
  rw [Grid.get_apply] at h ⊢
  have hterm : ∀ j, real (a.get i j * f.get j) = rounded (real (a.get i j) * real (f.get j)) :=
    real_term h
  rw [real_leftSum_single h (i := i) fun j hj => ?_, hterm, ha, if_pos rfl]
  rw [hterm, ha, if_neg hj.symm, real_zero, zero_mul, rounded_zero]

/-- The identity changes no coordinate, so no norm. -/
theorem turned_apply_identity (hone : c = 1) (h : ∀ i, ((a.apply f).get i).isFinite = true) :
    Turned false (norm.ofVector f) (norm.ofVector (a.apply f)) := by
  refine ofVector_turned respectsSigns_float norm (σ := fun _ => false) fun i => ?_
  have hfin := (Grid.isFinite_of_apply (h i) i).2
  refine ⟨iff_of_true (isNumber_of_isFinite (h i)) (isNumber_of_isFinite hfin), ?_⟩
  rw [turn_false, ← coe_real (h i), ← coe_real hfin, real_get_apply_multiple ha (h i), hone,
    real_one, one_mul, rounded_eq (representable_real hfin)]

/-- **A multiple of the identity keeps the order** of maximum norms. -/
theorem ofVector_max_multiple_le (hf : ∀ i, ((a.apply f).get i).isFinite = true)
    (hf' : ∀ i, ((a.apply f').get i).isFinite = true)
    (hle : (max : PhaseNorm Float).ofVector f ≤ max.ofVector f') :
    (max : PhaseNorm Float).ofVector (a.apply f) ≤ max.ofVector (a.apply f') := by
  have hfactor : ∀ {g : Vector Float n}, (∀ i, ((a.apply g).get i).isFinite = true) →
      ∀ i, (g.get i).isFinite = true := fun hg i => (Grid.isFinite_of_apply (hg i) i).2
  obtain ⟨hfin, hreal⟩ := ofVector_max_finite (hfactor hf)
  obtain ⟨hfin', hreal'⟩ := ofVector_max_finite (hfactor hf')
  obtain ⟨hafter, hvalue⟩ := ofVector_max_finite hf
  obtain ⟨hafter', hvalue'⟩ := ofVector_max_finite hf'
  have hmax := real_le_real hle hfin hfin'
  rw [hreal, hreal'] at hmax
  refine le_of_real_le hafter hafter' ?_
  rw [hvalue, hvalue']
  refine ofVector_max_le_iff.mpr ⟨leftMax_nonneg, fun i => ?_⟩
  -- the larger maximum is attained at some coordinate, which the rounding does not put below
  obtain ⟨k, hk⟩ := exists_eq_leftMax (f := fun k => |(f'.map real).get k|) i.pos
    fun k => abs_nonneg _
  have hcoordinate : |real (f.get i)| ≤ |real (f'.get k)| := by
    have hbelow := (ofVector_max_le_iff.mp hmax).2 i
    rw [get_map] at hbelow
    refine hbelow.trans_eq ?_
    rw [← get_map real]
    exact hk.symm
  calc |((a.apply f).map real).get i| = rounded |real c * real (f.get i)| := by
        rw [get_map, real_get_apply_multiple ha (hf i), abs_rounded]
    _ ≤ rounded |real c * real (f'.get k)| := by
        rw [abs_mul, abs_mul]
        exact rounded_mono (mul_le_mul_of_nonneg_left hcoordinate (abs_nonneg _))
    _ = |((a.apply f').map real).get k| := by
        rw [get_map, real_get_apply_multiple ha (hf' k), abs_rounded]
    _ ≤ _ := (ofVector_max_le_iff.mp le_rfl).2 k

end

end PhaseNorm

namespace VectorField

/-! ## A matrix that stretches one coordinate -/

/-- The first coordinate is stretched by the factor eight. -/
def stretch : Grid 3 3 Float := .ofFn fun i j => if i = j then if i = 0 then 8 else 1 else 0

/-- The inverse over the reals. -/
noncomputable def shrink : Grid 3 3 ℝ :=
  .ofFn fun i j => if i = j then if i = 0 then 1 / 8 else 1 else 0

theorem get_stretch (i j : Fin 3) :
    (stretch.map real).get i j = if i = j then if i = 0 then 8 else 1 else 0 := by
  have height : real (8 : Float) = 8 := by
    obtain ⟨-, hreal⟩ := power_spec (x := 8) (w := 0x4020000000000000) (e := 3) (by decide +kernel)
      (by decide) (by decide) (by decide)
    rw [hreal]
    norm_num
  rw [Grid.get_map, stretch, Grid.get_ofFn]
  split_ifs
  · exact height
  · exact real_one
  · exact real_zero

theorem shrink_mul_stretch : shrink.mul (stretch.map real) = .identity 3 := by
  refine Grid.ext_get fun i j => ?_
  simp only [Grid.get_mul, get_stretch, shrink, Grid.get_ofFn, Grid.get_identity, leftSum_eq_sum]
  rw [Finset.sum_eq_single i (fun l _ hl => by rw [if_neg hl.symm, zero_mul]) (by simp), if_pos rfl]
  split_ifs <;> norm_num

/-- The largest row sum of a diagonal matrix is its largest entry. -/
theorem exactOperator_diagonal_le {a : Grid 3 3 ℝ} {d : Fin 3 → ℝ} {c : ℝ} (hc : 0 ≤ c)
    (ha : ∀ i j, a.get i j = if i = j then d i else 0) (hd : ∀ i, |d i| ≤ c) :
    (PhaseNorm.max : PhaseNorm Float).exactOperator a ≤ c := by
  rw [PhaseNorm.exactOperator_max]
  refine leftMax_le_iff.mpr ⟨hc, fun i => ?_⟩
  simp only [magnitude_abs, leftSum_eq_sum, ha]
  rw [Finset.sum_eq_single i (fun l _ hl => by rw [if_neg hl.symm, abs_zero]) (by simp), if_pos rfl]
  exact hd i

theorem growth_three_le : growth 3 ≤ 17 / 16 := by
  have hu := unitRoundoff_pos
  calc growth 3 ≤ (1 + 1 / 2 ^ 20) ^ 4 := by
        unfold growth
        gcongr
        exact unitRoundoff_le
    _ ≤ 17 / 16 := by norm_num

theorem underflow_three_le : underflow 3 ≤ 1 / 16 := by
  have hu := unitRoundoff_pos
  have hunit := underflowError_pos
  have hle : underflowError ≤ 1 / 2 ^ 20 :=
    (underflowError_le_pow.trans (pow_le_of_le_one hu.le (unitRoundoff_le.trans (by norm_num))
      (by norm_num))).trans unitRoundoff_le
  calc underflow 3 ≤ (3 : ℕ) * (1 + 1 / 2 ^ 20) ^ 3 * (1 / 2 ^ 20) := by
        unfold underflow
        gcongr
        exact unitRoundoff_le
    _ ≤ 1 / 16 := by norm_num

/-- From one to a hundred is more than a condition number of eight accounts for. -/
theorem outgrows_stretch : PhaseNorm.max.Outgrows (stretch.map real) shrink 1 100 := by
  have hstretch : PhaseNorm.max.exactOperator (stretch.map real) ≤ 8 :=
    exactOperator_diagonal_le (by norm_num) get_stretch fun i => by split_ifs <;> norm_num
  have hshrink : PhaseNorm.max.exactOperator shrink ≤ 1 :=
    exactOperator_diagonal_le zero_le_one (fun i j => by rw [shrink, Grid.get_ofFn]) fun i => by
      split_ifs <;> norm_num
  have hones : PhaseNorm.max.exactNorm (PhaseNorm.ones 3) ≤ 1 := by
    rw [PhaseNorm.exactNorm_max]
    exact PhaseNorm.ofVector_max_le_iff.mpr ⟨zero_le_one, fun i => by
      rw [PhaseNorm.get_ones, abs_one]⟩
  have hstretch0 : 0 ≤ PhaseNorm.max.exactOperator (stretch.map real) :=
    PhaseNorm.exactOperator_nonneg _
  have hshrink0 : 0 ≤ PhaseNorm.max.exactOperator shrink := PhaseNorm.exactOperator_nonneg _
  have hones0 : 0 ≤ PhaseNorm.max.exactNorm (PhaseNorm.ones 3) := PhaseNorm.exactNorm_nonneg _
  have hgrowth1 := one_le_growth 3
  have hgrowth := growth_three_le
  have hunderflow0 := underflow_nonneg 3
  have hunderflow := underflow_three_le
  suffices hvisible : PhaseNorm.max.hidden (stretch.map real) shrink ≤ 1 / 2 ∧
      PhaseNorm.max.recovered shrink (PhaseNorm.max.amplified (stretch.map real) 1)
        ≤ 1 / 2 * 100 from ⟨by linarith, by linarith⟩
  unfold PhaseNorm.hidden PhaseNorm.recovered PhaseNorm.amplified
  generalize PhaseNorm.max.exactOperator (stretch.map real) = α at *
  generalize PhaseNorm.max.exactOperator shrink = β at *
  generalize PhaseNorm.max.exactNorm (PhaseNorm.ones 3) = ω at *
  generalize growth 3 = ρ at *
  generalize underflow 3 = δ at *
  have hrho : 0 ≤ ρ := zero_le_one.trans hgrowth1
  constructor
  · calc (ρ - 1) * (β * α) ≤ (17 / 16 - 1) * (1 * 8) := by
          gcongr
      _ = 1 / 2 := by norm_num
  · calc ρ ^ 2 * β * (ρ ^ 3 * α * 1 + δ * (ρ ^ 2 * α + ρ * ω + 1)) + δ * (ρ * β * (1 + ω) + 1)
        ≤ (17 / 16) ^ 2 * 1
            * ((17 / 16) ^ 3 * 8 * 1 + 1 / 16 * ((17 / 16) ^ 2 * 8 + 17 / 16 * 1 + 1))
          + 1 / 16 * (17 / 16 * 1 * (1 + 1) + 1) := by
          gcongr
      _ ≤ 1 / 2 * 100 := by norm_num

/-! ## The bound `y0` -/

theorem dim_pos {α : Type} (field : VectorField α) : 0 < field.dim := by
  cases field with
  | lorenz => exact Nat.succ_pos 2
  | fisher p => exact Nat.succ_pos p.order

/-- **The order of `y0`** at two points with one matrix `A`, both computed in floats. If the residual
grows from `v` to `w` by more than the condition number of `A` and rounding account for, `y0` does
not decrease. If `A` is the identity, or a multiple of it and the norm is the maximum, it does not
decrease when the norm of the residual does not. -/
theorem bounds_y0_mono (field : VectorField Float) {a : Grid field.dim field.dim Float}
    {v w : Vector Float field.dim} (hv : field.norm.Clear a (field.value v))
    (hw : field.norm.Clear a (field.value w)) :
    ∃ s s', field.bounds v.toArray (.ofGrid a) = .ok s ∧
      field.bounds w.toArray (.ofGrid a) = .ok s' ∧
      (∀ b : Grid field.dim field.dim ℝ, field.norm.HasWeights field.dim →
        b.mul (a.map real) = .identity field.dim → s.y0.isFinite = true →
        field.norm.Outgrows (a.map real) b (real (field.norm.ofVector (field.value v)))
          (real (field.norm.ofVector (field.value w))) → s.y0 ≤ s'.y0) ∧
      ∀ c, (∀ i j, a.get i j = if i = j then c else 0) → field.norm = .max ∨ c = 1 →
        field.norm.ofVector (field.value v) ≤ field.norm.ofVector (field.value w) →
        s.y0 ≤ s'.y0 := by
  refine ⟨field.boundsAt v a, field.boundsAt w a, bounds_of_fits v.size_toArray rfl rfl,
    bounds_of_fits w.size_toArray rfl rfl, fun b hweights hinverse hfin hgrowth => ?_,
    fun c ha hcase hle => ?_⟩
  · exact PhaseNorm.ofVector_apply_le_of_outgrows hweights hv hfin field.dim_pos hinverse hw hgrowth
  · rcases hcase with hmax | hone
    · unfold boundsAt
      rw [hmax] at hle ⊢
      exact PhaseNorm.ofVector_max_multiple_le ha hv.product hw.product hle
    · exact ((PhaseNorm.turned_apply_identity ha hone hv.product).le_iff
        (PhaseNorm.turned_apply_identity ha hone hw.product)).mpr hle

/-- The residual grows from one to a hundred, so `y0` does not decrease, although the matrix stretches
one coordinate. With the identity it is enough that the residual grows, from one to four. -/
theorem bounds_y0_mono_stretch :
    (∃ s s', (VectorField.lorenz ⟨1, 0, 0⟩).bounds #[0, 1, 0] (.ofGrid stretch) = .ok s ∧
      (VectorField.lorenz ⟨1, 0, 0⟩).bounds #[0, 100, 0] (.ofGrid stretch) = .ok s' ∧
      s.y0 ≤ s'.y0) ∧
    ∃ s s' : Bounds Float,
      (VectorField.lorenz ⟨1, 0, 0⟩).bounds #[0, 1, 0] (.ofGrid (.identity 3)) = .ok s ∧
      (VectorField.lorenz ⟨1, 0, 0⟩).bounds #[2, 2, 0] (.ofGrid (.identity 3)) = .ok s' ∧
      s.y0 ≤ s'.y0 := by
  constructor
  · obtain ⟨s, s', hs, hs', houtgrows, -⟩ := bounds_y0_mono (.lorenz ⟨1, 0, 0⟩) (a := stretch)
      (v := #v[0, 1, 0]) (w := #v[0, 100, 0]) ⟨by decide +kernel, by decide +kernel⟩
      ⟨by decide +kernel, by decide +kernel⟩
    have hsmall : real ((PhaseNorm.max : PhaseNorm Float).ofVector
        ((VectorField.lorenz ⟨1, 0, 0⟩).value #v[0, 1, 0])) = 1 := by
      rw [show (PhaseNorm.max : PhaseNorm Float).ofVector
        ((VectorField.lorenz ⟨1, 0, 0⟩).value #v[0, 1, 0]) = 1 by decide +kernel, real_one]
    have hlarge : real ((PhaseNorm.max : PhaseNorm Float).ofVector
        ((VectorField.lorenz ⟨1, 0, 0⟩).value #v[0, 100, 0])) = 100 := by
      rw [show (PhaseNorm.max : PhaseNorm Float).ofVector
        ((VectorField.lorenz ⟨1, 0, 0⟩).value #v[0, 100, 0]) = (100 : ℕ) by decide +kernel,
        (natCast_spec (by norm_num)).2, Nat.cast_ofNat]
    have hweights : PhaseNorm.max.HasWeights 3 := fun i =>
      ⟨isFinite_one, one_pos.trans_eq real_one.symm⟩
    refine ⟨s, s', hs, hs', houtgrows shrink hweights shrink_mul_stretch ?_ ?_⟩
    · rw [Except.ok.inj (hs.symm.trans (bounds_of_fits rfl rfl rfl))]
      decide +kernel
    · have houtgrown := outgrows_stretch
      rwa [← hsmall, ← hlarge] at houtgrown
  · obtain ⟨s, s', hs, hs', -, hmultiple⟩ := bounds_y0_mono (.lorenz ⟨1, 0, 0⟩) (a := .identity 3)
      (v := #v[0, 1, 0]) (w := #v[2, 2, 0]) ⟨by decide +kernel, by decide +kernel⟩
      ⟨by decide +kernel, by decide +kernel⟩
    exact ⟨s, s', hs, hs', hmultiple 1 Grid.get_identity (.inl rfl) (by decide +kernel)⟩

/-- **The law that a larger residual has the larger `y0`**, for one field and one matrix. -/
def KeepsOrder (field : VectorField Float) (a : Grid field.dim field.dim Float) : Prop :=
  ∀ (v w : Vector Float field.dim) (s s' : Bounds Float),
    (∀ i, (v.get i).isFinite = true) → (∀ i, (w.get i).isFinite = true) →
    field.bounds v.toArray (.ofGrid a) = .ok s → field.bounds w.toArray (.ofGrid a) = .ok s' →
    (field.norm.ofVector (field.value v)).isFinite = true →
    (field.norm.ofVector (field.value w)).isFinite = true →
    field.norm.ofVector (field.value v) ≤ field.norm.ofVector (field.value w) → s.y0 ≤ s'.y0

/-- **Larger residuals with a smaller `y0`**: the residual `(1, -1, 0)` is stretched, and `(0, -2, 4)`
is not. With the identity a coordinate that overflows to a NaN is enough: the maximum norm passes over
it, and the product makes every coordinate a NaN. -/
theorem bounds_y0_drops :
    ¬(VectorField.lorenz ⟨1, 0, 0⟩).KeepsOrder stretch ∧
      ¬(VectorField.lorenz ⟨1, 0, .ofBits 0x7E70000000000000⟩).KeepsOrder (.identity 3) := by
  refine ⟨fun h => ?_, fun h => ?_⟩
  · have hle := h #v[0, 1, 0] #v[2, 2, 0] _ _ (by decide +kernel) (by decide +kernel)
      (bounds_of_fits rfl rfl rfl) (bounds_of_fits rfl rfl rfl) (by decide +kernel)
      (by decide +kernel) (by decide +kernel)
    exact absurd hle (by decide +kernel)
  · have hle := h #v[0, 1, 0]
      #v[.ofBits 0x6570000000000000, .ofBits 0x6570000000000000, .ofBits 0x4630000000000000] _ _
      (by decide +kernel) (by decide +kernel) (bounds_of_fits rfl rfl rfl)
      (bounds_of_fits rfl rfl rfl) (by decide +kernel) (by decide +kernel) (by decide +kernel)
    exact absurd hle (by decide +kernel)

end VectorField

end CertifiedZeros
