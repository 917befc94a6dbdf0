import CertifiedZeros.Proofs.Binary64.RepeatedSquaring
import CertifiedZeros.Proofs.ComputedNorm
import CertifiedZeros.Proofs.Loop
import CertifiedZeros.Proofs.Newton.Trajectory

/-! # Residuals that overflow

Newton's method refuses a value of the field with a coordinate that is not finite. Only then the residual
is computed, and as a sum it may still overflow.

* **`UpTo B x`** — a float between zero and a bound; **`upTo_pow`** — the powers of a number below
  one.
* **`isFinite_cosine`** — a sum that cannot overflow, because its weights after the first vanish beside
  the largest float.
* **`cosine_overflow`** — a vector that the other weights overflow at.
* **`FiniteResiduals`** — no run is cut off at, and no step starts from, a residual that is not finite;
  **`finiteResiduals_iff`** — the norms for which this holds of every run. -/

namespace CertifiedZeros

namespace Binary64

variable {x y : Float} {B C : ℝ}

/-! ## Small factors -/

/-- **A float between zero and a bound.** -/
structure UpTo (B : ℝ) (x : Float) : Prop where
  finite : x.isFinite = true
  nonneg : 0 ≤ real x
  le : real x ≤ B

theorem UpTo.mono {B' : ℝ} (h : UpTo B x) (hle : B ≤ B') : UpTo B' x :=
  ⟨h.finite, h.nonneg, h.le.trans hle⟩

/-- **A product with a factor of at most one** is not larger than the other factor. -/
theorem UpTo.mul (hB : B ≤ 1) (hBC : Representable (B * C)) (hx : UpTo B x) (hy : UpTo C y) :
    UpTo (B * C) (x * y) := by
  have h0 : 0 ≤ real x * real y := mul_nonneg hx.nonneg hy.nonneg
  have hle : real x * real y ≤ real y := mul_le_of_le_one_left hy.nonneg (hx.le.trans hB)
  have hbound : real x * real y ≤ B * C := mul_le_mul hx.le hy.le hy.nonneg (hx.nonneg.trans hx.le)
  obtain ⟨hfinite, hreal⟩ :=
    finite_of_abs_le (mul_spec hx.finite hy.finite) hy.finite ((abs_of_nonneg h0).trans_le hle)
  refine ⟨hfinite, ?_, ?_⟩ <;> rw [hreal]
  · exact le_rounded representable_zero h0
  · exact rounded_le hBC hbound

theorem UpTo.unit_mul (hC : Representable C) (hx : UpTo 1 x) (hy : UpTo C y) : UpTo C (x * y) := by
  have h := hx.mul le_rfl ((one_mul C).symm ▸ hC) hy
  rwa [one_mul] at h

theorem upTo_one : UpTo 1 1 := ⟨isFinite_one, by rw [real_one]; exact zero_le_one, real_one.le⟩

/-- Repeated squaring starts within the bound and stays there. -/
theorem upTo_powerFrom (hB : Representable B) (hle : B ≤ 1) (acc x : Float) (n : ℕ)
    (hacc : UpTo B acc) (hx : UpTo B x) : UpTo B (powerFrom acc x n) := by
  induction acc, x, n using powerFrom.induct with
  | case1 acc x => rwa [powerFrom, dif_pos rfl]
  | case2 acc x n hn ih =>
    rw [powerFrom, dif_neg hn]
    refine ih ?_ ((hx.mono hle).unit_mul hB hx)
    split_ifs
    · exact (hacc.mono hle).unit_mul hB hx
    · exact hacc

/-- **The powers of a number below one**, the empty one apart, stay within its bound. -/
theorem upTo_pow (hB : Representable B) (hle : B ≤ 1) {n : ℕ} (hn : n ≠ 0) (hx : UpTo B x) :
    UpTo B (x ^ n) := by
  change UpTo B (powerFrom 1 x n)
  induction n using Nat.strong_induction_on generalizing x with
  | _ n ih =>
    rw [powerFrom, dif_neg hn]
    have hsquare := (hx.mono hle).unit_mul hB hx
    split_ifs with hodd
    · exact upTo_powerFrom hB hle _ _ _ (upTo_one.unit_mul hB hx) hsquare
    · exact ih (n / 2) (Nat.div_lt_self (by omega) (by decide)) (by omega) hsquare

theorem upTo_abs (hx : x.isFinite = true) : UpTo (limit - topUnit) x.abs := by
  obtain ⟨hfinite, hreal⟩ := abs_finite hx
  refine ⟨hfinite, ?_, ?_⟩ <;> rw [hreal]
  · exact abs_nonneg _
  · exact (representable_real hx).abs_le_of_lt_limit (abs_real_lt hx)

end Binary64

namespace PhaseNorm

open Binary64

variable {ratio : Float} {n : ℕ} {x : Vector Float n}

/-! ## Norms that cannot overflow -/

/-- The weights of a cosine series with a tiny ratio, the first one apart. -/
theorem upTo_cosineWeight (hratio : UpTo ((2 : ℝ) ^ (-55 : ℤ)) ratio) {k : ℕ} (hk : k ≠ 0) :
    UpTo ((2 : ℝ) ^ (-54 : ℤ)) (cosineWeight ratio k) := by
  have hpower := upTo_pow (representable_zpow (by norm_num)) (by norm_num) hk hratio
  obtain ⟨htwo, hreal⟩ := natCast_spec (n := 2) (by norm_num)
  have h0 : 0 ≤ 2 * real (ratio ^ k) := mul_nonneg zero_le_two hpower.nonneg
  have hle : 2 * real (ratio ^ k) ≤ (2 : ℝ) ^ (-54 : ℤ) := by
    rw [show (-54 : ℤ) = -55 + (1 : ℕ) by norm_num, zpow_two_add]
    linarith [hpower.le]
  have hspec := mul_spec htwo hpower.finite
  rw [hreal.trans Nat.cast_two] at hspec
  obtain ⟨hfinite, hreal⟩ := finite_of_abs_le hspec isFinite_one (by
    rw [abs_of_nonneg h0, real_one]
    exact hle.trans (by norm_num))
  rw [cosineWeight, if_neg hk]
  refine ⟨hfinite, ?_, ?_⟩ <;> rw [hreal]
  · exact le_rounded representable_zero h0
  · exact rounded_le (representable_zpow (by norm_num)) hle

/-- What a later term can add to a sum is less than half the last place of the largest float. -/
theorem tail_lt : (2 : ℝ) ^ (-54 : ℤ) * (limit - topUnit) < topUnit / 2 := by
  have hscale : (2 : ℝ) ^ (-54 : ℤ) * 2 ^ 53 = 1 / 2 := by norm_num
  have hunit : 0 < (2 : ℝ) ^ (-54 : ℤ) * topUnit := mul_pos (zpow_two_pos _) topUnit_pos
  rw [limit_eq]
  linear_combination topUnit * hscale + hunit

theorem representable_tail : Representable ((2 : ℝ) ^ (-54 : ℤ) * (limit - topUnit)) := by
  have hunit : (2 : ℝ) ^ (-54 : ℤ) * topUnit = (2 : ℝ) ^ (917 : ℤ) := by
    rw [topUnit, ← zpow_add₀ (by norm_num)]
    norm_num
  have hvalue : (2 : ℝ) ^ (-54 : ℤ) * (limit - topUnit)
      = ((2 ^ 53 - 1 : ℤ) : ℝ) * (2 : ℝ) ^ (917 : ℤ) := by
    rw [limit_eq, ← hunit]
    push_cast
    ring
  refine representable_of_onGrid (e := 917) (by norm_num) ⟨_, hvalue⟩ ?_
  rw [hvalue, abs_mul, abs_of_pos (zpow_two_pos 917), show (917 : ℤ) + 53 = 917 + (53 : ℕ) by norm_num,
    zpow_two_add]
  exact mul_le_mul_of_nonneg_right (by norm_num [abs_of_pos]) (zpow_two_pos 917).le

/-- **A cosine series with a tiny ratio** has a finite norm: its first term is not larger than the largest
float, and no other one leads beyond it. -/
theorem isFinite_cosine (hratio : UpTo ((2 : ℝ) ^ (-55 : ℤ)) ratio)
    (hx : ∀ i, (x.get i).isFinite = true) : ((cosine ratio).ofVector x).isFinite = true := by
  -- that the sum starts at zero is carried along: the first term alone may be the largest float
  refine (foldl_invariant (P := fun k (acc : Float) => acc.isFinite = true ∧ (k = 0 → acc = 0))
    ⟨isFinite_zero, fun _ => rfl⟩ fun i acc hacc => ?_).1
  obtain ⟨hfinite, hstart⟩ := hacc
  have hentry := upTo_abs (hx i)
  have hpos := topUnit_pos
  refine ⟨?_, fun h => absurd h (Nat.succ_ne_zero _)⟩
  change (acc + cosineWeight ratio i * (x.get i).abs).isFinite = true
  by_cases hi : (i : ℕ) = 0
  · have hterm : UpTo (limit - topUnit) (cosineWeight ratio i * (x.get i).abs) := by
      rw [cosineWeight, if_pos hi]
      exact upTo_one.unit_mul representable_limit_sub hentry
    refine isFinite_add hfinite hterm.finite ?_
    rw [hstart hi, real_zero, abs_zero, zero_add, abs_of_nonneg hterm.nonneg]
    linarith [hterm.le]
  · have hterm := (upTo_cosineWeight hratio hi).mul (by norm_num) representable_tail hentry
    refine isFinite_add hfinite hterm.finite ?_
    have hle := (representable_real hfinite).abs_le_of_lt_limit (abs_real_lt hfinite)
    have hsmall := hterm.le.trans_lt tail_lt
    rw [abs_of_nonneg hterm.nonneg]
    linarith

/-! ## Norms that overflow -/

/-- Twice a ratio that is not tiny is large enough to carry the largest float over the limit. -/
theorem le_two_mul_largest (hratio : ratio.isFinite = true) (h : (2 : ℝ) ^ (-55 : ℤ) < real ratio) :
    topUnit / 2 ≤ 2 * real ratio * (limit - topUnit) := by
  have hdouble : (2 : ℝ) ^ (-54 : ℤ) < 2 * real ratio := by
    rw [show (-54 : ℤ) = -55 + (1 : ℕ) by norm_num, zpow_two_add]
    linarith
  -- the next number above `2 ^ (-54)` makes up for the unit below the limit
  have hgrid : OnGrid (-106) (2 * real ratio - (2 : ℝ) ^ (-54 : ℤ)) := by
    refine ((representable_real hratio).two_mul.onGrid (le_unitExponent_of_le ?_)).sub
      ((representable_zpow (by norm_num)).onGrid (le_unitExponent_of_le ?_))
    · exact hdouble.le.trans (le_abs_self _)
    · exact (le_abs_self _)
  have hgap := hgrid.zpow_le_abs (sub_pos.mpr hdouble).ne'
  rw [abs_of_pos (sub_pos.mpr hdouble)] at hgap
  have hpos := topUnit_pos
  have hbound : (2 : ℝ) ^ (-54 : ℤ) + (2 : ℝ) ^ (-106 : ℤ) ≤ 2 * real ratio := by linarith
  calc topUnit / 2 ≤ topUnit * (((2 : ℝ) ^ (-54 : ℤ) + (2 : ℝ) ^ (-106 : ℤ)) * (2 ^ 53 - 1)) := by
        rw [div_eq_mul_inv]
        exact mul_le_mul_of_nonneg_left (by norm_num) hpos.le
    _ = ((2 : ℝ) ^ (-54 : ℤ) + (2 : ℝ) ^ (-106 : ℤ)) * (limit - topUnit) := by rw [limit_eq]; ring
    _ ≤ 2 * real ratio * (limit - topUnit) := by
        refine mul_le_mul_of_nonneg_right hbound ?_
        linarith [limit_eq]

/-- The weight of the second mode is twice the ratio. -/
theorem real_cosineWeight_one (hfinite : (cosineWeight ratio 1).isFinite = true) :
    real (cosineWeight ratio 1) = 2 * real ratio := by
  obtain ⟨hpower, hdouble⟩ := real_cosineWeight one_ne_zero hfinite
  rw [float_pow_one] at hpower hdouble
  rw [hdouble, real_one_mul hpower]

/-- **A cosine series with a larger ratio** overflows at the largest float in its first two modes. -/
theorem cosine_overflow (hratio : ratio.isFinite = true) (h : (2 : ℝ) ^ (-55 : ℤ) < real ratio) :
    ((cosine ratio).ofVector #v[largest, -largest, 0]).isFinite = false := by
  have hsum : (cosine ratio).ofVector #v[largest, -largest, 0]
      = 0 + cosineWeight ratio 0 * largest.abs + cosineWeight ratio 1 * (-largest).abs
        + cosineWeight ratio 2 * (0 : Float).abs := rfl
  have hfirst : 0 + (1 : Float) * largest.abs = largest := by decide +kernel
  have hsecond : (-largest).abs = largest := by decide +kernel
  rw [Bool.eq_false_iff, hsum, cosineWeight, if_pos rfl, hfirst, hsecond]
  intro hfinite
  obtain ⟨hsum, -⟩ := isFinite_of_add hfinite
  obtain ⟨hlargest, hterm⟩ := isFinite_of_add hsum
  have hweight := (isFinite_of_mul hterm).1
  have hreal := real_mul hterm
  rw [real_cosineWeight_one hweight, real_eq_of_value value_largest.2] at hreal
  have hhalf : Representable (topUnit / 2) := by
    rw [topUnit, show (971 : ℤ) = 970 + (1 : ℕ) by norm_num, zpow_two_add, pow_one,
      mul_div_cancel_left₀ _ two_ne_zero]
    exact representable_zpow (by norm_num)
  have hbound := le_rounded hhalf (le_two_mul_largest hratio h)
  rw [← hreal] at hbound
  -- half a unit above the largest float the sum is rounded to the limit
  have htop := (add_spec hlargest hterm).2.trans (clamp_rounded_eq_top_iff.mpr (by
    rw [real_eq_of_value value_largest.2]
    linarith))
  exact Bool.noConfusion (hsum.symm.trans (isFinite_eq_false (.inl htop)))

end PhaseNorm

namespace Newton

open Binary64

/-! ## Runs -/

/-- **Every residual that matters is finite**: the one that a run is cut off at, and the ones that its
steps start from. -/
structure FiniteResiduals (field : VectorField Float) (start : DenseVector Float)
    (settings : Settings) : Prop where
  reported : ∀ k r, solve field start settings = .error (.maxIterations k r) → r.isFinite = true
  stepped : ∀ n y z r, n < settings.maxIterations →
    Path field settings.norm settings.tolerance n start y → Measures field settings.norm y r →
      ¬r < settings.tolerance → StepsTo field y z → r.isFinite = true

variable {field : VectorField Float} {start x : DenseVector Float} {settings : Settings} {r : Float}

/-- A run is cut off at the residual of its last point. -/
theorem measures_of_maxIterations {k : ℕ} (h : solve field start settings = .error (.maxIterations k r)) :
    ∃ y, Path field settings.norm settings.tolerance k start y ∧ Measures field settings.norm y r ∧
      ¬r < settings.tolerance := by
  by_cases hsize : start.size = field.dim
  swap
  · rw [solve_of_size_ne hsize] at h
    exact absurd (Except.error.inj h) (RunError.mismatch_ne _ _ k r)
  obtain ⟨v, rfl⟩ : ∃ v : Vector Float field.dim, start = v.toArray := ⟨⟨start, hsize⟩, rfl⟩
  cases (solve_eq_iff settings.maxIterations).mp h with
  | cutOff hpath hy hr => exact ⟨_, (Nat.zero_add _).symm ▸ hpath, hy, hr⟩

/-- **In a norm that cannot overflow** every residual is finite. -/
theorem Measures.isFinite_residual {norm : PhaseNorm Float}
    (hnorm : norm = .max ∨ ∃ ratio, norm = .cosine ratio ∧ UpTo ((2 : ℝ) ^ (-55 : ℤ)) ratio)
    (h : Measures field norm x r) : r.isFinite = true := by
  obtain ⟨v, rfl⟩ := h.exists_vector
  obtain ⟨hfinite, rfl⟩ := measures_toArray.mp h
  have hvalue : ∀ i, ((field.value v).get i).isFinite = true :=
    fun i => Vector.all_eq_true.mp hfinite i.val i.isLt
  rcases hnorm with rfl | ⟨ratio, rfl, hratio⟩
  · exact (PhaseNorm.ofVector_max_finite hvalue).1
  · exact PhaseNorm.isFinite_cosine hratio hvalue

/-- **A run without steps** reports the residual of its start. -/
theorem solve_zero (field : VectorField Float) (settings : Settings) (v : Vector Float field.dim)
    (hfinite : (field.value v).all Float.isFinite = true)
    (hr : ¬settings.norm.ofVector (field.value v) < settings.tolerance) :
    solve field v.toArray { settings with maxIterations := 0 }
      = .error (.maxIterations 0 (settings.norm.ofVector (field.value v))) :=
  (solve_eq_iff 0).mpr (.cutOff (.stay _) (measures_toArray.mpr ⟨hfinite, rfl⟩) hr)

/-- At the point `(0, y, 0)` the Lorenz system with the parameters `1`, `0` and `0` has the value
`(y, -y, 0)`. -/
theorem lorenz_value_largest :
    (⟨1, 0, 0⟩ : Lorenz Float).value #v[0, largest, 0] = #v[largest, -largest, 0] := by
  decide +kernel

/-- **A run that is cut off where the norm overflows**, under a tolerance that no residual is below. -/
theorem solve_overflow (norm : PhaseNorm Float) :
    solve (.lorenz ⟨1, 0, 0⟩) #[0, largest, 0]
        { tolerance := -infinity, maxIterations := 0, norm := norm }
      = .error (.maxIterations 0 (norm.ofVector #v[largest, -largest, 0])) := by
  have hrun := solve_zero (.lorenz ⟨1, 0, 0⟩) { tolerance := -infinity, norm := norm } #v[0, largest, 0]
  simp only [VectorField.value] at hrun
  rw [lorenz_value_largest] at hrun
  refine hrun (by decide +kernel) fun h => ?_
  have hlt := (lt_iff.mp h).2.2
  rw [value_neg infinity_isNumber, value_infinity, EReal.neg_top] at hlt
  exact not_lt_bot hlt

/-- **The norms without infinite residuals**: the maximum, and the cosine series whose ratio is at most
`2 ^ (-55)`. In all others a value of the field can be finite and its norm not. -/
theorem finiteResiduals_iff {norm : PhaseNorm Float}
    (hratio : ∀ ratio, norm = .cosine ratio → ratio.isFinite = true ∧ 0 ≤ ratio) :
    (∀ field start settings, settings.norm = norm → FiniteResiduals field start settings) ↔
      norm = .max ∨ ∃ ratio, norm = .cosine ratio ∧ real ratio ≤ (2 : ℝ) ^ (-55 : ℤ) := by
  constructor
  · intro h
    have hrun := (h (.lorenz ⟨1, 0, 0⟩) #[0, largest, 0]
      { tolerance := -infinity, maxIterations := 0, norm := norm } rfl).reported 0 _ (solve_overflow norm)
    cases norm with
    | max => exact .inl rfl
    | sum => exact absurd hrun (by decide +kernel)
    | entrywise => exact absurd hrun (by decide +kernel)
    | cosine ratio =>
      refine .inr ⟨ratio, rfl, not_lt.mp fun hlarge => ?_⟩
      exact Bool.noConfusion (hrun.symm.trans (PhaseNorm.cosine_overflow (hratio ratio rfl).1 hlarge))
  · intro hnorm field start settings hsettings
    have hbounded : settings.norm = .max ∨
        ∃ ratio, settings.norm = .cosine ratio ∧ UpTo ((2 : ℝ) ^ (-55 : ℤ)) ratio := by
      rw [hsettings]
      refine hnorm.imp_right fun ⟨ratio, heq, hle⟩ => ⟨ratio, heq, ?_⟩
      obtain ⟨hfinite, h0⟩ := hratio ratio heq
      exact ⟨hfinite, real_nonneg h0 hfinite, hle⟩
    refine ⟨fun k r h => ?_, fun n y z r _ _ hy _ _ => hy.isFinite_residual hbounded⟩
    obtain ⟨y, -, hy, -⟩ := measures_of_maxIterations h
    exact hy.isFinite_residual hbounded

/-- The cosine series with the largest ratio that does not overflow, in a run that meets the largest
floats. -/
theorem finiteResiduals_cosine :
    (Float.ofBits 0x3C80000000000000).isFinite = true ∧ 0 ≤ Float.ofBits 0x3C80000000000000 ∧
      FiniteResiduals (.lorenz ⟨1, 0, 0⟩) #[0, largest, 0]
        { norm := .cosine (.ofBits 0x3C80000000000000) } := by
  obtain ⟨hfinite, hreal⟩ := power_spec (x := .ofBits 0x3C80000000000000) (e := -55) rfl (by decide)
    (by decide) (by decide)
  have h0 : 0 ≤ Float.ofBits 0x3C80000000000000 := by decide +kernel
  refine ⟨hfinite, h0, (finiteResiduals_iff ?_).mpr (.inr ⟨_, rfl, hreal.le⟩) _ _ _ rfl⟩
  rintro _ ⟨⟩
  exact ⟨hfinite, h0⟩

/-- **A run that reports an infinite residual**, in the sum norm. -/
theorem solve_reports_infinity :
    (solve (.lorenz ⟨1, 0, 0⟩) #[0, largest, 0] { maxIterations := 0, norm := .sum }
      = .error (.maxIterations 0 infinity)) ∧ infinity.isFinite = false := by
  decide +kernel

end Newton

end CertifiedZeros
