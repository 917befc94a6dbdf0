import CertifiedZeros.Proofs.Binary64.Reciprocal
import CertifiedZeros.Proofs.LU.Pivots

/-! # Multipliers in floats

A multiplier is a product with a reciprocal of the pivot, not a quotient, so the bound of partial
pivoting holds with exceptions. The reciprocal of a pivot up to `2 ^ (-1024)` is infinite, and a pivot
above `2 ^ 1022` may exceed one when it is multiplied by its subnormal reciprocal.

* **`IsNumbers k s`** — what is left after `k` columns has no NaN. Multipliers of at most one keep it so
  (**`isNumbers_advanced`**): with them only a sum can overflow, and an infinity then stays.
* **`IsRun.multiplier_le`** — the multipliers of a column against its pivot.
* **`multipliers_le_one_iff`** — when all multipliers are finite and at most one.
* **`multipliers_not_finite`**, **`multipliers_exceed_one`** — matrices where they are not. -/

namespace CertifiedZeros

namespace Binary64

/-- **A number that is not larger than a finite float** is finite. -/
theorem finite_of_not_lt_abs {a p : Float} (hp : p.isFinite = true) (ha : IsNumber a)
    (h : ¬p.abs < a.abs) : a.isFinite = true ∧ |real a| ≤ |real p| := by
  obtain ⟨hpfin, hpreal⟩ := abs_finite hp
  have hle : a.abs ≤ p.abs := by
    rw [lt_iff, not_and, not_and, not_lt] at h
    exact le_iff.mpr ⟨(abs_spec ha).1, isNumber_of_isFinite hpfin,
      h (isNumber_of_isFinite hpfin) (abs_spec ha).1⟩
  have hafin : a.abs.isFinite = true :=
    finite_of_le_of_le (nonneg_of_value (abs_spec ha).1 (value_abs_nonneg a)) hle isFinite_zero hpfin
  have hfin := isFinite_of_abs hafin
  exact ⟨hfin, by simpa only [(abs_finite hfin).2, hpreal] using real_le_real hle hafin hpfin⟩

/-- **A number minus a small multiple of a finite float** is a number. -/
theorem isNumber_sub_mul {x m t : Float} (hx : IsNumber x) (hm : m.isFinite = true) (hle : |real m| ≤ 1)
    (ht : t.isFinite = true) : IsNumber (x - m * t) := by
  obtain ⟨htfin, htreal⟩ := abs_finite ht
  obtain ⟨hfin, -⟩ := finite_of_abs_le (mul_spec hm ht) htfin (by
    rw [htreal, abs_mul]
    exact mul_le_of_le_one_left (abs_nonneg _) hle)
  have hproduct := coe_real hfin
  rcases hx.cases with hxfin | ⟨hinf, -⟩
  · exact (sub_spec hxfin hfin).1
  · exact (sub_infinite hx (isNumber_of_isFinite hfin) (.inl hinf)
      (fun h => EReal.coe_ne_top _ (hproduct.trans h.2))
      fun h => EReal.coe_ne_bot _ (hproduct.trans h.2)).1

end Binary64

namespace LU

open Binary64

variable {n : ℕ} {a : Grid n n Float} {states : ℕ → LU n Float}

/-- **What is left after `k` columns has no NaN.** -/
def IsNumbers (k : ℕ) (s : LU n Float) : Prop :=
  ∀ i j : Fin n, k ≤ i → k ≤ j → IsNumber (s.packed.get i j)

/-- **A column eliminated with multipliers of at most one** leaves numbers behind. -/
theorem isNumbers_advanced {s : LU n Float} {col : Fin n} (h : IsNumbers col s)
    (htop : ∀ j, col ≤ j → (s.packed.get (s.pivotRow col) j).isFinite = true)
    (hle : ∀ i, col < i → ((s.advanced col).packed.get i col).isFinite = true ∧
      |real ((s.advanced col).packed.get i col)| ≤ 1) : IsNumbers (col + 1) (s.advanced col) := by
  intro i j hi hj
  have hi' : col < i := hi
  have hj' : col < j := hj
  have hentry : IsNumber (s.packed.get (s.exchange col i) j) := h _ _ (le_exchange s hi'.le) hj'.le
  rw [get_advanced_rest s hi' hj']
  split_ifs
  · exact hentry
  · exact isNumber_sub_mul hentry (hle i hi').1 (hle i hi').2 (htop j hj'.le)

/-- **A pivot that bounds its multiplier** in row `i`: its reciprocal is finite, and where the product of
both exceeds one, which takes a pivot beyond `2 ^ 1022`, the multiplier does not. -/
def Harmless (f : LU n Float) (i j : Fin n) : Prop :=
  (2 : ℝ) ^ (-1024 : ℤ) < |real (f.packed.get j j)| ∧
    ((2 : ℝ) ^ (1022 : ℤ) < |real (f.packed.get j j)| →
      1 < real (f.packed.get j j * (1 / f.packed.get j j)) → |real (f.packed.get i j)| ≤ 1)

namespace IsRun

/-- **The multipliers of a column** whose rows are numbers: none exceeds the product of the pivot and
its reciprocal. -/
theorem multiplier_le (h : IsRun .binary64 a states) {i j : Fin n} (hij : j < i)
    (hnumbers : IsNumbers j (states j))
    (hpivot : (2 : ℝ) ^ (-1024 : ℤ) < |real ((states n).packed.get j j)|) :
    ((states n).packed.get i j).isFinite = true ∧ |real ((states n).packed.get i j)|
      ≤ real ((states n).packed.get j j * (1 / (states n).packed.get j j)) := by
  have hrow : j ≤ later states j i :=
    not_lt.mp fun hlt => hij.not_gt ((later_lt_iff states j.isLt.le i).mp hlt)
  have hfinite := h.isFinite_upper (le_refl j)
  obtain ⟨hentry, hle⟩ := finite_of_not_lt_abs hfinite (hnumbers _ j hrow le_rfl) (by
    rw [h.get_upper]
    exact not_lt_abs_pivot (states j) j _ hrow)
  rw [h.get_lower hij]
  exact abs_mul_reciprocal_le hfinite hpivot hentry hle

/-- **The multipliers of a column are at most one**, unless the product of its pivot and the reciprocal
exceeds one. -/
theorem multiplier_le_one (h : IsRun .binary64 a states) {i j : Fin n} (hij : j < i)
    (hnumbers : IsNumbers j (states j)) (hpivot : Harmless (states n) i j) :
    ((states n).packed.get i j).isFinite = true ∧ |real ((states n).packed.get i j)| ≤ 1 := by
  obtain ⟨hfinite, hle⟩ := h.multiplier_le hij hnumbers hpivot.1
  refine ⟨hfinite, ?_⟩
  obtain ⟨-, -, -, hone⟩ := mul_reciprocal_spec (h.isFinite_upper (le_refl j)) hpivot.1
  by_cases hexceeds : 1 < real ((states n).packed.get j j * (1 / (states n).packed.get j j))
  · exact hpivot.2 (not_le.mp fun hnormal => hexceeds.not_ge (hone hnormal)) hexceeds
  · exact hle.trans (not_lt.mp hexceeds)

/-- **No NaN appears** while the pivots are harmless. -/
theorem isNumbers (h : IsRun .binary64 a states) (ha : ∀ i j, (a.get i j).isFinite = true)
    (hpivots : ∀ i j, j < i → Harmless (states n) i j) {k : ℕ} (hk : k ≤ n) :
    IsNumbers k (states k) := by
  induction k with
  | zero =>
    intro i j _ _
    rw [h.start]
    exact isNumber_of_isFinite (ha i j)
  | succ k ih =>
    let col : Fin n := ⟨k, hk⟩
    have hnumbers : IsNumbers col (states col) := ih (Nat.le_of_succ_le hk)
    refine h.next col ▸ isNumbers_advanced hnumbers (fun j hj => h.isFinite_pivotRow hj) fun i hi => ?_
    -- the multipliers of the column are those at the end, in another order
    let row := (later states (k + 1)).symm i
    have hlater : later states (k + 1) row = i := Equiv.apply_symm_apply ..
    have hrow : col < row := not_le.mp fun hle => hi.not_ge (Nat.le_of_lt_succ
      (hlater ▸ (later_lt_iff states hk row).mpr (Nat.lt_succ_of_le hle)))
    have hsettled := h.get_settled hk (i := row) (j := col) (.inr k.lt_succ_self)
    rw [hlater, h.next col] at hsettled
    exact hsettled ▸ h.multiplier_le_one hrow hnumbers (hpivots row col hrow)

end IsRun

/-- A finite multiplier has a pivot whose reciprocal is finite. -/
theorem IsRun.lt_pivot (h : IsRun .binary64 a states) {i j : Fin n} (hij : j < i)
    (hfinite : ((states n).packed.get i j).isFinite = true) :
    (2 : ℝ) ^ (-1024 : ℤ) < |real ((states n).packed.get j j)| := by
  have hpivot := h.isFinite_upper (le_refl j)
  have h0 : real ((states n).packed.get j j) ≠ 0 := fun h0 =>
    h.value_pivot_ne_zero j (by rw [← coe_real hpivot, h0, EReal.coe_zero])
  rw [h.get_lower hij] at hfinite
  by_contra htiny
  have hreciprocal := isFinite_reciprocal_eq_false hpivot h0 (not_lt.mp htiny)
  exact Bool.noConfusion (hreciprocal.symm.trans (isFinite_of_mul hfinite).2)

/-- **The multipliers are finite and at most one** exactly when every pivot above another row is larger
than `2 ^ (-1024)`, and none beyond `2 ^ 1022` has a multiplier that exceeds one, which takes a product
with its reciprocal that does. -/
theorem multipliers_le_one_iff {f : LU n Float} (ha : ∀ i j, (a.get i j).isFinite = true)
    (h : factor .binary64 a = .ok f) :
    (∀ i j, j < i → (f.packed.get i j).isFinite = true ∧ |real (f.packed.get i j)| ≤ 1) ↔
      ∀ i j, j < i → (2 : ℝ) ^ (-1024 : ℤ) < |real (f.packed.get j j)| ∧
        ((2 : ℝ) ^ (1022 : ℤ) < |real (f.packed.get j j)| →
          1 < real (f.packed.get j j * (1 / f.packed.get j j)) → |real (f.packed.get i j)| ≤ 1) := by
  obtain ⟨states, hrun, rfl⟩ := factor_eq_ok_iff.mp h
  exact ⟨fun hle i j hij => ⟨hrun.lt_pivot hij (hle i j hij).1, fun _ _ => (hle i j hij).2⟩,
    fun hpivots i j hij =>
      hrun.multiplier_le_one hij (hrun.isNumbers ha hpivots j.isLt.le) (hpivots i j hij)⟩

/-- A row that starts with a half of the pivot. -/
theorem multipliers_le_one_two : ∃ f,
    factor .binary64 (.ofColumns #v[#v[1, 0.5], #v[0, 1]] : Grid 2 2 Float) = .ok f ∧
      ∀ i j, j < i → (f.packed.get i j).isFinite = true ∧ |real (f.packed.get i j)| ≤ 1 := by
  have hrun : (factor .binary64 (.ofColumns #v[#v[1, 0.5], #v[0, 1]] : Grid 2 2 Float)).toOption.map
      (fun f => f.packed.get 0 0 == 1) = some true := by decide +kernel
  have hfinite : ∀ i j, ((.ofColumns #v[#v[1, 0.5], #v[0, 1]] : Grid 2 2 Float).get i j).isFinite
      = true := by decide +kernel
  obtain ⟨f, hfactor, hone⟩ := exists_ok_of_map hrun
  have hpivot : real (f.packed.get 0 0) = 1 := by
    rw [real, (beq_iff.mp hone).2.2, value_one, EReal.toReal_coe]
  refine ⟨f, hfactor, (multipliers_le_one_iff hfinite hfactor).mpr fun i j hij => ?_⟩
  obtain rfl : j = 0 := by omega
  have hsmall : (2 : ℝ) ^ (-1024 : ℤ) < 2 ^ (0 : ℤ) := zpow_two_lt (by norm_num)
  have hlarge : (2 : ℝ) ^ (0 : ℤ) ≤ 2 ^ (1022 : ℤ) := zpow_two_le (by norm_num)
  rw [hpivot, abs_one, ← zpow_zero (2 : ℝ)]
  exact ⟨hsmall, fun h => absurd h hlarge.not_gt⟩

/-- **A finite matrix with factors whose multiplier is not finite**: the smallest positive float on the
diagonal. -/
theorem multipliers_not_finite :
    (∀ i j, ((.ofColumns #v[#v[.ofBits 1, 0], #v[0, .ofBits 1]] : Grid 2 2 Float).get i j).isFinite
        = true) ∧
      ∃ f, factor .binary64 (.ofColumns #v[#v[.ofBits 1, 0], #v[0, .ofBits 1]] : Grid 2 2 Float)
        = .ok f ∧ (f.packed.get 1 0).isFinite = false := by
  have hrun : (factor .binary64 (.ofColumns #v[#v[.ofBits 1, 0], #v[0, .ofBits 1]] :
      Grid 2 2 Float)).toOption.map (fun f => (f.packed.get 1 0).isFinite) = some false := by
    decide +kernel
  exact ⟨by decide +kernel, exists_ok_of_map hrun⟩

/-- **One whose multiplier exceeds one**: a column of equal entries just above `2 ^ 1023`. -/
theorem multipliers_exceed_one :
    (∀ i j, ((.ofColumns #v[#v[.ofBits 0x7FE0000000000001, .ofBits 0x7FE0000000000001],
        #v[0, .ofBits 0x7FE0000000000001]] : Grid 2 2 Float).get i j).isFinite = true) ∧
      ∃ f, factor .binary64 (.ofColumns #v[#v[.ofBits 0x7FE0000000000001, .ofBits 0x7FE0000000000001],
        #v[0, .ofBits 0x7FE0000000000001]] : Grid 2 2 Float) = .ok f ∧ 1 < f.packed.get 1 0 := by
  have hrun : (factor .binary64 (.ofColumns #v[#v[.ofBits 0x7FE0000000000001,
      .ofBits 0x7FE0000000000001], #v[0, .ofBits 0x7FE0000000000001]] : Grid 2 2 Float)).toOption.map
        (fun f => decide (1 < f.packed.get 1 0)) = some true := by decide +kernel
  obtain ⟨f, hfactor, hlt⟩ := exists_ok_of_map hrun
  exact ⟨by decide +kernel, f, hfactor, of_decide_eq_true hlt⟩

end LU

end CertifiedZeros
