import CertifiedZeros.Proofs.LU.Substitution

/-! # The factorisation in exact arithmetic

Over an ordered field the factorisation is exact, whatever the threshold that pivots have to pass.

* **`Decomposes a f`** — the factors `f` of `a`: `P A = L U` with multipliers of at most one and pivots
  other than zero, the determinant read off the pivots, and the solutions of all systems.
* **`factor_exact`** — the factors that are found decompose the grid, and with the threshold zero only
  singular grids have none. -/

namespace CertifiedZeros.LU

open Matrix

variable {K : Type} [Field K] {n : ℕ}

/-! ## Determinants -/

/-- **A column without a pivot** leaves a singular matrix: it is zero from the diagonal downwards, and
the columns before it have zeros there, too. -/
theorem det_remaining_eq_zero {a : Grid n n K} {col : Fin n} (hzero : ∀ i, col ≤ i → a.get i col = 0) :
    (remaining col a).det = 0 := by
  -- the rows from `col` on form one block, whose first column vanishes
  let block (i : Fin n) : ℕ := min i col
  have htriangular : (remaining col a).BlockTriangular block := by
    intro i j hij
    have hij : min (j : ℕ) col < min (i : ℕ) col := hij
    rw [remaining_apply, if_pos ⟨by omega, by omega⟩]
  rw [htriangular.det]
  refine Finset.prod_eq_zero (i := (col : ℕ))
    (Finset.mem_image.mpr ⟨col, Finset.mem_univ _, min_self _⟩) ?_
  refine det_eq_zero_of_column_eq_zero ⟨col, min_self _⟩ fun i => ?_
  have hi : min (i.1 : ℕ) col = col := i.2
  have hzero' : remaining col a i.1 col = 0 := by
    rw [remaining_apply, if_neg fun h => lt_irrefl _ h.1]
    exact hzero i.1 (by omega)
  exact hzero'

variable [LinearOrder K] {a : Grid n n K} {f s : LU n K} {k : ℕ}

/-- The determinant of the grid is that of what remains of it, up to the sign of the permutation. -/
theorem Progress.det_eq (h : Progress a k s) :
    (if s.even then 1 else -1) * a.toMatrix.det = (remaining k s.packed).det := by
  obtain ⟨σ, -, hsign, hfactors⟩ := h.factors
  have hdet := congrArg Matrix.det hfactors
  rw [det_permute, det_mul, det_lowerTo, one_mul, hsign] at hdet
  rw [← hdet]
  split_ifs <;> simp

/-! ## The factors -/

/-- **The factors of a square grid.** -/
structure Decomposes (a : Grid n n K) (f : LU n K) : Prop where
  /-- The rows in the order of the permutation are the product of the triangles, and the parity is
  that of the permutation. -/
  product : ∃ σ : Equiv.Perm (Fin n), (∀ i, f.perm.get i = σ i) ∧
    Equiv.Perm.sign σ = (if f.even then 1 else -1) ∧
    a.toMatrix.submatrix σ id = f.lower * f.upper
  lower_le_one : ∀ i j, |f.lower i j| ≤ 1
  upper_ne_zero : ∀ i, f.upper i i ≠ 0
  det_eq : a.toMatrix.det = (if f.even then 1 else -1) * ∏ i, f.upper i i
  solve_unique : ∀ b x : Vector K n, a.apply x = b ↔ x = f.solve b
  mul_inverse : a.mul f.inverse = Grid.identity n
  inverse_mul : f.inverse.mul a = Grid.identity n

/-- The diagonal of the upper triangle holds the pivots. -/
theorem Progress.upper_ne_zero (h : Progress a n f) (i : Fin n) : f.upper i i ≠ 0 := by
  rw [upper, of_apply, if_neg (lt_irrefl i)]
  exact h.pivot_ne_zero i i.isLt

/-- **The determinant is read off the pivots.** -/
theorem Progress.det_eq_prod (h : Progress a n f) :
    a.toMatrix.det = (if f.even then 1 else -1) * ∏ i, f.upper i i := by
  have htriangular : f.upper.IsUpperTriangular := fun i j hij => if_pos hij
  have hremaining := h.det_eq
  rw [remaining_packed, det_of_isUpperTriangular htriangular] at hremaining
  rw [← hremaining]
  split_ifs <;> simp

theorem Progress.det_ne_zero (h : Progress a n f) : a.toMatrix.det ≠ 0 := by
  rw [h.det_eq_prod]
  exact mul_ne_zero (by split_ifs <;> simp) (Finset.prod_ne_zero_iff.mpr fun i _ => h.upper_ne_zero i)

/-- **The sweeps solve the system** whose right-hand side they are given. -/
theorem Progress.apply_solve (h : Progress a n f) (b : Vector K n) : a.apply (f.solve b) = b := by
  obtain ⟨σ, hperm, -, hfactors⟩ := h.factors
  have hrows := lower_mul_upper_mulVec_solve f h.upper_ne_zero b
  rw [← lowerTo_packed, ← remaining_packed, ← hfactors] at hrows
  refine ext_get fun i => ?_
  have hrow := congrFun hrows (σ.symm i)
  rw [hperm, Equiv.apply_symm_apply] at hrow
  rw [← hrow, Grid.get_apply_eq_mulVec, mulVec, mulVec, dotProduct, dotProduct]
  simp only [submatrix_apply, Equiv.apply_symm_apply, id]

/-- The solutions for the unit vectors form the inverse. -/
theorem Progress.mul_inverse (h : Progress a n f) : a.mul f.inverse = Grid.identity n := by
  refine Grid.ext_get fun i j => ?_
  have hcolumn : (a.apply (f.solve (unit j))).get i = (unit j : Vector K n).get i := by
    rw [h.apply_solve]
  rw [Grid.get_apply, unit, get_ofFn] at hcolumn
  rw [Grid.get_mul, Grid.get_identity, ← hcolumn]
  simp only [inverse, Grid.get_ofColumns, get_ofFn, unit]

variable [IsStrictOrderedRing K]

/-! ## The loop -/

theorem threshold_nonneg {epsilon : K} (h : 0 ≤ epsilon) (a : Grid n n K) :
    0 ≤ threshold (.exact epsilon) a := by
  have hlargest : 0 ≤ largestEntry a :=
    foldl_invariant (P := fun _ acc => 0 ≤ acc) le_rfl fun j acc hacc =>
      foldl_invariant (P := fun _ acc => 0 ≤ acc) hacc fun i acc hacc =>
        hacc.trans (le_max_left acc |a.get i j|)
  exact mul_nonneg (mul_nonneg h hlargest) n.cast_nonneg

/-- **The whole elimination** reaches the last column, or stops at one without a usable pivot. -/
theorem factor_progress {epsilon : K} (h : 0 ≤ epsilon) (a : Grid n n K) :
    (∀ f, factor (.exact epsilon) a = .ok f → Progress a n f) ∧
      ∀ s, factor (.exact epsilon) a = .error s → ∃ col : Fin n, Progress a col s ∧
        ∀ i, col ≤ i → |s.packed.get i col| ≤ threshold (.exact epsilon) a := by
  refine foldlM_invariant (start_progress a) fun col s hs => ?_
  obtain ⟨hok, herror⟩ := step_progress (threshold_nonneg h a) hs
  exact ⟨hok, fun t ht => ⟨col, herror t ht⟩⟩

/-- **The factors of a finished elimination.** -/
theorem Progress.decomposes (h : Progress a n f) : Decomposes a f where
  product := by
    obtain ⟨σ, hperm, hsign, hfactors⟩ := h.factors
    exact ⟨σ, hperm, hsign, by rw [hfactors, lowerTo_packed, remaining_packed]⟩
  lower_le_one i j := by
    rw [lower, of_apply]
    split_ifs with hji hij
    · exact h.multiplier_le i j j.isLt hji
    · rw [abs_one]
    · rw [abs_zero]
      exact zero_le_one
  upper_ne_zero := h.upper_ne_zero
  det_eq := h.det_eq_prod
  solve_unique b x := by
    refine ⟨fun hx => Grid.apply_injective h.det_ne_zero ?_, fun hx => hx ▸ h.apply_solve b⟩
    rw [hx, h.apply_solve]
  mul_inverse := h.mul_inverse
  inverse_mul := Grid.mul_eq_identity_comm.mp h.mul_inverse

/-- **The factorisation is exact.** -/
theorem factor_exact (a : Grid n n K) {epsilon : K} (h : 0 ≤ epsilon) :
    (∀ f, factor (.exact epsilon) a = .ok f → Decomposes a f) ∧
      ((∃ s, factor (.exact 0) a = .error s) ↔ a.toMatrix.det = 0) := by
  obtain ⟨hok, herror⟩ := factor_progress le_rfl a
  refine ⟨fun f hf => ((factor_progress h a).1 f hf).decomposes, ⟨fun ⟨s, hs⟩ => ?_, fun hdet => ?_⟩⟩
  · obtain ⟨col, hprogress, hsmall⟩ := herror s hs
    have hzero : (remaining col s.packed).det = 0 := det_remaining_eq_zero fun i hi => by
      have hbound := hsmall i hi
      rw [threshold, PivotRule.exact, zero_mul, zero_mul] at hbound
      exact abs_nonpos_iff.mp hbound
    rw [← hprogress.det_eq] at hzero
    exact (mul_eq_zero.mp hzero).resolve_left (by split_ifs <;> simp)
  · cases hresult : factor (.exact 0) a with
    | error s => exact ⟨s, rfl⟩
    | ok f => exact absurd hdet (hok f hresult).det_ne_zero

/-- A system of three equations, which takes an exchange of rows and a threshold of one hundredth of its
scale. -/
theorem factor_exact_three :
    (0 : ℚ) ≤ 1 / 100 ∧ ∃ f,
      factor (.exact (1 / 100)) (.ofColumns #v[#v[2, -3, -2], #v[1, -1, 1], #v[-1, 2, 2]] : Grid 3 3 ℚ)
        = .ok f ∧ f.perm = #v[1, 2, 0] ∧ f.solve #v[8, -11, -3] = #v[2, 3, -1] ∧
      Decomposes (.ofColumns #v[#v[2, -3, -2], #v[1, -1, 1], #v[-1, 2, 2]]) f := by
  have hepsilon : (0 : ℚ) ≤ 1 / 100 := by norm_num
  have hok : (factor (.exact (1 / 100)) (.ofColumns #v[#v[2, -3, -2], #v[1, -1, 1], #v[-1, 2, 2]] :
      Grid 3 3 ℚ)).toOption.map (fun f => (f.perm, f.solve #v[8, -11, -3]))
        = some (#v[1, 2, 0], #v[2, 3, -1]) := by
    decide +kernel
  cases hfactor : factor (.exact (1 / 100))
      (.ofColumns #v[#v[2, -3, -2], #v[1, -1, 1], #v[-1, 2, 2]] : Grid 3 3 ℚ) with
  | error s =>
    rw [hfactor] at hok
    exact nomatch hok
  | ok f =>
    rw [hfactor] at hok
    obtain ⟨hperm, hsolve⟩ := Prod.mk.inj (Option.some.inj hok)
    exact ⟨hepsilon, f, rfl, hperm, hsolve, (factor_exact _ hepsilon).1 f hfactor⟩

end CertifiedZeros.LU
