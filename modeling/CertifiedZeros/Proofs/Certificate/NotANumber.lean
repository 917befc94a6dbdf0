import CertifiedZeros.Proofs.Bounds.Relation
import CertifiedZeros.Proofs.Certificate.Exits
import CertifiedZeros.Proofs.VectorField.NotANumber

/-! # NaN and certificates

A NaN among the parameters of a field, the coordinates of the point or the entries of the matrix does
not always reach the bounds. A maximum drops it, and so does a product with an interval that has a
zero end, so the norms that are maxima certify in spite of it.

* **`RevealsNaN`** — where a NaN is found: anywhere, when the entries of a matrix are summed, and in
  the point alone, when the columns are.
* **`certify_of_nan`** — nothing is certified then.
* **`certify_misses_nan`** — a certificate of the Lorenz system with a NaN parameter. -/

namespace CertifiedZeros

open Binary64 CertifiedZeros.Interval

/-! ## The defect of an approximate inverse -/

namespace Grid

variable {n : ℕ} {a d : Grid n n Interval}

/-- **The defect** `1 - A D` of an approximate inverse. -/
def defect (a d : Grid n n Interval) : Grid n n Interval := (identity n).sub (a.mul d)

theorem get_defect (a d : Grid n n Interval) (i j : Fin n) :
    (a.defect d).get i j = (if i = j then 1 else 0) - leftSum fun l => a.get i l * d.get l j := by
  simp [defect]

/-- An entry whose terms hold zero holds the entry of the identity. -/
theorem delta_mem_defect {i j : Fin n} (h : ∀ l, (0 : ℝ) ∈ a.get i l * d.get l j) :
    (if i = j then 1 else 0 : ℝ) ∈ (a.defect d).get i j := by
  rw [get_defect]
  refine mem_sub_of_zero_mem ?_ (zero_mem_leftSum h)
  split_ifs
  · exact one_mem
  · exact zero_brackets

theorem defect_isNaN {i j : Fin n} (h : ∃ l, (a.get i l * d.get l j).IsNaN) :
    ((a.defect d).get i j).IsNaN := by
  rw [get_defect]
  exact IsNaN.sub (.inr (isNaN_leftSum h))

theorem defect_orderly (i j : Fin n) : ((a.defect d).get i j).Orderly := by
  rw [get_defect]
  refine Orderly.sub ?_ (orderly_leftSum fun l => orderly_mul _ _)
  split_ifs
  · exact orderly_point 1
  · exact orderly_point 0

end Grid

/-! ## Norms -/

namespace PhaseNorm

variable {n : ℕ} {m : Grid n n Interval}

/-- **The sum of all entries** is not below one when one of them is not. -/
theorem ofGrid_entrywise_notBelow (hord : ∀ i j, (m.get i j).Orderly)
    (h : ∃ i j, NotBelow 1 (m.get i j).abs) :
    NotBelow 1 ((entrywise : PhaseNorm Interval).ofGrid m) := by
  have hget : ∀ p, m.data.get p = m.get (Grid.rowOf p) (Grid.columnOf p) := fun p => by
    rw [Grid.get, Grid.place_rowOf_columnOf]
  obtain ⟨i, j, hij⟩ := h
  refine notBelow_leftSum (fun p => ?_) ⟨Grid.place i j, hij⟩
  rw [hget]
  exact (hord _ _).abs_notBelow

/-- **The largest column sum** is not below one when a column holds a column of the identity. -/
theorem ofGrid_sum_notBelow {j : Fin n} (h : ∀ i, (if i = j then 1 else 0 : ℝ) ∈ m.get i j) :
    NotBelow 1 ((sum : PhaseNorm Interval).ofGrid m) := by
  have hcolumn : IsMagnitude (leftSum fun i => (m.get i j).abs) 1 := by
    have hsum := leftSum_related (R := IsMagnitude) zero_isMagnitude IsMagnitude.add
      fun i => abs_isMagnitude (h i)
    have hone : leftSum (fun i : Fin n => |(if i = j then 1 else 0 : ℝ)|) = 1 := by
      rw [leftSum_eq_sum, Finset.sum_eq_single_of_mem j (Finset.mem_univ j)]
      · rw [if_pos rfl, abs_one]
      · intro i _ hij
        rw [if_neg hij, abs_zero]
    rwa [hone] at hsum
  suffices hmax : IsNumber ((sum : PhaseNorm Interval).ofGrid m).hi ∧
      1 ≤ value ((sum : PhaseNorm Interval).ofGrid m).hi from fun _ => hmax.2
  refine leftMax_of_exists (P := fun X : Interval => IsNumber X.hi ∧ 1 ≤ value X.hi)
    (fun hX => ?_) (fun hY => ?_) ⟨j, hcolumn.1.2.1, hcolumn.1.2.2.2⟩
  · exact ⟨(le_larger.1 hX.1).1, hX.2.trans (le_larger.1 hX.1).2⟩
  · exact ⟨(le_larger.2 hY.1).1, hY.2.trans (le_larger.2 hY.1).2⟩

/-- A sum of absolute values with a NaN among them has no upper end. -/
theorem leftSum_abs_hi {k : ℕ} {f : Fin k → Interval} (h : ∃ i, (f i).IsNaN) :
    ¬IsNumber (leftSum fun i => (f i).abs).hi := by
  refine leftSum_of_exists (P := fun X : Interval => ¬IsNumber X.hi) (Q := fun _ => True) trivial
    (fun _ _ => trivial) ?_ ?_ (fun _ => trivial) (h.imp fun i hi => hi.abs_hi)
  · intro X Y hX _
    rw [add_hi]
    exact (ofSum_isNaN (.inl hX)).2
  · intro X Y _ hY
    rw [add_hi]
    exact (ofSum_isNaN (.inr hY)).2

end PhaseNorm

/-! ## The bounds of a Fisher field -/

namespace Fisher

variable {p : Fisher Interval} {x : Vector Float (p.order + 1)}
  {a : Grid (p.order + 1) (p.order + 1) Float}

/-- **The bound of the defect is not below one** when a column of the identity stays in it. -/
theorem z0_notBelow_of_column (hnorm : p.norm = .sum ∨ p.norm = .entrywise) {q : Fin (p.order + 1)}
    (hcol : ∀ i l, (0 : ℝ) ∈ point (a.get i l) * (p.derivative (x.map point)).get l q) :
    NotBelow 1 (p.norm.ofGrid ((a.map point).defect (p.derivative (x.map point)))) := by
  have hmem : ∀ i, (if i = q then 1 else 0 : ℝ)
      ∈ ((a.map point).defect (p.derivative (x.map point))).get i q := fun i =>
    Grid.delta_mem_defect fun l => by
      rw [Grid.get_map]
      exact hcol i l
  rcases hnorm with hnorm | hnorm <;> rw [hnorm]
  · exact PhaseNorm.ofGrid_sum_notBelow hmem
  · refine PhaseNorm.ofGrid_entrywise_notBelow Grid.defect_orderly ⟨q, q, ?_⟩
    have hone := hmem q
    rw [if_pos rfl] at hone
    exact notBelow_of_mem (abs_mem hone) (le_abs_self 1)

/-- A NaN in the defect shows in the sum of its entries. -/
theorem z0_notBelow_of_isNaN (hnorm : p.norm = .entrywise)
    (h : ∃ i l j, (point (a.get i l) * (p.derivative (x.map point)).get l j).IsNaN) :
    NotBelow 1 (p.norm.ofGrid ((a.map point).defect (p.derivative (x.map point)))) := by
  obtain ⟨i, l, j, hnan⟩ := h
  rw [hnorm]
  refine PhaseNorm.ofGrid_entrywise_notBelow Grid.defect_orderly ⟨i, j, fun hnum => ?_⟩
  refine absurd hnum (IsNaN.abs_hi (Grid.defect_isNaN ⟨l, ?_⟩))
  rwa [Grid.get_map]

/-- **A NaN coefficient**: it fills the diagonal of the derivative. -/
theorem z0_notBelow_of_coefficient (hnorm : p.norm = .entrywise) (hp : p.coefficient.IsNaN) :
    NotBelow 1 (p.norm.ofGrid ((a.map point).defect (p.derivative (x.map point)))) := by
  by_cases hzero : ∀ i l, (a.get i l == 0) = true
  · exact z0_notBelow_of_column (q := 0) (.inr hnorm) fun i l =>
      zero_mem_mul_of_zeroEnd (.inl (hasZeroEnd_point (hzero i l)))
  · push Not at hzero
    obtain ⟨i, l, hne⟩ := hzero
    exact z0_notBelow_of_isNaN hnorm ⟨i, l, l, isNaN_mul (.inr
      ⟨fun h0 => hne (beq_zero_of_point h0), derivative_diagonal_isNaN hp l⟩)⟩

/-- **A NaN entry of the matrix**: it meets an entry of the derivative without a zero end, or a row of
zero ends, and with it a column that holds zero. -/
theorem z0_notBelow_of_matrix (hnorm : p.norm = .entrywise) (hp : p.coefficient.Orderly)
    {i q : Fin (p.order + 1)} (ha : ¬IsNumber (a.get i q)) :
    NotBelow 1 (p.norm.ofGrid ((a.map point).defect (p.derivative (x.map point)))) := by
  by_cases hrow : ∀ l, ((p.derivative (x.map point)).get q l).HasZeroEnd
  · have hterm := fun i l =>
      zero_mem_or_isNaN_mul (a := a.get i l) (zero_mem_column_of_row hp hrow l)
    by_cases hnan : ∃ i l, (point (a.get i l) * (p.derivative (x.map point)).get l q).IsNaN
    · obtain ⟨i, l, h⟩ := hnan
      exact z0_notBelow_of_isNaN hnorm ⟨i, l, q, h⟩
    · push Not at hnan
      exact z0_notBelow_of_column (.inr hnorm) fun i l => (hterm i l).resolve_right (hnan i l)
  · push Not at hrow
    obtain ⟨l, hl⟩ := hrow
    exact z0_notBelow_of_isNaN hnorm ⟨i, q, l, isNaN_mul (.inl ⟨isNaN_point ha, hl⟩)⟩

/-- **A NaN coordinate of the point**: it leaves no upper end of the residual, or the columns of the
matrix that could balance the derivative are zero. -/
theorem bounds_of_point_nan (hnorm : p.norm = .sum ∨ p.norm = .entrywise)
    (hp : p.coefficient.Orderly) {j : Fin (p.order + 1)} (hj : ¬IsNumber (x.get j))
    (ha : ∀ i l, IsNumber (a.get i l)) :
    ¬IsNumber (p.norm.ofVector ((a.map point).apply (p.value (x.map point)))).hi ∨
      NotBelow 1 (p.norm.ofGrid ((a.map point).defect (p.derivative (x.map point)))) := by
  by_cases hshown : ∃ i l, ¬(a.get i l == 0) = true ∧ ((p.value (x.map point)).get l).IsNaN
  · obtain ⟨i, l, hne, hnan⟩ := hshown
    have hcomponent : (((a.map point).apply (p.value (x.map point))).get i).IsNaN := by
      rw [Grid.get_apply]
      refine isNaN_leftSum ⟨l, ?_⟩
      rw [Grid.get_map]
      exact isNaN_mul (.inr ⟨fun h0 => hne (beq_zero_of_point h0), hnan⟩)
    left
    rcases hnorm with hnorm | hnorm <;> rw [hnorm] <;>
      exact PhaseNorm.leftSum_abs_hi ⟨i, hcomponent⟩
  · right
    push Not at hshown
    obtain ⟨q, hq⟩ : ∃ q, ∀ l, ¬((p.value (x.map point)).get l).IsNaN →
        (0 : ℝ) ∈ (p.derivative (x.map point)).get l q := by
      by_cases h0 : p.coefficient.HasZeroEnd
      · exact ⟨0, fun l _ => zero_mem_column_of_zeroEnd hp h0 l⟩
      · exact ⟨j, fun l hl => zero_mem_column_of_nan hp h0 hj hl⟩
    refine z0_notBelow_of_column hnorm (q := q) fun i l => ?_
    by_cases hne : (a.get i l == 0) = true
    · exact zero_mem_mul_of_zeroEnd (.inl (hasZeroEnd_point hne))
    · exact zero_mem_point_mul (ha i l) (hq l (hshown i l hne))

end Fisher

/-! ## The certificate -/

namespace Bounds

variable {b : Bounds Interval}

/-- **A bound of the defect that is not below one** stops the test. -/
theorem certify_of_notBelow (h : NotBelow 1 b.z0) (w : Witness) :
    b.certify w = .ok { verdict := .notCertified .notContracting, bounds := b.upper } := by
  refine (Ends.notContracting fun hlt => ?_).certify_eq
  obtain ⟨hnum, -, hvalue⟩ := lt_iff.mp hlt
  rw [value_one] at hvalue
  exact absurd (h hnum) (not_le.mpr hvalue)

/-- **A residual without an upper end** stops the test at the latest at the roots. -/
theorem certify_of_nan_residual (h : ¬IsNumber b.y0.hi) (w : Witness) :
    ∃ obstacle, b.certify w = .ok { verdict := .notCertified obstacle, bounds := b.upper } := by
  have hroots : ¬0 ≤ b.upper.discriminant := fun hle =>
    not_isNumber_sub (.inr (not_isNumber_mul (.inr h))) (le_iff.mp hle).2.1
  by_cases hlt : b.upper.z0 < 1
  · exact ⟨_, (Ends.negativeDiscriminant hlt hroots).certify_eq⟩
  · exact ⟨_, (Ends.notContracting hlt).certify_eq⟩

end Bounds

/-- **A NaN that the bounds of a Fisher field show.** The entries of a matrix are summed in the
entrywise norm; in the sum norm the largest column sum is taken, which drops a column that is NaN. -/
inductive Fisher.RevealsNaN (p : Fisher Interval) (x : DenseVector Float) (a : DenseMatrix Float) :
    Prop where
  | coefficient (norm : p.norm = .entrywise) (nan : p.coefficient.IsNaN)
  | matrix (norm : p.norm = .entrywise) (nan : ∃ c ∈ a.data, ¬IsNumber c)
  | point (norm : p.norm = .sum ∨ p.norm = .entrywise) (nan : ∃ c ∈ x, ¬IsNumber c)
      (numbers : ∀ c ∈ a.data, IsNumber c)

/-- The entries of a matrix are those of its grid. -/
theorem DenseMatrix.mem_data_iff {α : Type} {a : DenseMatrix α} {c : α} :
    c ∈ a.data ↔ ∃ i j, a.grid.get i j = c := by
  refine ⟨fun h => ?_, ?_⟩
  · obtain ⟨k, hk, hget⟩ := Array.mem_iff_getElem.mp h
    have hlt : k < a.cols * a.rows := by simpa [DenseMatrix.data] using hk
    refine ⟨Grid.rowOf (⟨k, hlt⟩ : Fin (a.cols * a.rows)), Grid.columnOf ⟨k, hlt⟩, ?_⟩
    rw [Grid.get, Grid.place_rowOf_columnOf]
    exact hget
  · rintro ⟨i, j, rfl⟩
    exact Array.mem_iff_getElem.mpr ⟨Grid.place i j, by simp [DenseMatrix.data], rfl⟩

namespace VectorField

/-- **What the bounds show of a NaN**: no upper end of the residual, or a defect that is not below
one. -/
theorem boundsAt_of_nan {p : Fisher Interval} {x : DenseVector Float} {a : DenseMatrix Float}
    (hp : p.coefficient.lo ≤ p.coefficient.hi ∨ p.coefficient.IsNaN) (hx : x.size = p.dim)
    (hr : a.rows = p.dim) (hc : a.cols = p.dim) (h : p.RevealsNaN x a) :
    ¬IsNumber ((VectorField.fisher p).boundsAt (Vector.map Interval.point ⟨x, hx⟩)
        ((a.grid.cast hr hc).map Interval.point)).y0.hi ∨
      NotBelow 1 ((VectorField.fisher p).boundsAt (Vector.map Interval.point ⟨x, hx⟩)
        ((a.grid.cast hr hc).map Interval.point)).z0 := by
  have horderly : p.coefficient.Orderly := hp.elim orderly_of_le IsNaN.orderly
  cases h with
  | coefficient norm nan => exact .inr (Fisher.z0_notBelow_of_coefficient norm nan)
  | matrix norm nan =>
    obtain ⟨c, hmem, hnan⟩ := nan
    obtain ⟨i, q, rfl⟩ := DenseMatrix.mem_data_iff.mp hmem
    refine .inr (Fisher.z0_notBelow_of_matrix norm horderly (i := i.cast hr) (q := q.cast hc) ?_)
    exact fun hnum => hnan (Eq.mp (congrArg IsNumber (Grid.get_cast hr hc a.grid _ _)) hnum)
  | point norm nan numbers =>
    obtain ⟨c, hmem, hnan⟩ := nan
    obtain ⟨j, hj, rfl⟩ := Array.mem_iff_getElem.mp hmem
    refine Fisher.bounds_of_point_nan norm horderly (j := ⟨j, hj.trans_eq hx⟩) hnan fun i l => ?_
    exact Eq.mpr (congrArg IsNumber (Grid.get_cast hr hc a.grid i l))
      (numbers _ (DenseMatrix.mem_data_iff.mpr ⟨_, _, rfl⟩))

/-- **A NaN that the bounds show is never certified**, at any witness. -/
theorem certify_of_nan {p : Fisher Interval} {x : DenseVector Float} {a : DenseMatrix Float}
    (hp : p.coefficient.lo ≤ p.coefficient.hi ∨ p.coefficient.IsNaN) (hx : x.size = p.dim)
    (hr : a.rows = p.dim) (hc : a.cols = p.dim) (h : p.RevealsNaN x a) :
    ∃ b, (VectorField.fisher p).boundsAtFloats x a = .ok b ∧ ∀ w, ∃ obstacle,
      b.certify w = .ok { verdict := .notCertified obstacle, bounds := b.upper } := by
  refine ⟨_, bounds_map Interval.point hx hr hc, fun w => ?_⟩
  rcases boundsAt_of_nan hp hx hr hc h with hresidual | hdefect
  · exact Bounds.certify_of_nan_residual hresidual w
  · exact ⟨_, Bounds.certify_of_notBelow hdefect w⟩

/-- A NaN in the point of a Fisher field of two modes, measured by column sums. -/
theorem certify_of_nan_point :
    ∃ b, (VectorField.fisher ⟨⟨0, 1⟩, 1, .sum⟩).boundsAtFloats #[1, 0 / 0]
        (.ofGrid (.identity 2)) = .ok b ∧ ∀ w, ∃ obstacle,
      b.certify w = .ok { verdict := .notCertified obstacle, bounds := b.upper } := by
  refine certify_of_nan (.inl (by decide)) rfl rfl rfl (.point (.inl rfl) ?_ ?_)
  · exact ⟨0 / 0, by simp, by decide⟩
  · decide

/-- The Lorenz system with a NaN for its last parameter. -/
def nanParameter : Lorenz Interval := ⟨1, 0, point (0 / 0)⟩

/-- The inverse of the derivative at the origin, had the last parameter been one. -/
def originInverse : Grid 3 3 Float := .ofFn fun i j => if i = j ∨ i = 0 ∧ j = 1 then -1 else 0

/-- **A certificate in spite of a NaN**: it enters one row of the defect, and the maximum over the rows
drops it. -/
theorem certify_misses_nan :
    ∃ b report, nanParameter.beta.IsNaN ∧
      (VectorField.lorenz nanParameter).boundsAtFloats #[0, 0, 0] (.ofGrid originInverse) = .ok b ∧
      b.certify .midpoint = .ok report ∧ report.isCertified = true := by
  have hcertified : (((VectorField.lorenz nanParameter).boundsAt
      (Vector.map Interval.point ⟨#[0, 0, 0], rfl⟩) (originInverse.map Interval.point)).certify
        .midpoint).toOption.map Report.isCertified = some true := by
    decide +kernel
  obtain ⟨report, hreport, hcert⟩ := Option.map_eq_some_iff.mp hcertified
  have hok : ∀ {e : Except Fault Report}, e.toOption = some report → e = .ok report := by
    rintro (_ | _) h <;> cases h
    rfl
  exact ⟨_, report, ⟨by decide, by decide⟩, bounds_map Interval.point rfl rfl rfl,
    hok hreport, hcert⟩

end VectorField

end CertifiedZeros
