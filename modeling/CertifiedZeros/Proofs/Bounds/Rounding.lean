import CertifiedZeros.Proofs.Bounds.Enclosure
import CertifiedZeros.Proofs.Interval.Orderly

/-! # Float bounds lie within the rigorous ones

The bounds over floats round every operation to nearest, the rigorous ones round every operation
outwards. As long as nothing overflows, the first stay within the second.

A **`Tracked`** float remembers whether every operation on the way to it had a finite result; the
program run over this kind of number tells whether the bounds are free of overflow and NaN.

* **`Interval.rounded_add_mem`**, **`Interval.rounded_mem`** — a rounded result lies in the interval
  result. No rounding error that is lost can undo this, because no endpoint ever moves inwards.
* **`Tracked.respectsRing_within`** — the invariant of the whole computation.
* **`VectorField.bounds_within`** — the three bounds. -/

namespace CertifiedZeros

open Binary64 CertifiedZeros.Interval

/-! ## Rounded results in interval results -/

namespace Interval

variable {X Y : Interval} {a b v : Float} {r : ℝ}

/-- **Rounding does not leave an interval** whose ends are floats. -/
theorem rounded_mem (hfin : v.isFinite = true) (hv : value v = clamp (rounded r)) (hr : r ∈ X) :
    real v ∈ X := by
  obtain ⟨hl, hh, hle, hge⟩ := mem_iff.mp hr
  rw [mem_iff, coe_real hfin, hv]
  exact ⟨hl, hh, value_le_clamp_rounded hl hle, clamp_rounded_le_value hh hge⟩

/-- **The rounded sum of members lies in the sum**, also where an end has lost its rounding error: the
ends lie outside the rounded sums of the ends, and rounded addition is monotone. -/
theorem rounded_add_mem (hfin : (a + b).isFinite = true) (ha : real a ∈ X) (hb : real b ∈ Y) :
    real (a + b) ∈ X + Y := by
  obtain ⟨hafin, hbfin⟩ := isFinite_of_add hfin
  obtain ⟨hXl, hXh, hal, hah⟩ := mem_iff.mp ha
  obtain ⟨hYl, hYh, hbl, hbh⟩ := mem_iff.mp hb
  have hlo : IsNumber (X.lo + Y.lo) :=
    isNumber_add hXl hYl (fun h => ne_top_of_le_coe hal h.1) fun h => ne_top_of_le_coe hbl h.2
  have hhi : IsNumber (X.hi + Y.hi) :=
    isNumber_add hXh hYh (fun h => ne_bot_of_coe_le hbh h.2) fun h => ne_bot_of_coe_le hah h.1
  rw [coe_real hafin] at hal hah
  rw [coe_real hbfin] at hbl hbh
  have hnum := isNumber_of_isFinite hfin
  obtain ⟨hl, -, hbelow, -⟩ := ofSum_brackets_add hlo
  obtain ⟨-, hh, -, habove⟩ := ofSum_brackets_add hhi
  rw [mem_iff, add_lo, add_hi, coe_real hfin]
  exact ⟨hl, hh, hbelow.trans (value_add_le hlo hnum hal hbl),
    (value_add_le hnum hhi hah hbh).trans habove⟩

/-- **The rounded difference of members lies in the difference.** -/
theorem rounded_sub_mem (hfin : (a - b).isFinite = true) (ha : real a ∈ X) (hb : real b ∈ Y) :
    real (a - b) ∈ X - Y := by
  rw [sub_eq_add_opposite] at hfin ⊢
  have hbfin := isFinite_of_neg (isFinite_of_add hfin).2
  rw [sub_eq_add]
  exact rounded_add_mem hfin ha ((neg_finite hbfin).2 ▸ neg_mem hb)

end Interval

/-! ## Tracked computations -/

/-- **A float and the record of its computation**: whether every operation on the way had a finite
result. -/
structure Tracked where
  value : Float
  finite : Bool

namespace Tracked

/-- A number that nothing was computed for. It may be infinite or a NaN. -/
def given (a : Float) : Tracked := ⟨a, true⟩

/-- **The result of an operation** whose operands have the given record. -/
def result (v : Float) (operands : Bool) : Tracked := ⟨v, operands && v.isFinite⟩

instance : Zero Tracked := ⟨given 0⟩

instance : One Tracked := ⟨given 1⟩

instance : NatCast Tracked := ⟨fun n => result n true⟩

instance : Add Tracked := ⟨fun s t => result (s.value + t.value) (s.finite && t.finite)⟩

instance : Sub Tracked := ⟨fun s t => result (s.value - t.value) (s.finite && t.finite)⟩

instance : Neg Tracked := ⟨fun s => result (-s.value) s.finite⟩

instance : Mul Tracked := ⟨fun s t => result (s.value * t.value) (s.finite && t.finite)⟩

instance : Div Tracked := ⟨fun s t => result (s.value / t.value) (s.finite && t.finite)⟩

instance : Pow Tracked Nat := ⟨fun s n => result (s.value ^ n) s.finite⟩

instance : Magnitude Tracked where
  abs s := result s.value.abs s.finite
  larger s t := result (Binary64.larger s.value t.value) (s.finite && t.finite)

variable {s t : Tracked} {v : Float} {operands : Bool} {X Y : Interval}

theorem result_finite :
    (result v operands).finite = true ↔ operands = true ∧ v.isFinite = true :=
  Bool.and_eq_true_iff

/-! ### Values -/

theorem respectsRing_value : RespectsRing fun (s : Tracked) (a : Float) => s.value = a where
  zero := rfl
  one := rfl
  two := rfl
  add := by rintro s _ t _ rfl rfl; rfl
  sub := by rintro s _ t _ rfl rfl; rfl
  neg := by rintro s _ rfl; rfl
  mul := by rintro s _ t _ rfl rfl; rfl

theorem respectsNorm_value : RespectsNorm (fun (s : Tracked) (a : Float) => s.value = a)
    fun (s : Tracked) (a : Float) => s.value = a where
  zero := rfl
  add := by rintro s _ t _ rfl rfl; rfl
  abs := by rintro s _ rfl; rfl
  magnitude := id
  larger := by rintro s _ t _ rfl rfl; rfl

/-! ### Finite operands -/

/-- **Nothing went wrong**: neither on the way nor with the number itself. -/
def Fine (s : Tracked) : Prop := s.finite = true ∧ s.value.isFinite = true

theorem fine_of_mul (h : (s * t).finite = true) : s.Fine ∧ t.Fine := by
  obtain ⟨hflags, hfin⟩ := result_finite.mp h
  obtain ⟨hs, ht⟩ := (Bool.and_eq_true _ _).mp hflags
  obtain ⟨hsfin, htfin⟩ := isFinite_of_mul hfin
  exact ⟨⟨hs, hsfin⟩, ht, htfin⟩

theorem fine_of_add (h : (s + t).finite = true) : s.Fine ∧ t.Fine := by
  obtain ⟨hflags, hfin⟩ := result_finite.mp h
  obtain ⟨hs, ht⟩ := (Bool.and_eq_true _ _).mp hflags
  obtain ⟨hsfin, htfin⟩ := isFinite_of_add hfin
  exact ⟨⟨hs, hsfin⟩, ht, htfin⟩

theorem fine_of_sub (h : (s - t).finite = true) : s.Fine ∧ t.Fine := by
  obtain ⟨hflags, hfin⟩ := result_finite.mp h
  obtain ⟨hs, ht⟩ := (Bool.and_eq_true _ _).mp hflags
  obtain ⟨hsfin, htfin⟩ := isFinite_of_sub hfin
  exact ⟨⟨hs, hsfin⟩, ht, htfin⟩

theorem fine_of_neg (h : (-s).finite = true) : s.Fine := by
  obtain ⟨hs, hfin⟩ := result_finite.mp h
  exact ⟨hs, isFinite_of_neg hfin⟩

theorem finite_of_leftSum {n : ℕ} {f : Fin n → Tracked} (h : (leftSum f).finite = true) (i : Fin n) :
    (f i).finite = true := by
  by_contra hi
  exact leftSum_of_exists (P := fun s : Tracked => ¬s.finite = true) (Q := fun _ => True) trivial
    (fun _ _ => trivial) (fun hs _ hsum => hs (fine_of_add hsum).1.1)
    (fun _ ht hsum => ht (fine_of_add hsum).2.1) (fun _ => trivial) ⟨i, hi⟩ h

theorem finite_of_leftMax {n : ℕ} {f : Fin n → Tracked} (h : (leftMax f).finite = true) (i : Fin n) :
    (f i).finite = true := by
  have hflags : ∀ {s t : Tracked}, (Magnitude.larger s t).finite = true →
      s.finite = true ∧ t.finite = true := fun h =>
    (Bool.and_eq_true _ _).mp (result_finite.mp h).1
  by_contra hi
  exact leftMax_of_exists (P := fun s : Tracked => ¬s.finite = true) (fun hs hmax => hs (hflags hmax).1)
    (fun ht hmax => ht (hflags hmax).2) ⟨i, hi⟩ h

/-- A norm is computed from every coordinate. -/
theorem finite_of_ofVector {norm : PhaseNorm Tracked} {n : ℕ} {x : Vector Tracked n}
    (h : (norm.ofVector x).finite = true) (i : Fin n) : (x.get i).finite = true := by
  have habs : ∀ {s : Tracked}, (Magnitude.abs s).finite = true → s.finite = true := fun h =>
    (result_finite.mp h).1
  cases norm with
  | max => exact habs (finite_of_leftMax h i)
  | sum | entrywise => exact habs (finite_of_leftSum h i)
  | cosine ratio => exact habs (fine_of_mul (finite_of_leftSum h i)).2.1

/-! ### The invariant -/

/-- **A float without overflow lies within the interval** of the same computation. -/
def Within (s : Tracked) (X : Interval) : Prop :=
  s.finite = true → s.value.isFinite = true ∧ real s.value ∈ X

theorem within_given {a : Float} (ha : a.isFinite = true) : Within (given a) (point a) :=
  fun _ => ⟨ha, mem_point ha⟩

theorem within_result (h : operands = true → v.isFinite = true → real v ∈ X) :
    Within (result v operands) X := fun hresult => by
  obtain ⟨hoperands, hfin⟩ := result_finite.mp hresult
  exact ⟨hfin, h hoperands hfin⟩

theorem within_natCast (n : ℕ) : Within (n : Tracked) (n : Interval) :=
  within_result fun _ hfin => mem_point hfin

/-- An operation on two operands is within when it is on finite operands that are. -/
theorem within_result₂ (hs : Within s X) (ht : Within t Y) {Z : Interval}
    (h : s.value.isFinite = true → t.value.isFinite = true → real s.value ∈ X → real t.value ∈ Y →
      v.isFinite = true → real v ∈ Z) : Within (result v (s.finite && t.finite)) Z :=
  within_result fun hflags hfin => by
    obtain ⟨hsflag, htflag⟩ := (Bool.and_eq_true _ _).mp hflags
    obtain ⟨hsfin, hsmem⟩ := hs hsflag
    obtain ⟨htfin, htmem⟩ := ht htflag
    exact h hsfin htfin hsmem htmem hfin

theorem Within.add (hs : Within s X) (ht : Within t Y) : Within (s + t) (X + Y) :=
  within_result₂ hs ht fun _ _ hsmem htmem hfin => rounded_add_mem hfin hsmem htmem

theorem Within.mul (hs : Within s X) (ht : Within t Y) : Within (s * t) (X * Y) :=
  within_result₂ hs ht fun hsfin htfin hsmem htmem hfin =>
    rounded_mem hfin (mul_spec hsfin htfin).2 (mul_mem hsmem htmem)

theorem Within.larger (hs : Within s X) (ht : Within t Y) :
    Within (Magnitude.larger s t) (Magnitude.larger X Y) :=
  within_result₂ hs ht fun hsfin htfin hsmem htmem hfin => by
    have hmax := (larger_spec (isNumber_of_isFinite hsfin) (isNumber_of_isFinite htfin)).2
    rw [← coe_real hsfin, ← coe_real htfin, ← EReal.coe_strictMono.monotone.map_max] at hmax
    rw [real_eq_of_value hmax]
    exact larger_mem hsmem htmem

/-- **Every operation keeps the invariant.** -/
theorem respectsRing_within : RespectsRing Within where
  zero := within_given (by decide)
  one := within_given (by decide)
  two := within_natCast 2
  add := Within.add
  sub hs ht := within_result₂ hs ht fun _ _ hsmem htmem hfin => rounded_sub_mem hfin hsmem htmem
  neg hs := within_result fun hflag _ => by
    obtain ⟨hsfin, hsmem⟩ := hs hflag
    rw [(neg_finite hsfin).2]
    exact neg_mem hsmem
  mul := Within.mul

theorem respectsNorm_within : RespectsNorm Within Within where
  zero := respectsRing_within.zero
  add := Within.add
  abs hs := within_result fun hflag _ => by
    obtain ⟨hsfin, hsmem⟩ := hs hflag
    rw [(abs_finite hsfin).2]
    exact abs_mem hsmem
  magnitude := id
  larger := Within.larger

end Tracked

/-! ## Norms whose weights are exact -/

namespace PhaseNorm

open Tracked

/-- **The norms without rounded weights**: a cosine series has the ratio one. -/
def RatioOne : PhaseNorm Float → Prop
  | .cosine ratio => ratio = 1
  | _ => True

/-- Over tracked floats and over floats. -/
theorem related_tracked_value (norm : PhaseNorm Float) :
    Related (fun (s : Tracked) (a : Float) => s.value = a)
      (fun (s : Tracked) (a : Float) => s.value = a) (norm.map given) norm := by
  have hweight : ∀ (ratio : Float) (k : ℕ),
      (cosineWeight (given ratio) k).value = cosineWeight ratio k := by
    intro ratio k
    unfold cosineWeight
    split_ifs <;> rfl
  cases norm with
  | max => exact .max
  | sum => exact .sum
  | entrywise => exact .entrywise
  | cosine ratio =>
    refine .cosine (fun k s a hs => ?_) fun k s a hs => ?_
    · rw [← hs, ← hweight]
      rfl
    · rw [← hs, ← hweight]
      rfl

theorem powerFrom_one (n : ℕ) : powerFrom 1 1 n = 1 := by
  have hproduct : (1 : Float) * 1 = 1 := by decide +kernel
  induction n using Nat.strong_induction_on with
  | _ n ih =>
    rw [powerFrom]
    split_ifs with hzero hodd
    · rfl
    · rw [hproduct]
      exact ih (n / 2) (by omega)
    · rw [hproduct]
      exact ih (n / 2) (by omega)

/-- **The weights of ratio one** are floats, `1` and `2`. -/
theorem cosineWeight_one_spec (k : ℕ) :
    (cosineWeight (1 : Float) k).isFinite = true ∧
      real (cosineWeight (1 : Float) k) = cosineWeight (real 1) k := by
  unfold cosineWeight
  split_ifs
  · exact ⟨by decide, real_one⟩
  · have hpower : (1 : Float) ^ k = 1 := powerFrom_one k
    have htwo : ((2 : ℕ) : Float) * 1 = (2 : ℕ) := by decide +kernel
    obtain ⟨hfin, hreal⟩ := natCast_spec (n := 2) (by norm_num)
    rw [hpower, htwo, real_one, one_pow, mul_one]
    exact ⟨hfin, hreal⟩

/-- Over tracked floats and over intervals. -/
theorem related_within {norm : PhaseNorm Float} (h : norm.RatioOne) :
    Related Within Within (norm.map given) (norm.map point) := by
  cases norm with
  | max => exact .max
  | sum => exact .sum
  | entrywise => exact .entrywise
  | cosine ratio =>
    subst h
    have hvalue : ∀ k, (cosineWeight (given 1) k).value = cosineWeight 1 k := fun k => by
      unfold cosineWeight
      split_ifs <;> rfl
    have hweight : ∀ k, IsWeight (cosineWeight (point 1) k) (real (cosineWeight (given 1) k).value) :=
      fun k => by
        rw [hvalue, (cosineWeight_one_spec k).2]
        exact cosineWeight_isWeight ⟨by decide, by decide⟩ k
    have hwithin : ∀ k, Within (cosineWeight (given 1) k) (cosineWeight (point 1) k) := fun k _ =>
      ⟨by rw [hvalue]; exact (cosineWeight_one_spec k).1, (hweight k).1⟩
    refine .cosine (fun k _ _ hs => (hwithin k).mul hs) fun k _ _ hs => ?_
    refine within_result₂ hs (hwithin k) fun hsfin hwfin hsmem _ hfin => ?_
    have hpos : real (cosineWeight (given 1) k).value ≠ 0 :=
      (zero_lt_one.trans_le (hweight k).one_le).ne'
    exact rounded_mem hfin (div_spec hsfin hwfin hpos).2 (div_weight_mem hsmem (hweight k))

end PhaseNorm

/-! ## The bounds -/

namespace VectorField

open Tracked

/-- **The bounds with a record of their computation.** -/
def track (field : VectorField Float) (x : DenseVector Float) (a : DenseMatrix Float) :
    Except RunError (Bounds Tracked) :=
  (field.map given).bounds (x.map given) (a.map given)

/-- **Every operation of the bounds has a finite result.** -/
def staysFinite (field : VectorField Float) (x : DenseVector Float) (a : DenseMatrix Float) : Bool :=
  match field.track x a with
  | .ok t => t.y0.finite && t.z0.finite && t.z2.finite
  | .error _ => false

variable {field : VectorField Float} {x : DenseVector Float} {a : DenseMatrix Float}

theorem dim_map {α β : Type} (f : α → β) (field : VectorField α) : (field.map f).dim = field.dim := by
  cases field <;> rfl

theorem related_tracked_value (field : VectorField Float) :
    Related (fun (s : Tracked) (a : Float) => s.value = a)
      (fun (s : Tracked) (a : Float) => s.value = a) (field.map given) field := by
  cases field with
  | lorenz p => exact .lorenz rfl rfl rfl
  | fisher p => exact .fisher (fun _ _ => rfl) rfl (PhaseNorm.related_tracked_value p.norm)

/-- **A value without overflow has finite arguments**: every parameter and every coordinate enters an
operation that would not have had a finite result. -/
theorem lorenz_related_within {p : Lorenz Float} {v : Vector Tracked 3}
    (h : ∀ i, (((p.map given).value v).get i).finite = true) :
    Related Within Within (.lorenz (p.map given)) (.lorenz (p.map point)) ∧ ∀ i, (v.get i).Fine := by
  obtain ⟨hsigma, hdiff⟩ := fine_of_mul (h 0)
  obtain ⟨hy, hx⟩ := fine_of_sub hdiff.1
  obtain ⟨hleft, hxz⟩ := fine_of_sub (h 1)
  obtain ⟨hrho, -⟩ := fine_of_mul (fine_of_sub hleft.1).1.1
  obtain ⟨-, hz⟩ := fine_of_mul hxz.1
  obtain ⟨hnegbeta, -⟩ := fine_of_mul (fine_of_add (h 2)).1.1
  have hbeta := fine_of_neg hnegbeta.1
  refine ⟨.lorenz (within_given hsigma.2) (within_given hrho.2) (within_given hbeta.2), fun i => ?_⟩
  match i with
  | 0 => exact hx
  | 1 => exact hy
  | 2 => exact hz

theorem fisher_related_within {p : Fisher Float} (hnorm : p.norm.RatioOne)
    {v : Vector Tracked (p.order + 1)} (h : ∀ k, (((p.map given).value v).get k).finite = true) :
    Related Within Within (.fisher (p.map given)) (.fisher (p.map point)) ∧ ∀ k, (v.get k).Fine := by
  have hterm : ∀ k : Fin (p.order + 1), ((p.map given).linear k * v.get k).finite = true := fun k => by
    have hvalue : ((p.map given).value v).get k = (p.map given).linear k * v.get k
        - given p.coefficient * (Fisher.convolution v).get k := get_ofFn ..
    have hk := h k
    rw [hvalue] at hk
    exact (fine_of_sub hk).1.1
  have hlinear := (fine_of_mul (hterm 0)).1
  have hcoefficient := (fine_of_sub hlinear.1).1
  exact ⟨.fisher (fun k _ => within_natCast (k * k)) (within_given hcoefficient.2)
    (PhaseNorm.related_within hnorm), fun k => (fine_of_mul (hterm k)).2⟩

theorem related_within (hnorm : field.norm.RatioOne) {v : Vector Tracked (field.map given).dim}
    (h : ∀ i, (((field.map given).value v).get i).finite = true) :
    Related Within Within (field.map given) field.lift ∧ ∀ i, (v.get i).Fine := by
  cases field with
  | lorenz p => exact lorenz_related_within h
  | fisher p => exact fisher_related_within hnorm h

/-- **The float bounds lie within the rigorous ones**, in every norm without rounded weights, when no
operation on the way to them leaves the finite floats. -/
theorem bounds_within (hnorm : field.norm.RatioOne) (hx : x.size = field.dim)
    (hr : a.rows = field.dim) (hc : a.cols = field.dim) (h : field.staysFinite x a = true) :
    ∃ b enclosed, field.bounds x a = .ok b ∧ field.lift.boundsAtFloats x a = .ok enclosed ∧
      enclosed.y0.contains b.y0 = true ∧ enclosed.z0.contains b.z0 = true ∧
      enclosed.z2.contains b.z2 = true := by
  have hdim := dim_map given field
  have hdim' : field.lift.dim = field.dim := dim_map point field
  let v : Vector Tracked (field.map given).dim := Vector.map given ⟨x, hx.trans hdim.symm⟩
  let g : Grid (field.map given).dim (field.map given).dim Tracked :=
    (a.grid.cast (hr.trans hdim.symm) (hc.trans hdim.symm)).map given
  have htrack : field.track x a = .ok ((field.map given).boundsAt v g) :=
    bounds_map given (hx.trans hdim.symm) (hr.trans hdim.symm) (hc.trans hdim.symm)
  rw [staysFinite, htrack] at h
  obtain ⟨hyz, hz2⟩ := (Bool.and_eq_true _ _).mp h
  obtain ⟨hy0, hz0⟩ := (Bool.and_eq_true _ _).mp hyz
  -- what enters the value of the field and the product with it is finite
  have hterm : ∀ i j, (g.get i j * ((field.map given).value v).get j).finite = true := fun i j => by
    have hentry := finite_of_ofVector hy0 i
    rw [Grid.get_apply] at hentry
    exact finite_of_leftSum hentry j
  have hvalue : ∀ j, (((field.map given).value v).get j).finite = true := fun j =>
    (fine_of_mul (hterm j j)).2.1
  obtain ⟨hfield, hpoint⟩ := related_within hnorm hvalue
  have hmatrix : ∀ i j, (g.get i j).Fine := fun i j => (fine_of_mul (hterm i j)).1
  have hfits : field.lift.boundsAtFloats x a = .ok (field.lift.boundsAt
      (Vector.map point ⟨x, hx.trans hdim'.symm⟩)
      ((a.grid.cast (hr.trans hdim'.symm) (hc.trans hdim'.symm)).map point)) :=
    bounds_map point (hx.trans hdim'.symm) (hr.trans hdim'.symm) (hc.trans hdim'.symm)
  refine ⟨_, _, bounds_of_fits hx hr hc, hfits, ?_⟩
  obtain ⟨hy0', hz0', hz2'⟩ := boundsAt_related respectsRing_value respectsNorm_value
    (related_tracked_value field) (x := v) (y := ⟨x, hx⟩) (a := g) (b := a.grid.cast hr hc)
    (fun i => by rw [get_map]; rfl) (fun i j => by rw [Grid.get_map, Grid.get_cast, Grid.get_cast]; rfl)
  obtain ⟨hwithin₀, hwithin₁, hwithin₂⟩ := boundsAt_related respectsRing_within respectsNorm_within
    hfield (x := v) (y := Vector.map point ⟨x, hx.trans hdim'.symm⟩) (a := g)
    (b := (a.grid.cast (hr.trans hdim'.symm) (hc.trans hdim'.symm)).map point)
    (fun i => by
      have hfin := (hpoint i).2
      rw [get_map] at hfin ⊢
      rw [get_map]
      exact within_given hfin)
    (fun i j => by
      have hfin := (hmatrix i j).2
      rw [Grid.get_map, Grid.get_cast] at hfin ⊢
      rw [Grid.get_map, Grid.get_cast]
      exact within_given hfin)
  have hcontains : ∀ {s : Tracked} {X : Interval} {c : Float}, s.finite = true → s.value = c →
      Within s X → X.contains c = true := by
    rintro s X _ hs rfl hwithin
    exact contains_of_mem (hwithin hs).1 (hwithin hs).2
  exact ⟨hcontains hy0 hy0' hwithin₀, hcontains hz0 hz0' hwithin₁, hcontains hz2 hz2' hwithin₂⟩

/-- The bounds of a Fisher field with two modes stay finite, and within the rigorous ones. -/
theorem bounds_within_fisher :
    let field := VectorField.fisher (.withCosineNorm 1 1)
    let x : DenseVector Float := #[0.5, 0.25]
    let a : DenseMatrix Float := .ofGrid (.identity 2)
    field.norm.RatioOne ∧ x.size = field.dim ∧ a.rows = field.dim ∧ a.cols = field.dim ∧
      field.staysFinite x a = true ∧
      ∃ b enclosed, field.bounds x a = .ok b ∧ field.lift.boundsAtFloats x a = .ok enclosed ∧
        enclosed.y0.contains b.y0 = true ∧ enclosed.z0.contains b.z0 = true ∧
        enclosed.z2.contains b.z2 = true := by
  have hfinite : (VectorField.fisher (.withCosineNorm 1 1)).staysFinite #[0.5, 0.25]
      (.ofGrid (.identity 2)) = true := by decide +kernel
  exact ⟨rfl, rfl, rfl, rfl, hfinite, bounds_within rfl rfl rfl rfl hfinite⟩

end VectorField

end CertifiedZeros
