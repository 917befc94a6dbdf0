import CertifiedZeros.Proofs.Aggregate
import CertifiedZeros.Proofs.Bounds.Relation
import CertifiedZeros.Proofs.Interval.Weights
import CertifiedZeros.Proofs.PhaseNorm

/-! # What the rigorous bounds enclose

The bounds over intervals are to hold the exact bounds: those that the same program computes over
the reals, for any parameters of the field in their intervals.

All operations that take part enclose, sums and differences alone may lose a rounding error. An
**`Audited`** interval remembers whether one was lost on the way; running the program over this kind
of number audits a computation.

* **`boundsAtFloats_enclose`** — `y0` and `z0` are enclosed when their audit finds no loss, and `z2`
  in any case.
* **`boundsAtFloats_misses`** — a loss that leads to a wrong `y0`. -/

namespace CertifiedZeros

open Binary64 CertifiedZeros.Interval

/-! ## Audited computations -/

/-- **An interval and the record of its computation**: whether every sum and difference on the way
kept its rounding error. -/
structure Audited where
  value : Interval
  sound : Bool

namespace Audited

/-- A number that nothing was computed for. -/
def given (X : Interval) : Audited := ⟨X, true⟩

/-- Whether a sum loses a rounding error at one of its ends. -/
def loses (X Y : Interval) : Bool := sumAbove X.lo Y.lo || sumBelow X.hi Y.hi

instance : Zero Audited := ⟨given 0⟩

instance : One Audited := ⟨given 1⟩

instance : NatCast Audited := ⟨fun n => given n⟩

instance : Add Audited :=
  ⟨fun s t => ⟨s.value + t.value, s.sound && t.sound && !loses s.value t.value⟩⟩

instance : Sub Audited :=
  ⟨fun s t => ⟨s.value - t.value, s.sound && t.sound && !loses s.value (-t.value)⟩⟩

instance : Neg Audited := ⟨fun s => ⟨-s.value, s.sound⟩⟩

instance : Mul Audited := ⟨fun s t => ⟨s.value * t.value, s.sound && t.sound⟩⟩

instance : Div Audited := ⟨fun s t => ⟨s.value / t.value, s.sound && t.sound⟩⟩

instance : Pow Audited Nat := ⟨fun s n => ⟨s.value ^ n, s.sound⟩⟩

instance : Magnitude Audited where
  abs s := ⟨s.value.abs, s.sound⟩
  larger s t := ⟨s.value.larger t.value, s.sound && t.sound⟩

/-- **A sound record encloses** the exact result. -/
def Encloses (s : Audited) (r : ℝ) : Prop := s.sound = true → r ∈ s.value

theorem loses_eq_false {X Y : Interval} (h : (!loses X Y) = true) :
    sumAbove X.lo Y.lo = false ∧ sumBelow X.hi Y.hi = false := by
  rw [Bool.not_eq_true', loses, Bool.or_eq_false_iff] at h
  exact h

/-- **The square of a mode index** is exact, up to the limit. -/
theorem square_mem {k : ℕ} (h : k ≤ modeLimit) : ((k * k : ℕ) : ℝ) ∈ ((k * k : ℕ) : Interval) :=
  count_mem ((Nat.mul_le_mul h h).trans_lt (by norm_num [modeLimit]))

theorem respectsRing_encloses : RespectsRing Encloses where
  zero _ := zero_brackets
  one _ := one_mem
  two _ := two_isWeight.1
  add {s r t q} hs ht h := by
    obtain ⟨hflags, hkept⟩ := (Bool.and_eq_true _ _).mp h
    obtain ⟨hs', ht'⟩ := (Bool.and_eq_true _ _).mp hflags
    obtain ⟨hlo, hhi⟩ := loses_eq_false hkept
    exact add_mem hlo hhi (hs hs') (ht ht')
  sub {s r t q} hs ht h := by
    obtain ⟨hflags, hkept⟩ := (Bool.and_eq_true _ _).mp h
    obtain ⟨hs', ht'⟩ := (Bool.and_eq_true _ _).mp hflags
    obtain ⟨hlo, hhi⟩ := loses_eq_false hkept
    exact sub_mem hlo hhi (hs hs') (ht ht')
  neg hs h := neg_mem (hs h)
  mul hs ht h := by
    obtain ⟨hs', ht'⟩ := (Bool.and_eq_true _ _).mp h
    exact mul_mem (hs hs') (ht ht')

theorem respectsNorm_encloses : RespectsNorm Encloses Encloses where
  zero := respectsRing_encloses.zero
  add := respectsRing_encloses.add
  abs hs h := abs_mem (hs h)
  magnitude := id
  larger hs ht h := by
    obtain ⟨hs', ht'⟩ := (Bool.and_eq_true _ _).mp h
    exact larger_mem (hs hs') (ht ht')

/-- **The interval of an audited computation** is that of the computation itself. -/
theorem respectsRing_value : RespectsRing fun (s : Audited) (X : Interval) => s.value = X where
  zero := rfl
  one := rfl
  two := rfl
  add := by rintro s _ t _ rfl rfl; rfl
  sub := by rintro s _ t _ rfl rfl; rfl
  neg := by rintro s _ rfl; rfl
  mul := by rintro s _ t _ rfl rfl; rfl

theorem respectsNorm_value : RespectsNorm (fun (s : Audited) (X : Interval) => s.value = X)
    fun (s : Audited) (X : Interval) => s.value = X where
  zero := rfl
  add := by rintro s _ t _ rfl rfl; rfl
  abs := by rintro s _ rfl; rfl
  magnitude := id
  larger := by rintro s _ t _ rfl rfl; rfl

/-- Weights need no sums. -/
theorem cosineWeight_given (X : Interval) (k : ℕ) :
    PhaseNorm.cosineWeight (given X) k = given (PhaseNorm.cosineWeight X k) := by
  unfold PhaseNorm.cosineWeight
  split_ifs <;> rfl

end Audited

/-! ## Weights -/

namespace PhaseNorm

/-- **The norms of the rigorous bounds**: the ratio of a cosine series is a finite float of at least
one. -/
def RatioAtLeastOne : PhaseNorm Float → Prop
  | .cosine ratio => ratio.isFinite = true ∧ 1 ≤ ratio
  | _ => True

variable {norm : PhaseNorm Float}

theorem cosineWeight_isWeight {ratio : Float} (h : (cosine ratio).RatioAtLeastOne) (k : ℕ) :
    IsWeight (cosineWeight (point ratio) k) (cosineWeight (real ratio) k) := by
  obtain ⟨hfin, hle⟩ := h
  have hratio : IsWeight (point ratio) (real ratio) := by
    refine ⟨mem_point hfin, ?_⟩
    have := (le_iff.mp hle).2.2
    rwa [value_one] at this
  unfold cosineWeight
  split_ifs
  · exact ⟨one_mem, value_one.ge⟩
  · exact two_isWeight.mul (hratio.pow k)

theorem respectsNorm_mem : RespectsNorm (fun (X : Interval) (r : ℝ) => r ∈ X) IsMagnitude where
  zero := zero_isMagnitude
  add := IsMagnitude.add
  abs := abs_isMagnitude
  magnitude := And.left
  larger := larger_mem

/-- Over intervals and over the reals. -/
theorem related_mem (h : norm.RatioAtLeastOne) :
    Related (fun (X : Interval) (r : ℝ) => r ∈ X) IsMagnitude (norm.map point) (norm.map real) := by
  cases norm with
  | max => exact .max
  | sum => exact .sum
  | entrywise => exact .entrywise
  | cosine ratio =>
    exact .cosine (fun k _ _ hs => (cosineWeight_isWeight h k).mul_magnitude hs)
      fun k _ _ hs => div_weight_mem hs.1 (cosineWeight_isWeight h k)

/-- Over audited intervals and over the reals. -/
theorem related_encloses (h : norm.RatioAtLeastOne) :
    Related Audited.Encloses Audited.Encloses ((norm.map point).map Audited.given)
      (norm.map real) := by
  cases norm with
  | max => exact .max
  | sum => exact .sum
  | entrywise => exact .entrywise
  | cosine ratio =>
    refine .cosine (fun k s r hs hsound => ?_) fun k s r hs hsound => ?_
    · rw [Audited.cosineWeight_given] at hsound ⊢
      exact mul_mem (cosineWeight_isWeight h k).1 (hs ((Bool.and_eq_true true s.sound).mp hsound).2)
    · rw [Audited.cosineWeight_given] at hsound ⊢
      exact div_weight_mem (hs ((Bool.and_eq_true s.sound true).mp hsound).1)
        (cosineWeight_isWeight h k)

/-- Over audited intervals and over intervals. -/
theorem related_value (norm : PhaseNorm Interval) :
    Related (fun (s : Audited) (X : Interval) => s.value = X)
      (fun (s : Audited) (X : Interval) => s.value = X) (norm.map Audited.given) norm := by
  cases norm with
  | max => exact .max
  | sum => exact .sum
  | entrywise => exact .entrywise
  | cosine ratio =>
    refine .cosine (fun k s X hs => ?_) fun k s X hs => ?_
    · rw [Audited.cosineWeight_given, ← hs]
      rfl
    · rw [Audited.cosineWeight_given, ← hs]
      rfl

end PhaseNorm

/-! ## The bounds -/

namespace VectorField

/-- **A real field within an interval field**: its parameters lie in the intervals, and it is measured
in the same norm. -/
inductive Encloses : VectorField Interval → VectorField ℝ → Prop where
  | lorenz {p : Lorenz Interval} {q : Lorenz ℝ} (sigma : q.sigma ∈ p.sigma) (rho : q.rho ∈ p.rho)
      (beta : q.beta ∈ p.beta) : Encloses (.lorenz p) (.lorenz q)
  | fisher {X : Interval} {c : ℝ} {N : ℕ} {norm : PhaseNorm Float} (order : N ≤ modeLimit)
      (coefficient : c ∈ X) (ratio : norm.RatioAtLeastOne) :
      Encloses (.fisher ⟨X, N, norm.map point⟩) (.fisher ⟨c, N, norm.map real⟩)

/-- **The audit of the rigorous bounds at float data.** -/
def audit (field : VectorField Interval) (x : DenseVector Float) (a : DenseMatrix Float) :
    Except RunError (Bounds Audited) :=
  (field.map Audited.given).bounds (x.map fun c => Audited.given (point c))
    (a.map fun c => Audited.given (point c))

variable {field : VectorField Interval} {g : VectorField ℝ} {x : DenseVector Float}
  {a : DenseMatrix Float}

theorem Encloses.related_mem (h : Encloses field g) :
    Related (fun (X : Interval) (r : ℝ) => r ∈ X) IsMagnitude field g := by
  cases h with
  | lorenz sigma rho beta => exact .lorenz sigma rho beta
  | fisher order coefficient ratio =>
    exact .fisher (fun k hk => Audited.square_mem (hk.trans order)) coefficient
      (PhaseNorm.related_mem ratio)

theorem Encloses.related_encloses (h : Encloses field g) :
    Related Audited.Encloses Audited.Encloses (field.map Audited.given) g := by
  cases h with
  | lorenz sigma rho beta => exact .lorenz (fun _ => sigma) (fun _ => rho) fun _ => beta
  | fisher order coefficient ratio =>
    exact .fisher (fun k hk _ => Audited.square_mem (hk.trans order)) (fun _ => coefficient)
      (PhaseNorm.related_encloses ratio)

theorem Encloses.related_value (h : Encloses field g) :
    Related (fun (s : Audited) (X : Interval) => s.value = X)
      (fun (s : Audited) (X : Interval) => s.value = X) (field.map Audited.given) field := by
  cases h with
  | lorenz => exact .lorenz rfl rfl rfl
  | fisher => exact .fisher (fun _ _ => rfl) rfl (PhaseNorm.related_value _)

/-- **The rigorous bounds enclose the exact ones**: the first two where their audit finds no loss, the
third without a condition. -/
theorem boundsAtFloats_enclose (h : Encloses field g) (hx : x.size = field.dim)
    (hr : a.rows = field.dim) (hc : a.cols = field.dim) (hxfin : x.isFinite = true)
    (hafin : a.isFinite = true) :
    ∃ b exact audited, field.boundsAtFloats x a = .ok b ∧
      g.bounds (x.map real) (a.map real) = .ok exact ∧ field.audit x a = .ok audited ∧
      (audited.y0.sound = true → exact.y0 ∈ b.y0) ∧ (audited.z0.sound = true → exact.z0 ∈ b.z0) ∧
      exact.z2 ∈ b.z2 := by
  have hdim := h.related_mem.dim_eq
  have hdim' := h.related_value.dim_eq
  refine ⟨_, _, _, bounds_map point hx hr hc, bounds_map real (hx.trans hdim) (hr.trans hdim)
    (hc.trans hdim), bounds_map (fun c => Audited.given (point c)) (hx.trans hdim'.symm)
    (hr.trans hdim'.symm) (hc.trans hdim'.symm), ?_⟩
  have hpoint : ∀ i : Fin field.dim, ((⟨x, hx⟩ : Vector Float field.dim).get i).isFinite = true :=
    fun i => Array.all_eq_true.mp hxfin i (by omega)
  have hentry : ∀ i j, (a.grid.get i j).isFinite = true := by
    intro i j
    have hall : a.grid.data.toArray.all Float.isFinite = true := hafin
    exact Array.all_eq_true.mp hall _ (by simp)
  obtain ⟨hy, hz, -⟩ := boundsAt_related Audited.respectsRing_encloses Audited.respectsNorm_encloses
    h.related_encloses
    (x := Vector.map (fun c => Audited.given (point c)) ⟨x, hx.trans hdim'.symm⟩)
    (y := Vector.map real ⟨x, hx.trans hdim⟩)
    (a := (a.grid.cast (hr.trans hdim'.symm) (hc.trans hdim'.symm)).map
      fun c => Audited.given (point c))
    (b := (a.grid.cast (hr.trans hdim) (hc.trans hdim)).map real)
    (fun i _ => by
      rw [get_map, get_map]
      exact mem_point (hpoint (i.cast hdim')))
    (fun i j _ => by
      rw [Grid.get_map, Grid.get_map, Grid.get_cast, Grid.get_cast]
      exact mem_point (hentry _ _))
  obtain ⟨hy', hz', -⟩ := boundsAt_related Audited.respectsRing_value Audited.respectsNorm_value
    h.related_value
    (x := Vector.map (fun c => Audited.given (point c)) ⟨x, hx.trans hdim'.symm⟩)
    (y := Vector.map point ⟨x, hx⟩)
    (a := (a.grid.cast (hr.trans hdim'.symm) (hc.trans hdim'.symm)).map
      fun c => Audited.given (point c))
    (b := (a.grid.cast hr hc).map point)
    (fun i => by rw [get_map, get_map]; rfl)
    (fun i j => by rw [Grid.get_map, Grid.get_map, Grid.get_cast, Grid.get_cast]; rfl)
  refine ⟨fun hs => ?_, fun hs => ?_, ?_⟩
  · rw [← hy']
    exact hy hs
  · rw [← hz']
    exact hz hs
  · refine curvature_related PhaseNorm.respectsNorm_mem (count_mem (by norm_num))
      mul_mem h.related_mem fun i j => ?_
    rw [Grid.get_map, Grid.get_map, Grid.get_cast, Grid.get_cast]
    exact mem_point (hentry _ _)

/-- The bounds of a Fisher field with two modes, whose coefficient is known to lie between zero and
one. -/
theorem boundsAtFloats_enclose_fisher :
    ∃ b exact, (VectorField.fisher ⟨⟨0, 1⟩, 1, (PhaseNorm.cosine 1).map point⟩).boundsAtFloats
        #[3, 2] (.ofGrid (.identity 2)) = .ok b ∧
      (VectorField.fisher ⟨1 / 2, 1, (PhaseNorm.cosine 1).map real⟩).bounds
        ((#[3, 2] : DenseVector Float).map real) ((DenseMatrix.ofGrid (.identity 2)).map real)
          = .ok exact ∧ exact.y0 ∈ b.y0 ∧ exact.z0 ∈ b.z0 ∧ exact.z2 ∈ b.z2 := by
  have hhalf : (1 / 2 : ℝ) ∈ (⟨0, 1⟩ : Interval) := by
    refine ⟨zero_isNumber, one_isNumber, ?_, ?_⟩
    · rw [mk_lo, value_zero]
      exact_mod_cast (by norm_num : (0 : ℝ) ≤ 1 / 2)
    · rw [mk_hi, value_one, EReal.coe_le_coe_iff]
      norm_num
  have hratio : (PhaseNorm.cosine (1 : Float)).RatioAtLeastOne :=
    ⟨by decide, by decide⟩
  have hfield : Encloses (.fisher ⟨⟨0, 1⟩, 1, (PhaseNorm.cosine 1).map point⟩)
      (.fisher ⟨1 / 2, 1, (PhaseNorm.cosine 1).map real⟩) := .fisher (by decide) hhalf hratio
  obtain ⟨b, exact, audited, hb, he, ht, hy, hz, hc⟩ := boundsAtFloats_enclose hfield
    (x := #[3, 2]) (a := .ofGrid (.identity 2)) rfl rfl rfl (by decide +kernel) (by decide +kernel)
  have hsound : ((VectorField.fisher ⟨⟨0, 1⟩, 1, (PhaseNorm.cosine 1).map point⟩).audit
      #[3, 2] (.ofGrid (.identity 2))).toOption.map (fun t => (t.y0.sound, t.z0.sound))
        = some (true, true) := by
    decide +kernel
  rw [ht] at hsound
  obtain ⟨hy', hz'⟩ := Prod.mk.inj (Option.some.inj hsound)
  exact ⟨b, exact, hb, he, hy hy', hz hz', hc⟩

/-- A point of the Lorenz system whose first two coordinates differ by almost the largest float. -/
def lossyPoint : DenseVector Float := #[-largest, -.ofBits 0x7CA8000000000000, 0]

/-- The matrix that keeps the first component of the field alone. -/
def firstComponent : Grid 3 3 Float := .ofFn fun i j => if i = 0 ∧ j = 0 then 1 else 0

/-- The rounded difference of the coordinates, of which the rounding error was lost. -/
theorem lossyPoint_y0 :
    ((VectorField.lorenz ⟨1, 0, 0⟩ : VectorField Interval).boundsAt
      (Vector.map point ⟨lossyPoint, rfl⟩) (firstComponent.map point)).y0
        = point (.ofBits 0x7FEFFFFFFFFFFFFE) := by
  decide +kernel

theorem real_lossyPoint :
    real (-largest) = -(limit - topUnit) ∧
      real (-.ofBits 0x7CA8000000000000) = -(3 / 2 * topUnit) := by
  obtain ⟨hfin, hreal⟩ := real_ofBits (u := 0x7CA8000000000000) (by decide)
  have he : wordExponent (UInt64.toNat 0x7CA8000000000000) = 919 := by decide
  have hm : wordSignificand (UInt64.toNat 0x7CA8000000000000) = 3 * 2 ^ 51 := by decide
  rw [magnitude, he, hm] at hreal
  refine ⟨real_eq_of_value value_neg_largest.2, ?_⟩
  rw [(neg_finite hfin).2, hreal, topUnit, show (971 : ℤ) = 919 + (52 : ℕ) by norm_num, zpow_two_add]
  push_cast
  ring

/-- **A bound that is not enclosed**: with `σ = 1` the first component of the field is the difference
of the first two coordinates, and its rounding error is lost against the largest float. -/
theorem boundsAtFloats_misses :
    ∃ (field : VectorField Interval) (g : VectorField ℝ) (x : DenseVector Float)
      (a : DenseMatrix Float) (b : Bounds Interval) (exact : Bounds ℝ),
      Encloses field g ∧ x.size = field.dim ∧ a.rows = field.dim ∧ a.cols = field.dim ∧
        x.isFinite = true ∧ a.isFinite = true ∧ field.boundsAtFloats x a = .ok b ∧
        g.bounds (x.map real) (a.map real) = .ok exact ∧ exact.y0 ∉ b.y0 := by
  let v : Vector ℝ 3 := Vector.map real ⟨lossyPoint, rfl⟩
  let m : Grid 3 3 ℝ := firstComponent.map real
  refine ⟨.lorenz ⟨1, 0, 0⟩, .lorenz ⟨1, 0, 0⟩, lossyPoint, .ofGrid firstComponent,
    (VectorField.lorenz ⟨1, 0, 0⟩).boundsAt (Vector.map point ⟨lossyPoint, rfl⟩)
      (firstComponent.map point), (VectorField.lorenz ⟨1, 0, 0⟩).boundsAt v m,
    .lorenz one_mem zero_brackets zero_brackets, rfl, rfl, rfl, by decide +kernel,
    by decide +kernel, bounds_map point rfl rfl rfl, bounds_map real rfl rfl rfl, fun hmem => ?_⟩
  obtain ⟨hfirst, hsecond⟩ := real_lossyPoint
  have hexact : (PhaseNorm.max : PhaseNorm ℝ).ofVector
      (m.apply ((⟨1, 0, 0⟩ : Lorenz ℝ).value v)) ≤ limit - 5 / 2 * topUnit := by
    have hpos : 0 ≤ limit - 5 / 2 * topUnit := by linarith [limit_eq, topUnit_pos]
    refine PhaseNorm.ofVector_max_le_iff.mpr ⟨hpos, fun i => ?_⟩
    have hentry : ∀ j, m.get i j = if i = 0 ∧ j = 0 then 1 else 0 := by
      intro j
      rw [Grid.get_map, firstComponent, Grid.get_ofFn]
      split_ifs
      · exact real_one
      · exact real_zero
    have hvalue : ((⟨1, 0, 0⟩ : Lorenz ℝ).value v).get 0 = limit - 5 / 2 * topUnit := by
      have hdiff : ((⟨1, 0, 0⟩ : Lorenz ℝ).value v).get 0 = 1 * (v.get 1 - v.get 0) := rfl
      rw [hdiff, get_map, get_map]
      change 1 * (real (-.ofBits 0x7CA8000000000000) - real (-largest)) = _
      rw [hfirst, hsecond]
      ring
    rw [Grid.get_apply, leftSum_eq_sum, Finset.sum_eq_single 0 (fun j _ hj => by
      rw [hentry, if_neg fun h => hj h.2, zero_mul]) (by simp), hentry]
    split_ifs
    · rw [one_mul, hvalue, abs_of_nonneg hpos]
    · rw [zero_mul, abs_zero]
      exact hpos
  have hlo := hmem.2.2.1
  rw [lossyPoint_y0] at hlo
  have hbound := hlo.trans (EReal.coe_le_coe_iff.mpr hexact)
  obtain ⟨hfin, hreal⟩ := real_ofBits (u := 0x7FEFFFFFFFFFFFFE) (by decide)
  have he : wordExponent (UInt64.toNat 0x7FEFFFFFFFFFFFFE) = 971 := by decide
  have hm : wordSignificand (UInt64.toNat 0x7FEFFFFFFFFFFFFE) = 2 ^ 53 - 2 := by decide
  rw [magnitude, he, hm] at hreal
  change Binary64.value (Float.ofBits 0x7FEFFFFFFFFFFFFE) ≤ _ at hbound
  rw [← coe_real hfin, EReal.coe_le_coe_iff, hreal, limit_eq] at hbound
  change ((2 ^ 53 - 2 : ℕ) : ℝ) * topUnit ≤ _ at hbound
  push_cast at hbound
  linarith [topUnit_pos]

end VectorField

end CertifiedZeros
