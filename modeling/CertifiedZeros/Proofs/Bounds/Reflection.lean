import CertifiedZeros.Proofs.Bounds.Relation
import CertifiedZeros.Proofs.Interval.Reflection

/-! # The symmetry of the fields

Both fields have a symmetry that changes the signs of some coordinates: the Lorenz system that of the
first two, the Fisher equation that of the odd modes. A point and its mirror image have values and
derivatives that are mirror images, too, and their bounds are the same.

* **`RespectsSigns R`** — `R flip` relates numbers with numbers, or with their opposites, and the
  operations respect it.
* **`VectorField.flips`** — the coordinates whose signs change.
* **`VectorField.value_turned`**, **`VectorField.derivative_turned`** — the mirror images.
* **`VectorField.boundsAt_turned`** — the bounds. -/

namespace CertifiedZeros

variable {α : Type}

/-! ## Numbers and their opposites -/

section

variable [Zero α] [Add α] [Sub α] [Neg α] [Mul α] [Div α] [Magnitude α]

/-- **Operations respect signs**: a sum turns with both terms, a product with each factor, and a
magnitude not at all. -/
structure RespectsSigns (R : Bool → α → α → Prop) : Prop where
  refl : ∀ a, R false a a
  zero : ∀ f, R f 0 0
  add : ∀ {f a a' b b'}, R f a a' → R f b b' → R f (a + b) (a' + b')
  sub : ∀ {f a a' b b'}, R f a a' → R f b b' → R f (a - b) (a' - b')
  neg : ∀ {f a a'}, R f a a' → R f (-a) (-a')
  mul : ∀ {f g a a' b b'}, R f a a' → R g b b' → R (f ^^ g) (a * b) (a' * b')
  div_same : ∀ {a a'} c, R false a a' → R false (a / c) (a' / c)
  abs : ∀ {f a a'}, R f a a' → R false (Magnitude.abs a) (Magnitude.abs a')
  larger : ∀ {a a' b b'}, R false a a' → R false b b' →
    R false (Magnitude.larger a b) (Magnitude.larger a' b')

end

theorem respectsSigns_float : RespectsSigns Binary64.Turned where
  refl := .refl
  zero := Binary64.turned_zero
  add := .add
  sub := .sub
  neg := .neg
  mul := .mul
  div_same c h := h.div_same c
  abs := .abs
  larger := .larger

/-- **Intervals up to the sign.** Those that are turned have their ends in order. -/
def Interval.TurnedOrderly (f : Bool) (X X' : Interval) : Prop :=
  Turned f X X' ∧ (f = true → X.Orderly)

open CertifiedZeros.Interval in
theorem respectsSigns_interval : RespectsSigns TurnedOrderly where
  refl X := ⟨.refl X, by simp⟩
  zero f := ⟨turned_zero f, fun _ => orderly_point 0⟩
  add hX hY := ⟨hX.1.add hY.1, fun h => (hX.2 h).add (hY.2 h)⟩
  sub hX hY := ⟨hX.1.sub hY.1, fun h => (hX.2 h).sub (hY.2 h)⟩
  neg hX := ⟨hX.1.neg, fun h => (hX.2 h).neg⟩
  mul hX hY := ⟨hX.1.mul hY.1, fun _ => orderly_mul _ _⟩
  div_same Z hX := ⟨hX.1.div_same Z, by simp⟩
  abs hX := ⟨hX.1.abs fun h => (hX.2 h).not_reversed, by simp⟩
  larger hX hY := ⟨hX.1.larger hY.1, by simp⟩

variable [Zero α] [Add α] [Sub α] [Neg α] [Mul α] [Div α] [Magnitude α]
  {R : Bool → α → α → Prop} {n : ℕ}

/-! ## Norms -/

section Norms

variable [One α] [NatCast α] [Pow α Nat] {σ : Fin n → Bool}

/-- **A vector and its mirror image have the same norm.** -/
theorem PhaseNorm.ofVector_turned (h : RespectsSigns R) (norm : PhaseNorm α) {x x' : Vector α n}
    (hx : ∀ i, R (σ i) (x.get i) (x'.get i)) : R false (norm.ofVector x) (norm.ofVector x') := by
  have habs : ∀ i, R false (Magnitude.abs (x.get i)) (Magnitude.abs (x'.get i)) := fun i =>
    h.abs (hx i)
  cases norm with
  | max => exact leftMax_related (h.zero false) h.larger habs
  | sum | entrywise => exact leftSum_related (h.zero false) h.add habs
  | cosine ratio =>
    exact leftSum_related (h.zero false) h.add fun i => h.mul (h.refl _) (habs i)

/-- **A matrix and its mirror image have the same norm.** -/
theorem PhaseNorm.ofGrid_turned (h : RespectsSigns R) (norm : PhaseNorm α) {m : ℕ}
    {a a' : Grid m n α} {s : Fin m → Fin n → Bool} (ha : ∀ i j, R (s i j) (a.get i j) (a'.get i j)) :
    R false (norm.ofGrid a) (norm.ofGrid a') := by
  have habs : ∀ i j, R false (Magnitude.abs (a.get i j)) (Magnitude.abs (a'.get i j)) := fun i j =>
    h.abs (ha i j)
  cases norm with
  | max =>
    exact leftMax_related (h.zero false) h.larger fun i =>
      leftSum_related (h.zero false) h.add fun j => habs i j
  | sum =>
    exact leftMax_related (h.zero false) h.larger fun j =>
      leftSum_related (h.zero false) h.add fun i => habs i j
  | entrywise =>
    refine leftSum_related (h.zero false) h.add fun p => ?_
    have hplace := habs (Grid.rowOf p) (Grid.columnOf p)
    rwa [Grid.get, Grid.get, Grid.place_rowOf_columnOf] at hplace
  | cosine ratio =>
    simp only [PhaseNorm.ofGrid, get_ofFn]
    exact leftMax_related (h.zero false) h.larger fun j => h.div_same _
      (leftSum_related (h.zero false) h.add fun i => h.mul (h.refl _) (habs i j))

end Norms

/-! ## Products -/

section Products

variable {σ : Fin n → Bool}

theorem Grid.apply_turned (h : RespectsSigns R) {a a' : Grid n n α} {x x' : Vector α n}
    (ha : ∀ i j, R (σ i ^^ σ j) (a.get i j) (a'.get i j)) (hx : ∀ i, R (σ i) (x.get i) (x'.get i))
    (i : Fin n) : R (σ i) ((a.apply x).get i) ((a'.apply x').get i) := by
  rw [get_apply, get_apply]
  refine leftSum_related (h.zero _) h.add fun j => ?_
  have hterm := h.mul (ha i j) (hx j)
  rwa [Bool.xor_assoc, Bool.xor_self, Bool.xor_false] at hterm

/-- What is left of the identity after a product. -/
theorem Grid.identity_sub_mul_turned [One α] (h : RespectsSigns R) {a a' c c' : Grid n n α}
    (ha : ∀ i j, R (σ i ^^ σ j) (a.get i j) (a'.get i j))
    (hc : ∀ i j, R (σ i ^^ σ j) (c.get i j) (c'.get i j)) (i j : Fin n) :
    R (σ i ^^ σ j) (((identity n).sub (a.mul c)).get i j) (((identity n).sub (a'.mul c')).get i j) := by
  rw [get_sub, get_sub, get_mul, get_mul, get_identity]
  refine h.sub ?_ (leftSum_related (h.zero _) h.add fun l => ?_)
  · split_ifs with hij
    · rw [hij, Bool.xor_self]
      exact h.refl 1
    · exact h.zero _
  · have hterm := h.mul (ha i l) (hc l j)
    rwa [Binary64.xor_cancel] at hterm

end Products

/-! ## The fields -/

/-- **The coordinates whose signs change**: the first two of the Lorenz system, the odd modes of the
Fisher equation. -/
def VectorField.flips {α : Type} : VectorField α → ℕ → Bool
  | .lorenz _, i => i < 2
  | .fisher _, k => k % 2 = 1

theorem Lorenz.value_turned (h : RespectsSigns R) (p : Lorenz α) {v v' : Vector α 3}
    (hv : ∀ i : Fin 3, R (i.val < 2) (v.get i) (v'.get i)) (i : Fin 3) :
    R (i.val < 2) ((p.value v).get i) ((p.value v').get i) := by
  match i with
  | 0 => exact h.mul (h.refl p.sigma) (h.sub (hv 1) (hv 0))
  | 1 => exact h.sub (h.sub (h.mul (h.refl p.rho) (hv 0)) (hv 1)) (h.mul (hv 0) (hv 2))
  | 2 => exact h.add (h.mul (h.refl (-p.beta)) (hv 2)) (h.mul (hv 0) (hv 1))

theorem Lorenz.derivative_turned [One α] (h : RespectsSigns R) (p : Lorenz α) {v v' : Vector α 3}
    (hv : ∀ i : Fin 3, R (i.val < 2) (v.get i) (v'.get i)) (i j : Fin 3) :
    R ((i.val < 2 : Bool) ^^ (j.val < 2 : Bool)) ((p.derivative v).get i j)
      ((p.derivative v').get i j) := by
  rw [Lorenz.derivative, Lorenz.derivative, Grid.get_ofFn, Grid.get_ofFn]
  fin_cases i <;> fin_cases j
  · exact h.refl (-p.sigma)
  · exact h.refl p.sigma
  · exact h.zero true
  · exact h.sub (h.refl p.rho) (hv 2)
  · exact h.refl (-1)
  · exact h.neg (hv 0)
  · exact hv 1
  · exact hv 0
  · exact h.refl (-p.beta)

/-- Parities add up. -/
theorem odd_xor {a b k : ℕ} (h : (a + b) % 2 = k % 2) :
    (decide (a % 2 = 1) ^^ decide (b % 2 = 1)) = decide (k % 2 = 1) := by
  rw [← h, Nat.add_mod]
  rcases Nat.mod_two_eq_zero_or_one a with ha | ha <;>
    rcases Nat.mod_two_eq_zero_or_one b with hb | hb <;> rw [ha, hb] <;> rfl

section Fisher

variable {N : ℕ}

/-- **The convolution keeps the parity**: the two modes of a term add up to the mode of the component,
up to reflections. -/
theorem Fisher.convolution_turned (h : RespectsSigns R) {x x' : Vector α (N + 1)}
    (hx : ∀ i : Fin (N + 1), R (i.val % 2 = 1) (x.get i) (x'.get i)) (k : Fin (N + 1)) :
    R (k.val % 2 = 1) ((convolution x).get k) ((convolution x').get k) := by
  rw [convolution, convolution, get_ofFn, get_ofFn]
  refine leftSum_related (h.zero _) h.add fun t => ?_
  have hterm := h.mul (hx (firstMode k t)) (hx (secondMode k t))
  rwa [odd_xor (k := k)] at hterm
  simp only [firstMode, secondMode]
  omega

theorem Fisher.value_turned [NatCast α] (h : RespectsSigns R) (p : Fisher α)
    {x x' : Vector α (p.order + 1)}
    (hx : ∀ i : Fin (p.order + 1), R (i.val % 2 = 1) (x.get i) (x'.get i)) (k : Fin (p.order + 1)) :
    R (k.val % 2 = 1) ((p.value x).get k) ((p.value x').get k) := by
  rw [value, value, get_ofFn, get_ofFn]
  have hlinear := h.mul (h.refl (p.linear k)) (hx k)
  have hsquare := h.mul (h.refl p.coefficient) (convolution_turned h hx k)
  rw [Bool.false_xor] at hlinear hsquare
  exact h.sub hlinear hsquare

theorem Fisher.derivative_turned [NatCast α] (h : RespectsSigns R) (p : Fisher α)
    {x x' : Vector α (p.order + 1)}
    (hx : ∀ i : Fin (p.order + 1), R (i.val % 2 = 1) (x.get i) (x'.get i)) (k l : Fin (p.order + 1)) :
    R (decide (k.val % 2 = 1) ^^ decide (l.val % 2 = 1)) ((p.derivative x).get k l)
      ((p.derivative x').get k l) := by
  have hmode : ∀ m : Fin (p.order + 1), (k.val + l.val) % 2 = m.val % 2 →
      R (decide (k.val % 2 = 1) ^^ decide (l.val % 2 = 1))
        (((2 : ℕ) : α) * p.coefficient * x.get m) (((2 : ℕ) : α) * p.coefficient * x'.get m) := by
    intro m hm
    have hterm := h.mul (h.refl (((2 : ℕ) : α) * p.coefficient)) (hx m)
    rwa [Bool.false_xor, ← odd_xor hm] at hterm
  have hdirect := h.neg (hmode (distance k l) (by simp only [distance]; omega))
  have hdiagonal : k = l → R (decide (k.val % 2 = 1) ^^ decide (l.val % 2 = 1)) (p.linear k)
      (p.linear k) := by
    rintro rfl
    rw [Bool.xor_self]
    exact h.refl _
  rw [derivative, derivative, Grid.get_ofFn, Grid.get_ofFn]
  dsimp only
  split_ifs with hkl hin hin
  · exact h.add (h.sub hdirect (hmode ⟨k + l, by omega⟩ rfl)) (hdiagonal hkl)
  · exact h.add hdirect (hdiagonal hkl)
  · exact h.sub hdirect (hmode ⟨k + l, by omega⟩ rfl)
  · exact hdirect

end Fisher

namespace VectorField

variable [NatCast α] (field : VectorField α) {x x' : Vector α field.dim}
  {a a' : Grid field.dim field.dim α}

/-- **The values at a point and at its mirror image** are mirror images. -/
theorem value_turned (h : RespectsSigns R)
    (hx : ∀ i : Fin field.dim, R (field.flips i) (x.get i) (x'.get i))
    (i : Fin field.dim) : R (field.flips i) ((field.value x).get i) ((field.value x').get i) := by
  cases field with
  | lorenz p => exact p.value_turned h hx i
  | fisher p => exact p.value_turned h hx i

variable [One α]

/-- **So are the derivatives**, in rows and columns. -/
theorem derivative_turned (h : RespectsSigns R)
    (hx : ∀ i : Fin field.dim, R (field.flips i) (x.get i) (x'.get i))
    (i j : Fin field.dim) : R (field.flips i ^^ field.flips j) ((field.derivative x).get i j)
      ((field.derivative x').get i j) := by
  cases field with
  | lorenz p => exact p.derivative_turned h hx i j
  | fisher p => exact p.derivative_turned h hx i j

variable [Pow α Nat]

theorem curvature_turned (h : RespectsSigns R)
    (ha : ∀ i j : Fin field.dim, R (field.flips i ^^ field.flips j) (a.get i j) (a'.get i j)) :
    R false (field.curvature a) (field.curvature a') := by
  cases field with
  | lorenz p =>
    exact h.mul (h.refl ((2 : ℕ) : α)) (leftMax_related (h.zero false) h.larger fun i =>
      h.add (h.abs (ha i _)) (h.abs (ha i _)))
  | fisher p =>
    exact h.mul (h.refl (((2 : ℕ) : α) * Magnitude.abs p.coefficient)) (p.norm.ofGrid_turned h ha)

/-- **The bounds at mirror images are the same.** -/
theorem boundsAt_turned (h : RespectsSigns R)
    (hx : ∀ i : Fin field.dim, R (field.flips i) (x.get i) (x'.get i))
    (ha : ∀ i j : Fin field.dim, R (field.flips i ^^ field.flips j) (a.get i j) (a'.get i j)) :
    R false (field.boundsAt x a).y0 (field.boundsAt x' a').y0 ∧
      R false (field.boundsAt x a).z0 (field.boundsAt x' a').z0 ∧
      R false (field.boundsAt x a).z2 (field.boundsAt x' a').z2 := by
  refine ⟨?_, ?_, field.curvature_turned h ha⟩
  · exact field.norm.ofVector_turned h (Grid.apply_turned h ha (field.value_turned h hx))
  · exact field.norm.ofGrid_turned h
      (Grid.identity_sub_mul_turned h ha (field.derivative_turned h hx))

end VectorField

end CertifiedZeros
