import CertifiedZeros.Bounds
import CertifiedZeros.Proofs.Numerals
import Mathlib.Tactic.SplitIfs

/-! # Computations over two kinds of number

The bounds of a field are computed by one program over any kind of number. A relation between two
kinds of number that the operations respect therefore holds between the results, too.

* **`RespectsRing R`** — `R` is respected by constants, sums, differences and products.
* **`RespectsNorm R S`** — absolute values lead from `R` to `S`, sums stay in `S`, and maxima in `R`.
  Two relations are needed where magnitudes are known better than other numbers.
* **`VectorField.Related`** — the parameters of two fields are related.
* **`VectorField.boundsAt_related`** — so are their bounds. -/

namespace CertifiedZeros

variable {α β : Type}

/-- **The whole numbers that the fields compute with** are `2` and the squares of mode indices. Up to
this index the squares are floats. -/
def modeLimit : Nat := 2 ^ 26

section

variable [Zero α] [One α] [NatCast α] [Add α] [Sub α] [Neg α] [Mul α] [Zero β] [One β] [NatCast β]
  [Add β] [Sub β] [Neg β] [Mul β]

/-- **A relation that the ring operations respect.** -/
structure RespectsRing (R : α → β → Prop) : Prop where
  zero : R 0 0
  one : R 1 1
  two : R (2 : Nat) (2 : Nat)
  add : ∀ {a b a' b'}, R a b → R a' b' → R (a + a') (b + b')
  sub : ∀ {a b a' b'}, R a b → R a' b' → R (a - a') (b - b')
  neg : ∀ {a b}, R a b → R (-a) (-b)
  mul : ∀ {a b a' b'}, R a b → R a' b' → R (a * a') (b * b')

end

/-- **Relations that norms respect**: magnitudes are related by `S`, and norms by `R`. -/
structure RespectsNorm [Zero α] [Add α] [Magnitude α] [Zero β] [Add β] [Magnitude β]
    (R S : α → β → Prop) : Prop where
  zero : S 0 0
  add : ∀ {a b a' b'}, S a b → S a' b' → S (a + a') (b + b')
  abs : ∀ {a b}, R a b → S (Magnitude.abs a) (Magnitude.abs b)
  magnitude : ∀ {a b}, S a b → R a b
  larger : ∀ {a b a' b'}, R a b → R a' b' → R (Magnitude.larger a a') (Magnitude.larger b b')

/-! ## Sums and maxima -/

theorem leftSum_related [Zero α] [Add α] [Zero β] [Add β] {R : α → β → Prop} (hzero : R 0 0)
    (hadd : ∀ {a b a' b'}, R a b → R a' b' → R (a + a') (b + b')) {n : Nat} {f : Fin n → α}
    {g : Fin n → β} (h : ∀ i, R (f i) (g i)) : R (leftSum f) (leftSum g) := by
  induction n with
  | zero => simpa using hzero
  | succ n ih =>
    rw [leftSum_succ_last, leftSum_succ_last]
    exact hadd (ih fun i => h i.castSucc) (h (Fin.last n))

theorem leftMax_related [Zero α] [Magnitude α] [Zero β] [Magnitude β] {R : α → β → Prop}
    (hzero : R 0 0)
    (hlarger : ∀ {a b a' b'}, R a b → R a' b' → R (Magnitude.larger a a') (Magnitude.larger b b'))
    {n : Nat} {f : Fin n → α} {g : Fin n → β} (h : ∀ i, R (f i) (g i)) :
    R (leftMax f) (leftMax g) := by
  induction n with
  | zero => simpa using hzero
  | succ n ih =>
    rw [leftMax_succ_last, leftMax_succ_last]
    exact hlarger (ih fun i => h i.castSucc) (h (Fin.last n))

/-! ## Norms -/

section Norms

variable [Zero α] [One α] [NatCast α] [Add α] [Mul α] [Div α] [Pow α Nat] [Magnitude α]
  [Zero β] [One β] [NatCast β] [Add β] [Mul β] [Div β] [Pow β Nat] [Magnitude β]
  {R S : α → β → Prop}

/-- **Two norms of one form.** The weights of cosine series take part in products and quotients. -/
inductive PhaseNorm.Related (R S : α → β → Prop) : PhaseNorm α → PhaseNorm β → Prop where
  | max : Related R S .max .max
  | sum : Related R S .sum .sum
  | entrywise : Related R S .entrywise .entrywise
  | cosine {ratio : α} {ratio' : β}
      (mul : ∀ k {a b}, S a b → S (cosineWeight ratio k * a) (cosineWeight ratio' k * b))
      (div : ∀ k {a b}, S a b → R (a / cosineWeight ratio k) (b / cosineWeight ratio' k)) :
      Related R S (.cosine ratio) (.cosine ratio')

variable {norm : PhaseNorm α} {norm' : PhaseNorm β}

theorem PhaseNorm.ofVector_related (h : RespectsNorm R S) (hnorm : Related R S norm norm') {n : Nat}
    {x : Vector α n} {y : Vector β n} (hx : ∀ i, R (x.get i) (y.get i)) :
    R (norm.ofVector x) (norm'.ofVector y) := by
  cases hnorm with
  | max => exact leftMax_related (h.magnitude h.zero) h.larger fun i => h.magnitude (h.abs (hx i))
  | sum | entrywise =>
    exact h.magnitude (leftSum_related h.zero h.add fun i => h.abs (hx i))
  | cosine mul div =>
    exact h.magnitude (leftSum_related h.zero h.add fun i => mul i (h.abs (hx i)))

theorem PhaseNorm.ofGrid_related (h : RespectsNorm R S) (hnorm : Related R S norm norm') {m n : Nat}
    {a : Grid m n α} {b : Grid m n β} (ha : ∀ i j, R (a.get i j) (b.get i j)) :
    R (norm.ofGrid a) (norm'.ofGrid b) := by
  have hsum : ∀ {k : Nat} {f : Fin k → α} {g : Fin k → β}, (∀ i, R (f i) (g i)) →
      S (leftSum fun i => Magnitude.abs (f i)) (leftSum fun i => Magnitude.abs (g i)) :=
    fun hf => leftSum_related h.zero h.add fun i => h.abs (hf i)
  cases hnorm with
  | max =>
    exact leftMax_related (h.magnitude h.zero) h.larger fun i => h.magnitude (hsum fun j => ha i j)
  | sum =>
    exact leftMax_related (h.magnitude h.zero) h.larger fun j => h.magnitude (hsum fun i => ha i j)
  | entrywise =>
    refine h.magnitude (hsum fun p => ?_)
    have hplace := ha (Grid.rowOf p) (Grid.columnOf p)
    rwa [Grid.get, Grid.get, Grid.place_rowOf_columnOf] at hplace
  | cosine mul div =>
    simp only [PhaseNorm.ofGrid, get_ofFn]
    exact leftMax_related (h.magnitude h.zero) h.larger fun j =>
      div j (leftSum_related h.zero h.add fun i => mul i (h.abs (ha i j)))

end Norms

/-! ## Products of grids -/

section Grids

variable [Zero α] [One α] [NatCast α] [Add α] [Sub α] [Neg α] [Mul α] [Zero β] [One β] [NatCast β]
  [Add β] [Sub β] [Neg β] [Mul β] {R : α → β → Prop} {m n k : Nat}

theorem Grid.apply_related (h : RespectsRing R) {a : Grid m n α} {b : Grid m n β} {x : Vector α n}
    {y : Vector β n} (ha : ∀ i j, R (a.get i j) (b.get i j)) (hx : ∀ i, R (x.get i) (y.get i))
    (i : Fin m) : R ((a.apply x).get i) ((b.apply y).get i) := by
  rw [get_apply, get_apply]
  exact leftSum_related h.zero h.add fun j => h.mul (ha i j) (hx j)

/-- What is left of the identity after a product. -/
theorem Grid.identity_sub_mul_related (h : RespectsRing R) {a c : Grid n n α} {b d : Grid n n β}
    (ha : ∀ i j, R (a.get i j) (b.get i j)) (hc : ∀ i j, R (c.get i j) (d.get i j)) (i j : Fin n) :
    R (((identity n).sub (a.mul c)).get i j) (((identity n).sub (b.mul d)).get i j) := by
  rw [get_sub, get_sub, get_mul, get_mul, get_identity, get_identity]
  refine h.sub ?_ (leftSum_related h.zero h.add fun l => h.mul (ha i l) (hc l j))
  split
  · exact h.one
  · exact h.zero

/-! ## The two fields -/

theorem Lorenz.value_related (h : RespectsRing R) {p : Lorenz α} {q : Lorenz β}
    (hsigma : R p.sigma q.sigma) (hrho : R p.rho q.rho) (hbeta : R p.beta q.beta) {x : Vector α 3}
    {y : Vector β 3} (hx : ∀ i, R (x.get i) (y.get i)) (i : Fin 3) :
    R ((p.value x).get i) ((q.value y).get i) := by
  match i with
  | 0 => exact h.mul hsigma (h.sub (hx 1) (hx 0))
  | 1 => exact h.sub (h.sub (h.mul hrho (hx 0)) (hx 1)) (h.mul (hx 0) (hx 2))
  | 2 => exact h.add (h.mul (h.neg hbeta) (hx 2)) (h.mul (hx 0) (hx 1))

theorem Lorenz.derivative_related (h : RespectsRing R) {p : Lorenz α} {q : Lorenz β}
    (hsigma : R p.sigma q.sigma) (hrho : R p.rho q.rho) (hbeta : R p.beta q.beta) {x : Vector α 3}
    {y : Vector β 3} (hx : ∀ i, R (x.get i) (y.get i)) (i j : Fin 3) :
    R ((p.derivative x).get i j) ((q.derivative y).get i j) := by
  rw [Lorenz.derivative, Lorenz.derivative, Grid.get_ofFn, Grid.get_ofFn]
  match i, j with
  | 0, 0 => exact h.neg hsigma
  | 0, 1 => exact hsigma
  | 0, 2 => exact h.zero
  | 1, 0 => exact h.sub hrho (hx 2)
  | 1, 1 => exact h.neg h.one
  | 1, 2 => exact h.neg (hx 0)
  | 2, 0 => exact hx 1
  | 2, 1 => exact hx 0
  | 2, 2 => exact h.neg hbeta

theorem Fisher.linear_related (h : RespectsRing R) {p : Fisher α} {q : Fisher β}
    (hcoefficient : R p.coefficient q.coefficient) {k : Nat}
    (hsquare : R ((k * k : Nat) : α) ((k * k : Nat) : β)) : R (p.linear k) (q.linear k) :=
  h.sub hcoefficient hsquare

theorem Fisher.convolution_related (h : RespectsRing R) {N : Nat} {x : Vector α (N + 1)}
    {y : Vector β (N + 1)} (hx : ∀ i, R (x.get i) (y.get i)) (k : Fin (N + 1)) :
    R ((convolution x).get k) ((convolution y).get k) := by
  rw [convolution, convolution, get_ofFn, get_ofFn]
  exact leftSum_related h.zero h.add fun t => h.mul (hx _) (hx _)

variable {c : α} {c' : β} {N : Nat} {norm : PhaseNorm α} {norm' : PhaseNorm β}

theorem Fisher.value_related (h : RespectsRing R) (hc : R c c')
    (hsquares : ∀ k ≤ N, R ((k * k : Nat) : α) ((k * k : Nat) : β)) {x : Vector α (N + 1)} {y : Vector β (N + 1)} (hx : ∀ i, R (x.get i) (y.get i))
    (k : Fin (N + 1)) :
    R (((Fisher.mk c N norm).value x).get k) (((Fisher.mk c' N norm').value y).get k) := by
  have hk := hsquares k (Nat.le_of_lt_succ k.isLt)
  rw [value, value, get_ofFn, get_ofFn]
  exact h.sub (h.mul (linear_related h hc hk) (hx k)) (h.mul hc (convolution_related h hx k))

theorem Fisher.derivative_related (h : RespectsRing R) (hc : R c c')
    (hsquares : ∀ k ≤ N, R ((k * k : Nat) : α) ((k * k : Nat) : β)) {x : Vector α (N + 1)} {y : Vector β (N + 1)} (hx : ∀ i, R (x.get i) (y.get i))
    (k l : Fin (N + 1)) :
    R (((Fisher.mk c N norm).derivative x).get k l) (((Fisher.mk c' N norm').derivative y).get k l) := by
  have htwice : R (((2 : Nat) : α) * c) (((2 : Nat) : β) * c') :=
    h.mul h.two hc
  have hdirect := h.neg (h.mul htwice (hx (distance k l)))
  have hlinear : R ((Fisher.mk c N norm).linear k) ((Fisher.mk c' N norm').linear k) :=
    linear_related h hc (hsquares k (Nat.le_of_lt_succ k.isLt))
  rw [derivative, derivative, Grid.get_ofFn, Grid.get_ofFn]
  dsimp only
  split_ifs
  · exact h.add (h.sub hdirect (h.mul htwice (hx _))) hlinear
  · exact h.add hdirect hlinear
  · exact h.sub hdirect (h.mul htwice (hx _))
  · exact hdirect

end Grids

/-! ## The bounds -/

section Bounds

variable [One α] [NatCast α] [Mul α] [Div α] [Pow α Nat] [One β] [NatCast β] [Mul β] [Div β]
  [Pow β Nat] {R S : α → β → Prop} {f : VectorField α} {g : VectorField β}

/-- **Two fields with related parameters**, of an order whose mode indices have related squares. -/
inductive VectorField.Related (R S : α → β → Prop) : VectorField α → VectorField β → Prop where
  | lorenz {p : Lorenz α} {q : Lorenz β} (sigma : R p.sigma q.sigma) (rho : R p.rho q.rho)
      (beta : R p.beta q.beta) : Related R S (.lorenz p) (.lorenz q)
  | fisher {c : α} {c' : β} {N : Nat} {norm : PhaseNorm α} {norm' : PhaseNorm β}
      (squares : ∀ k ≤ N, R ((k * k : Nat) : α) ((k * k : Nat) : β)) (coefficient : R c c') (norms : PhaseNorm.Related R S norm norm') :
      Related R S (.fisher ⟨c, N, norm⟩) (.fisher ⟨c', N, norm'⟩)

theorem VectorField.Related.dim_eq (h : Related R S f g) : f.dim = g.dim := by
  cases h <;> rfl

variable [Zero α] [Add α] [Zero β] [Add β]

/-- The measures of the second derivative are related as soon as products are. -/
theorem VectorField.curvature_related [Magnitude α] [Magnitude β] (h : RespectsNorm R S) (htwo : R (2 : Nat) (2 : Nat))
    (hmul : ∀ {a b a' b'}, R a b → R a' b' → R (a * a') (b * b')) (hf : Related R S f g)
    {a : Grid f.dim f.dim α} {b : Grid g.dim g.dim β}
    (ha : ∀ i j, R (a.get i j) (b.get (i.cast hf.dim_eq) (j.cast hf.dim_eq))) :
    R (f.curvature a) (g.curvature b) := by
  cases hf with
  | lorenz =>
    refine hmul htwo (leftMax_related (h.magnitude h.zero) h.larger fun i => h.magnitude ?_)
    exact h.add (h.abs (ha i _)) (h.abs (ha i _))
  | fisher _ coefficient norms =>
    exact hmul (hmul htwo (h.magnitude (h.abs coefficient))) (PhaseNorm.ofGrid_related h norms ha)

variable [Sub α] [Neg α] [Sub β] [Neg β]

theorem VectorField.value_related (h : RespectsRing R) (hf : Related R S f g)
    {x : Vector α f.dim} {y : Vector β g.dim} (hx : ∀ i, R (x.get i) (y.get (i.cast hf.dim_eq)))
    (i : Fin f.dim) : R ((f.value x).get i) ((g.value y).get (i.cast hf.dim_eq)) := by
  cases hf with
  | lorenz sigma rho beta => exact Lorenz.value_related h sigma rho beta hx i
  | fisher squares coefficient => exact Fisher.value_related h coefficient squares hx i

theorem VectorField.derivative_related (h : RespectsRing R) (hf : Related R S f g)
    {x : Vector α f.dim} {y : Vector β g.dim} (hx : ∀ i, R (x.get i) (y.get (i.cast hf.dim_eq)))
    (i j : Fin f.dim) : R ((f.derivative x).get i j)
      ((g.derivative y).get (i.cast hf.dim_eq) (j.cast hf.dim_eq)) := by
  cases hf with
  | lorenz sigma rho beta => exact Lorenz.derivative_related h sigma rho beta hx i j
  | fisher squares coefficient => exact Fisher.derivative_related h coefficient squares hx i j

variable [Magnitude α] [Magnitude β]

/-- **The bounds are related**, the last one also where sums are not. -/
theorem VectorField.boundsAt_related (h : RespectsRing R) (hn : RespectsNorm R S)
    (hf : Related R S f g) {x : Vector α f.dim} {y : Vector β g.dim} {a : Grid f.dim f.dim α}
    {b : Grid g.dim g.dim β} (hx : ∀ i, R (x.get i) (y.get (i.cast hf.dim_eq)))
    (ha : ∀ i j, R (a.get i j) (b.get (i.cast hf.dim_eq) (j.cast hf.dim_eq))) :
    R (f.boundsAt x a).y0 (g.boundsAt y b).y0 ∧ R (f.boundsAt x a).z0 (g.boundsAt y b).z0 ∧
      R (f.boundsAt x a).z2 (g.boundsAt y b).z2 := by
  refine ⟨?_, ?_, curvature_related hn h.two h.mul hf ha⟩
  · have hvalue := value_related h hf hx
    cases hf with
    | lorenz => exact PhaseNorm.ofVector_related hn .max (Grid.apply_related h ha hvalue)
    | fisher _ _ norms => exact PhaseNorm.ofVector_related hn norms (Grid.apply_related h ha hvalue)
  · have hderivative := derivative_related h hf hx
    cases hf with
    | lorenz =>
      exact PhaseNorm.ofGrid_related hn .max (Grid.identity_sub_mul_related h ha hderivative)
    | fisher _ _ norms =>
      exact PhaseNorm.ofGrid_related hn norms (Grid.identity_sub_mul_related h ha hderivative)

/-- **The bounds of data that fits** are those of the typed program. -/
theorem VectorField.bounds_of_fits {x : DenseVector α} {a : DenseMatrix α} (hx : x.size = f.dim)
    (hr : a.rows = f.dim) (hc : a.cols = f.dim) :
    f.bounds x a = .ok (f.boundsAt ⟨x, hx⟩ (a.grid.cast hr hc)) := by
  have hpoint : RunError.pointOfDim f.dim x = .ok ⟨x, hx⟩ := dif_pos hx
  have hsquare : RunError.squareOfDim f.dim a = .ok (a.grid.cast hr hc) := by
    rw [RunError.squareOfDim, dif_pos hr, dif_pos hc]
  rw [bounds, hpoint]
  simp only [hsquare, bind, Except.bind, pure, Except.pure]

theorem VectorField.bounds_map {γ : Type} (φ : γ → α) {x : DenseVector γ} {a : DenseMatrix γ}
    (hx : x.size = f.dim) (hr : a.rows = f.dim) (hc : a.cols = f.dim) :
    f.bounds (x.map φ) (a.map φ)
      = .ok (f.boundsAt (Vector.map φ ⟨x, hx⟩) ((a.grid.cast hr hc).map φ)) :=
  bounds_of_fits (x := x.map φ) (a := a.map φ) (Array.size_map.trans hx) hr hc

end Bounds

end CertifiedZeros
