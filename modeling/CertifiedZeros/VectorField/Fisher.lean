import CertifiedZeros.PhaseNorm

/-! # Steady states of the Fisher equation

A symmetric profile is given by its cosine modes `x 0, …, x N`, and the modes of negative index
are reflections, `x (-k) = x k`. In these modes a steady state satisfies

`f k = (λ - k²) · x k - λ · (x ∗ x) k = 0`,

where `∗` is the convolution of modes, cut off beyond index `N`. It is measured in a norm of
choice, by default that of cosine series of ratio one.

* **`convolution x`** — the square `x ∗ x`.
* **`value`**, **`derivative`** — the field and its derivative, each entry in closed form.
* **`z2`** — the measure of the second derivative under a matrix. -/

namespace CertifiedZeros

/-- **The parameters of the Fisher field**: the coefficient `λ`, the truncation order `N`, and the
norm it is measured in. -/
structure Fisher (α : Type) where
  coefficient : α
  order : Nat
  norm : PhaseNorm α

namespace Fisher

variable {α β : Type}

/-- The field measured in the norm of cosine series of ratio one. -/
def withCosineNorm [One α] (coefficient : α) (order : Nat) : Fisher α :=
  ⟨coefficient, order, .cosine 1⟩

/-- The same field over another kind of number. -/
def map (f : α → β) (p : Fisher α) : Fisher β :=
  ⟨f p.coefficient, p.order, p.norm.map f⟩

/-- The number of modes, the constant one included. -/
def dim (p : Fisher α) : Nat := p.order + 1

/-! ## Convolution -/

/-- The first factor of term `t` in component `k` of a convolution. The mode indices of the terms
run from `k - N` up to `N`; a negative one is reflected. -/
def firstMode {N : Nat} (k : Fin (N + 1)) (t : Fin (2 * N + 1 - k)) : Fin (N + 1) :=
  ⟨((k : Int) - N + t).natAbs, by omega⟩

/-- The second factor of that term: the index that completes the first one to `k`, which is
`N - t`, reflected when it is negative. -/
def secondMode {N : Nat} (k : Fin (N + 1)) (t : Fin (2 * N + 1 - k)) : Fin (N + 1) :=
  ⟨((N : Int) - t).natAbs, by omega⟩

/-- **The convolution square** `(x ∗ x) k = ∑ x |i| · x |k - i|`, over the indices `i` for which
neither factor lies beyond the truncation. -/
def convolution [Zero α] [Add α] [Mul α] {N : Nat} (x : Vector α (N + 1)) : Vector α (N + 1) :=
  Vector.ofFn fun k => leftSum fun t => x.get (firstMode k t) * x.get (secondMode k t)

/-! ## The field -/

/-- The linear factor `λ - k²` of mode `k`. -/
def linear [NatCast α] [Sub α] (p : Fisher α) (k : Nat) : α :=
  p.coefficient - ((k * k : Nat) : α)

/-- **The field at a point.** -/
def value [Zero α] [NatCast α] [Add α] [Sub α] [Mul α] (p : Fisher α)
    (x : Vector α (p.order + 1)) : Vector α (p.order + 1) :=
  let square := convolution x
  Vector.ofFn fun k => p.linear k * x.get k - p.coefficient * square.get k

/-- The distance between two modes. -/
def distance {N : Nat} (k l : Fin (N + 1)) : Fin (N + 1) :=
  ⟨((k : Int) - l).natAbs, by omega⟩

/-- **The derivative at a point.** Mode `l` enters component `k` through itself and, when it has a
reflection of its own that stays inside the truncation, through that one too. -/
def derivative [NatCast α] [Add α] [Sub α] [Neg α] [Mul α] (p : Fisher α)
    (x : Vector α (p.order + 1)) : Grid (p.order + 1) (p.order + 1) α :=
  let twice := ((2 : Nat) : α) * p.coefficient
  .ofFn fun k l =>
    let direct := -(twice * x.get (distance k l))
    let reflected :=
      if h : 0 < l.val ∧ k.val + l.val ≤ p.order then
        direct - twice * x.get ⟨k + l, by omega⟩
      else direct
    if k = l then reflected + p.linear k else reflected

/-- **The measure of the second derivative under a matrix**. The second derivative is `-2 λ` times a
convolution, so it is `2 |λ|` times the norm of the matrix. -/
def z2 [Zero α] [One α] [NatCast α] [Add α] [Mul α] [Div α] [Pow α Nat] [Magnitude α]
    (p : Fisher α) {m n : Nat} (a : Grid m n α) : α :=
  ((2 : Nat) : α) * Magnitude.abs p.coefficient * p.norm.ofGrid a

end Fisher

end CertifiedZeros
