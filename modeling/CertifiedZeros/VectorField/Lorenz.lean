import CertifiedZeros.Interval.Power
import CertifiedZeros.PhaseNorm

/-! # The Lorenz system

The three-dimensional field `f(x, y, z) = (σ (y - x), ρ x - y - x z, x y - β z)`, its derivative,
and the measure of its second derivative under a matrix. It is measured in the maximum norm. -/

namespace CertifiedZeros

/-- **The parameters of the Lorenz system.** -/
structure Lorenz (α : Type) where
  sigma : α
  rho : α
  beta : α

namespace Lorenz

variable {α β : Type}

/-- The same system over another kind of number. -/
def map (f : α → β) (p : Lorenz α) : Lorenz β :=
  ⟨f p.sigma, f p.rho, f p.beta⟩

/-- **The classical parameters** `σ = 10`, `ρ = 28`, `β = 8/3`, with an enclosure of the last. -/
def classical : Lorenz Interval where
  sigma := .point 10
  rho := .point 28
  beta := .point 8 / .point 3

/-- **The field at a point.** -/
def value [Add α] [Sub α] [Neg α] [Mul α] (p : Lorenz α) (v : Vector α 3) : Vector α 3 :=
  let x := v[0]
  let y := v[1]
  let z := v[2]
  #v[p.sigma * (y - x), p.rho * x - y - x * z, -p.beta * z + x * y]

/-- **The derivative at a point**, row by row the partial derivatives of a component. -/
def derivative [Zero α] [One α] [Sub α] [Neg α] (p : Lorenz α) (v : Vector α 3) : Grid 3 3 α :=
  let x := v[0]
  let y := v[1]
  let z := v[2]
  let rows : Vector (Vector α 3) 3 :=
    #v[#v[-p.sigma, p.sigma, 0], #v[p.rho - z, -1, -x], #v[y, x, -p.beta]]
  .ofFn fun i j => (rows.get i).get j

/-- **The measure of the second derivative under a matrix** `A` of three rows. The second derivative
lives in the last two components alone, through `x z` and `x y`, so it is twice the
largest `|A i 1| + |A i 2|`. -/
def z2 [Zero α] [NatCast α] [Add α] [Mul α] [Magnitude α] {n : Nat} (a : Grid 3 n α) (h : 2 < n) :
    α :=
  ((2 : Nat) : α) * leftMax fun i =>
    Magnitude.abs (a.get i ⟨1, by omega⟩) + Magnitude.abs (a.get i ⟨2, h⟩)

end Lorenz

end CertifiedZeros
