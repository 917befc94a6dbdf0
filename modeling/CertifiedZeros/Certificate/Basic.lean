import CertifiedZeros.Bounds

/-! # Certificates

With the bounds `y0`, `z0` and `z2`, the radii polynomial is `p(r) = z2 · r² - (1 - z0) · r + y0`.
A positive radius at which it is negative proves that the field has exactly one zero in the ball
of that radius around the approximate one. The search for such a radius is done in floats, with
the upper endpoints of the bounds; the decisive test is done in intervals.

* **`Bounds.polynomialAt`** — the polynomial over intervals.
* **`Bounds.roots?`** — the two roots of the polynomial, when they are real.
* **`Witness`** — where the polynomial is tested: between the roots, or at both ends of a band.
* **`Bounds.certify`** — the test, with everything that is needed to check it by hand in a
  **`Report`**. -/

namespace CertifiedZeros

/-- **Where the polynomial is tested.** -/
inductive Witness where
  /-- At the midpoint of the roots. -/
  | midpoint
  /-- At both ends of a band between the roots. The zero is then known to exist within `lo` and to
  be unique within `hi`. -/
  | band (lo hi : Float)
deriving DecidableEq

/-- **Why nothing was certified.** -/
inductive Obstacle where
  /-- `z0` is not below one. -/
  | notContracting
  /-- The polynomial has no real roots. -/
  | negativeDiscriminant
  /-- The roots leave no room between them. -/
  | noInterior
  /-- The band does not lie strictly between the roots. -/
  | witnessOutside
  /-- The value of the polynomial at the witness may not be negative. -/
  | notNegative
deriving DecidableEq

/-- **The verdict of the certifier.** -/
inductive Verdict where
  | certified
  | notCertified (obstacle : Obstacle)
deriving DecidableEq

/-- **What the certifier found.** -/
structure Report where
  verdict : Verdict
  /-- The upper endpoints of the bounds. -/
  bounds : Bounds Float
  /-- The roots of the polynomial, the smaller one first; the larger one is infinite when the
  polynomial is linear. -/
  roots : Option (Float × Float) := none
  /-- The radius or band at which the polynomial was tested. -/
  testedAt : Option Interval := none
  /-- An enclosure of the values found there. -/
  value : Option Interval := none
deriving DecidableEq

namespace Report

/-- Whether a zero was certified. -/
def isCertified (r : Report) : Bool := r.verdict = .certified

/-- The radius within which the zero is known to exist. -/
def radius? (r : Report) : Option Float := r.testedAt.map (·.lo)

end Report

/-- **The radii polynomial** over intervals, at a radius or at an interval of radii. -/
def Bounds.polynomialAt (b : Bounds Interval) (r : Interval) : Interval :=
  b.z2 * r ^ (2 : Nat) - (1 - b.z0) * r + b.y0

/-- **The roots of the radii polynomial** in floats. With `b = 1 - z0` and the discriminant `d`, the
number `q = (b + √d) / 2` gives the roots `y0 / q` and `q / z2` without cancellation. There are
none when the discriminant is negative or NaN. -/
def Bounds.roots? (upper : Bounds Float) : Option (Float × Float) :=
  let b := 1 - upper.z0
  let discriminant := b * b - 4 * upper.z2 * upper.y0
  if 0 ≤ discriminant then
    let q := 0.5 * (b + discriminant.sqrt)
    some (upper.y0 / q, if 0 < upper.z2 then q / upper.z2 else Binary64.infinity)
  else none

/-- The radius tested by the midpoint witness: between the roots, or at twice the smaller root when
the larger one is infinite. -/
def midRadius (r₁ r₂ : Float) : Float :=
  if r₂.isFinite then r₁ + 0.5 * (r₂ - r₁) else 2 * r₁

/-- **The radii that a witness tests, and an enclosure of the polynomial there.** At a band it is
the hull of the values at both ends, which the polynomial does not exceed in between, because it
is convex. A band that does not lie between the roots tests nothing. -/
def Witness.test (w : Witness) (b : Bounds Interval) (r₁ r₂ : Float) :
    Except Fault (Option (Interval × Interval)) :=
  match w with
  | .midpoint =>
    let r := Interval.point (midRadius r₁ r₂)
    .ok (some (r, b.polynomialAt r))
  | .band lo hi =>
    if r₁ < lo ∧ lo ≤ hi ∧ hi < r₂ then do
      let atLo := b.polynomialAt (.point lo)
      let atHi := b.polynomialAt (.point hi)
      let radii ← Interval.ofEndpoints lo hi
      return some (radii, atLo.hull atHi)
    else .ok none

/-- **The radii polynomial test** at a witness. -/
def Bounds.certify (b : Bounds Interval) (w : Witness) : Except Fault Report :=
  let upper := b.upper
  if upper.z0 < 1 then
    match upper.roots? with
    | none => .ok { verdict := .notCertified .negativeDiscriminant, bounds := upper }
    | some (r₁, r₂) =>
      let stopped (obstacle : Obstacle) : Report :=
        { verdict := .notCertified obstacle, bounds := upper, roots := some (r₁, r₂) }
      if r₁ < r₂ then do
        match ← w.test b r₁ r₂ with
        | none => return stopped .witnessOutside
        | some (radii, value) =>
          return {
            verdict := if value.strictlyBelow 0 then .certified else .notCertified .notNegative
            bounds := upper
            roots := some (r₁, r₂)
            testedAt := some radii
            value := some value }
      else .ok (stopped .noInterior)
  else .ok { verdict := .notCertified .notContracting, bounds := upper }

/-- **The test at the midpoint witness** of float bounds that are taken as exact. -/
def Bounds.certifyExact (b : Bounds Float) : Except Fault Report :=
  b.lift.certify .midpoint

end CertifiedZeros
