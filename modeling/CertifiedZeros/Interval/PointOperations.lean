import CertifiedZeros.Binary64.FusedMultiplyAdd
import CertifiedZeros.Binary64.Neighbours
import CertifiedZeros.Interval.Basic

/-! # Sums, products and quotients of two floats as intervals

Each operation rounds to nearest and then asks on which side of the rounded result the exact one
lies. The rounding error of a sum is a float that two more additions and subtractions produce, and
that of a product or quotient is a fused multiply-add away. When the error vanishes the interval
is a point; otherwise it reaches to the neighbour on the side of the exact result.

* **`ofSum a b`**, **`ofDifference a b`**, **`ofProduct a b`**, **`ofQuotient a b`** — the interval
  of the rounded result and what lies between it and the exact one.
* **`besides s err`** — the interval from `s` to its neighbour on the side of `err`.
* **`around s`** — from the neighbour below to the neighbour above, for results so small that
  their rounding error may underflow.
* **`ofOverflow s`** — what an infinite result of finite operands stands for. -/

namespace CertifiedZeros.Interval

open Binary64

/-- **The interval from `s` to its neighbour** on the side that the sign of `err` points to; a
point when `err` has no sign. -/
def besides (s err : Float) : Interval :=
  if 0 < err then ⟨s, nextUp s⟩
  else if err < 0 then ⟨nextDown s, s⟩
  else point s

/-- The interval from the neighbour below `s` to the neighbour above. -/
def around (s : Float) : Interval :=
  ⟨nextDown s, nextUp s⟩

/-- **The reals that an infinite result stands for**: those beyond the largest float of its sign.
A NaN stands for itself. -/
def ofOverflow (s : Float) : Interval :=
  if s == infinity then ⟨largest, infinity⟩
  else if s == -infinity then ⟨-infinity, -largest⟩
  else point s

/-- The rounding error of `a + b` around the rounded sum `s`: `a + b = s + sumError a b s`. -/
def sumError (a b s : Float) : Float :=
  let b' := s - a
  (a - (s - b')) + (b - b')

/-- **An interval around `a + b`.** An infinite or NaN operand gives its sum as a point. -/
def ofSum (a b : Float) : Interval :=
  let s := a + b
  if s.isFinite then besides s (sumError a b s)
  else if a.isFinite && b.isFinite then ofOverflow s
  else point s

/-- **An interval around `a - b`.** -/
def ofDifference (a b : Float) : Interval :=
  ofSum a (-b)

/-- **An interval around `a · b`**, where a zero factor makes the product zero even against an
infinity. -/
def ofProduct (a b : Float) : Interval :=
  if a == 0 || b == 0 then 0
  else
    let p := a * b
    if p.isFinite then
      if p.abs < residualFloor then around p else besides p (fma a b (-p))
    else if a.isFinite && b.isFinite then ofOverflow p
    else point p

/-- **An interval around `a / b`** for a divisor other than zero. On which side of the rounded
quotient `q` the exact one lies is read off the remainder `a - q · b`, rounded once, and the sign
of the divisor. -/
def ofQuotient (a b : Float) : Interval :=
  if a == 0 then 0
  else
    let q := a / b
    if q.isFinite then
      if q.abs < residualFloor || b.isInf then around q
      else
        let r := fma (-q) b a
        besides q (if b > 0 then r else -r)
    else if a.isFinite then ofOverflow q
    else point q

end CertifiedZeros.Interval
