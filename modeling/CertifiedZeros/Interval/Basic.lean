import CertifiedZeros.Fault
import CertifiedZeros.Magnitude

/-! # Intervals

A closed interval with float endpoints is the rigorous number kind of the library: it stands for
any of its members, and operations on intervals round their endpoints outwards. The endpoints are
data without an invariant, so that NaN and infinities pass through a computation and can be refused
at its end; `ofEndpoints` is the checked constructor.

This file holds what needs no rounding: endpoints, membership, order, absolute value and maximum. -/

namespace CertifiedZeros

/-- **A closed interval** `[lo, hi]` of reals. The equality test `==` compares the endpoints
as numbers: the two zeros are equal, and NaN equals nothing. -/
structure Interval where
  lo : Float
  hi : Float
deriving DecidableEq

namespace Interval

instance : BEq Interval := ⟨fun x y => x.lo == y.lo && x.hi == y.hi⟩

instance : Zero Interval := ⟨⟨0, 0⟩⟩

instance : One Interval := ⟨⟨1, 1⟩⟩

/-- **The interval of one number**, `[x, x]`. -/
def point (x : Float) : Interval := ⟨x, x⟩

instance : NatCast Interval := ⟨fun n => point n⟩

/-- The whole real line. -/
def entire : Interval := ⟨-Binary64.infinity, Binary64.infinity⟩

/-- **The interval `[lo, hi]`**, refused unless `lo ≤ hi`. A NaN endpoint is refused, too. -/
def ofEndpoints (lo hi : Float) : Except Fault Interval :=
  if lo ≤ hi then .ok ⟨lo, hi⟩ else .error (.invalidEndpoints lo hi)

/-- Whether the endpoints are the same number. -/
def isPoint (x : Interval) : Bool :=
  x.lo == x.hi

/-- **The midpoint**, rounded to nearest. Halving the endpoints first keeps it from overflowing. -/
def mid (x : Interval) : Float :=
  if x.isPoint then x.lo else 0.5 * x.lo + 0.5 * x.hi

/-- Whether a float lies between the endpoints. -/
def contains (x : Interval) (a : Float) : Bool :=
  x.lo ≤ a && a ≤ x.hi

/-- **Certain strict comparison**: every member of `x` lies below every member of `y`. Overlapping
intervals are not comparable in either direction. -/
def strictlyBelow (x y : Interval) : Bool :=
  x.hi < y.lo

/-- The smallest interval around both operands. -/
def hull (x y : Interval) : Interval :=
  ⟨Binary64.smaller x.lo y.lo, Binary64.larger x.hi y.hi⟩

/-- The negatives of the members. -/
def neg (x : Interval) : Interval :=
  ⟨-x.hi, -x.lo⟩

instance : Neg Interval := ⟨neg⟩

/-- **The absolute values of the members**, by the sign of the interval. -/
def abs (x : Interval) : Interval :=
  if x.lo ≥ 0 then x
  else if x.hi ≤ 0 then -x
  else ⟨0, Binary64.larger x.hi (-x.lo)⟩

/-- **The maxima of members**: the maximum is monotone in both operands, so the endpoints go with
the endpoints. -/
def larger (x y : Interval) : Interval :=
  ⟨Binary64.larger x.lo y.lo, Binary64.larger x.hi y.hi⟩

instance : Magnitude Interval where
  abs := abs
  larger := larger

/-- The text of an interval, its endpoints in scientific notation. -/
def text (x : Interval) : String :=
  "[" ++ Binary64.scientific x.lo ++ ", " ++ Binary64.scientific x.hi ++ "]"

end Interval

end CertifiedZeros
