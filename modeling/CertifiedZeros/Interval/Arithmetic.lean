import CertifiedZeros.Interval.PointOperations

/-! # Interval arithmetic

Sums and differences are monotone in each operand, so an endpoint of the result comes from two
endpoints of the operands. A product or quotient takes its extremes at endpoints, too, but which
ones depends on signs: the hull of the four combinations holds them all. -/

namespace CertifiedZeros.Interval

/-- **The sums of members.** -/
def add (x y : Interval) : Interval :=
  ⟨(ofSum x.lo y.lo).lo, (ofSum x.hi y.hi).hi⟩

/-- **The differences of members.** -/
def sub (x y : Interval) : Interval :=
  ⟨(ofDifference x.lo y.hi).lo, (ofDifference x.hi y.lo).hi⟩

/-- The hull of an operation at the four pairs of endpoints. -/
def corners (op : Float → Float → Interval) (x y : Interval) : Interval :=
  ((op x.lo y.lo).hull (op x.lo y.hi)).hull (op x.hi y.lo) |>.hull (op x.hi y.hi)

/-- **The products of members.** A zero operand gives zero, whatever the other one holds. -/
def mul (x y : Interval) : Interval :=
  if x == 0 || y == 0 then 0 else corners ofProduct x y

/-- **The quotients of members.** A divisor that holds zero gives the whole line. -/
def div (x y : Interval) : Interval :=
  if y.lo ≤ 0 && y.hi ≥ 0 then entire else corners ofQuotient x y

instance : Add Interval := ⟨add⟩

instance : Sub Interval := ⟨sub⟩

instance : Mul Interval := ⟨mul⟩

instance : Div Interval := ⟨div⟩

/-- The reciprocals of members. -/
def recip (x : Interval) : Interval :=
  1 / x

end CertifiedZeros.Interval
