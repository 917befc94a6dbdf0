/-! # Binary64 scalars

`Float` is the plain number kind of the library. This file gives it the vocabulary that the
rest is written in:

* **`parts? x`** — the exact value of a finite float as a significand and a power of two, and
  **`nearest`**, the way back with one rounding.
* **`infinity`, `largest`, `epsilon`, `residualFloor`** — the constants of the format that rounding
  and pivoting rules mention.
* **`larger`, `smaller`** — maximum and minimum that a NaN never wins. -/

namespace CertifiedZeros

instance floatZero : Zero Float := ⟨0⟩

instance floatOne : One Float := ⟨1⟩

/-- A count as a float: exact up to `2 ^ 53`, rounded to nearest beyond. -/
instance floatNatCast : NatCast Float := ⟨Float.ofNat⟩

namespace Binary64

/-! ## Exact values -/

/-- **The exact value of a finite float**: a pair `(m, e)` with `x = m · 2 ^ e`. NaN and the two
infinities have none. -/
def parts? (x : Float) : Option (Int × Int) :=
  match x.toModel.unpack with
  | .zero _ => some (0, 0)
  | .finite sign m e _ => some (sign.apply m, e)
  | .infinity _ => none
  | .notANumber => none

/-- **The float nearest to `m · 2 ^ e`**, a tie going to the even significand. Zero is positive,
and a value too large for the format becomes an infinity of its sign. -/
def nearest (m e : Int) : Float :=
  .ofModel (.pack (.normalize Float.Model.Format.binary64 m e .positive))

/-! ## Constants of the format -/

/-- Positive infinity. -/
def infinity : Float := .ofBits 0x7FF0000000000000

/-- The largest finite float, `(2 - 2 ^ (-52)) · 2 ^ 1023`. -/
def largest : Float := .ofBits 0x7FEFFFFFFFFFFFFF

/-- The gap between `1` and the next float, `2 ^ (-52)`. -/
def epsilon : Float := .ofBits 0x3CB0000000000000

/-- The square root of `epsilon`, exactly `2 ^ (-26)`. -/
def sqrtEpsilon : Float := .ofBits 0x3E50000000000000

/-- The float nearest to `10 ^ (-290)`. The residual of a smaller product or quotient is not relied
upon, because it may itself underflow. -/
def residualFloor : Float := .ofBits 0x03B8F2B061AEA072

/-! ## Maximum and minimum -/

/-- **The larger of two floats**; a NaN gives way to the other operand. -/
def larger (x y : Float) : Float :=
  if x.isNaN then y else if y.isNaN then x else if x < y then y else x

/-- **The smaller of two floats**; a NaN gives way to the other operand. -/
def smaller (x y : Float) : Float :=
  if x.isNaN then y else if y.isNaN then x else if y < x then y else x

end Binary64

end CertifiedZeros
