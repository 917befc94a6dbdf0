import CertifiedZeros.Binary64.Basic

/-! # Neighbouring floats

The words of the non-negative floats count upwards with their values, and those of the negative
floats count downwards, so a neighbour is one word away. Only the two zeros share a value: from
either of them the next float is the smallest subnormal.

* **`nextUp x`** — the least float above `x`; infinity and NaN are left alone.
* **`nextDown x`** — the greatest float below `x`, by symmetry. -/

namespace CertifiedZeros.Binary64

/-- **The least float above `x`.** Positive infinity has none and stays, and so does a NaN. -/
def nextUp (x : Float) : Float :=
  if x.isNaN || x == infinity then x
  else if x == 0 then .ofBits 1
  else if 0 < x then .ofBits (x.toBits + 1)
  else .ofBits (x.toBits - 1)

/-- **The greatest float below `x`**, as for `nextUp` with the signs exchanged. -/
def nextDown (x : Float) : Float :=
  -nextUp (-x)

end CertifiedZeros.Binary64
