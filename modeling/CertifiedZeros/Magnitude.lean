import CertifiedZeros.Binary64.Power

/-! # Magnitudes

Norms are sums and maxima of absolute values. A kind of number that they are taken over therefore
has, besides its arithmetic, an absolute value and a maximum. Both kinds of the library have them:
floats here, and intervals in `CertifiedZeros.Interval.Basic`, where the maximum encloses the
maxima of all members. -/

namespace CertifiedZeros

/-- **Absolute value and maximum** of a kind of number. -/
class Magnitude (α : Type) where
  /-- The absolute value. -/
  abs : α → α
  /-- The larger of two numbers. -/
  larger : α → α → α

instance : Magnitude Float where
  abs := Float.abs
  larger := Binary64.larger

end CertifiedZeros
