import CertifiedZeros.Binary64.Basic

/-! # Fused multiply-add

`fma a b c` is `a · b + c` rounded once. With finite operands the sum is formed exactly, on a
common power of two, and only then rounded; so `fma a b (-(a * b))` is the rounding error of a
product, exact as long as it does not underflow. -/

namespace CertifiedZeros.Binary64

/-- The exact sum `m₁ · 2 ^ e₁ + m₂ · 2 ^ e₂` as a significand over the smaller power of two. -/
def alignedSum (m₁ e₁ m₂ e₂ : Int) : Int × Int :=
  let e := min e₁ e₂
  (m₁ <<< (e₁ - e).toNat + m₂ <<< (e₂ - e).toNat, e)

/-- **`a · b + c` with a single rounding.** When the product vanishes there is nothing to round,
and the signs of zeros are those of a plain multiplication and addition; when `a` or `b` is not
finite the product is a special value, and again the plain operations say what follows. A finite
product cannot change an infinite or NaN `c`. -/
def fma (a b c : Float) : Float :=
  match parts? a, parts? b with
  | some (ma, ea), some (mb, eb) =>
    match parts? c with
    | some (mc, ec) =>
      if ma * mb = 0 then a * b + c
      else
        let (m, e) := alignedSum (ma * mb) (ea + eb) mc ec
        nearest m e
    | none => c
  | _, _ => a * b + c

end CertifiedZeros.Binary64
