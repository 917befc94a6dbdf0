import CertifiedZeros.Binary64.Basic

/-! # Powers by repeated squaring

An integer power of a float is computed from the binary digits of the exponent, least significant
first. The order of the multiplications is part of the meaning, because each of them rounds. -/

namespace CertifiedZeros.Binary64

/-- The product of `acc` with `x ^ n`: the running square of `x` joins the product at each binary
digit `1` of `n`. -/
def powerFrom (acc x : Float) (n : Nat) : Float :=
  if h : n = 0 then acc
  else powerFrom (if n % 2 = 1 then acc * x else acc) (x * x) (n / 2)
termination_by n
decreasing_by omega

/-- **The natural power** `x ^ n`, with `x ^ 0 = 1` for every `x`. -/
def power (x : Float) (n : Nat) : Float :=
  powerFrom 1 x n

instance floatPow : Pow Float Nat := ⟨power⟩

/-- **The integer power**: a negative exponent takes the reciprocal of the positive power. -/
def integerPower (x : Float) (n : Int) : Float :=
  let p := x ^ n.natAbs
  if n < 0 then 1 / p else p

end CertifiedZeros.Binary64
