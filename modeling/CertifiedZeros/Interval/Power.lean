import CertifiedZeros.Interval.Arithmetic

/-! # Interval powers

A power of a non-negative number is bounded from either side by a chain of products that round the
same way. Even powers are taken of absolute values, odd powers keep the sign of each endpoint. -/

namespace CertifiedZeros.Interval

/-- An upper bound of `x ^ n` for `x ≥ 0`, by `n` products rounded up. -/
def powerAbove (x : Float) (n : Nat) : Float :=
  n.repeat (fun acc => (ofProduct acc x).hi) 1

/-- A lower bound of `x ^ n` for `x ≥ 0`, by `n` products rounded down. -/
def powerBelow (x : Float) (n : Nat) : Float :=
  n.repeat (fun acc => (ofProduct acc x).lo) 1

/-- **The `n`-th powers of members.** -/
def power (x : Interval) (n : Nat) : Interval :=
  if n = 0 then 1
  else if n % 2 = 0 then
    let a := x.abs
    ⟨powerBelow a.lo n, powerAbove a.hi n⟩
  else
    { lo := if x.lo ≥ 0 then powerBelow x.lo n else -powerAbove (-x.lo) n
      hi := if x.hi ≥ 0 then powerAbove x.hi n else -powerBelow (-x.hi) n }

instance : Pow Interval Nat := ⟨power⟩

/-- **The integer powers of members**: a negative exponent takes reciprocals. -/
def integerPower (x : Interval) (n : Int) : Interval :=
  let p := x ^ n.natAbs
  if n < 0 then p.recip else p

end CertifiedZeros.Interval
