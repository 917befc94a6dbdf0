import CertifiedZeros.Binary64.Basic

/-! # Shortest decimals

The decimal numeral of a float has the fewest significant digits that still read back as the same
float, and among those it is the nearest one. This file finds it in exact natural arithmetic:

* **`Decimal`** — a numeral `digits · 10 ^ exponent`.
* **`RoundingInterval`** — the reals that round to a given positive float, ends included exactly
  when its significand is even.
* **`RoundingInterval.readsBack`** — whether a multiple of a power of ten lies in that interval.
* **`RoundingInterval.onGrid?`** — the best such multiple.
* **`RoundingInterval.shortest`** — the first hit on ever finer grids. -/

namespace CertifiedZeros

/-- A decimal numeral: the number `digits · 10 ^ exponent`. -/
structure Decimal where
  digits : Nat
  exponent : Int
deriving Repr, DecidableEq

/-- **The reals that round to a positive float**, in multiples of `2 ^ exponent`. The float itself
is `middle`; a real between `low` and `high` rounds to it, and so do the two ends when
`endsIncluded` holds. -/
structure RoundingInterval where
  low : Nat
  middle : Nat
  high : Nat
  exponent : Int
  endsIncluded : Bool
deriving Repr, DecidableEq

namespace RoundingInterval

/-- The least significand of a normal float, `2 ^ 52`. -/
def leastNormalSignificand : Nat := 0x10000000000000

/-- The rounding interval of `m · 2 ^ e`, in quarters of the last place. The gap below a power of
two is half the gap above it, unless the float is the least normal one. -/
def ofParts (m : Nat) (e : Int) : RoundingInterval where
  low := if m = leastNormalSignificand ∧ e ≠ -1074 then 4 * m - 1 else 4 * m - 2
  middle := 4 * m
  high := 4 * m + 2
  exponent := e - 2
  endsIncluded := m % 2 = 0

/-- How many decimal digits a number has; zero has none. -/
def digitCount (n : Nat) : Nat :=
  if n = 0 then 0 else digitCount (n / 10) + 1
termination_by n
decreasing_by omega

/-- The exponent of the leading digit of the float: the greatest `k` with `10 ^ k` at most its
value. -/
def leadingExponent (v : RoundingInterval) : Int :=
  let num := v.middle <<< v.exponent.toNat
  let den := 1 <<< (-v.exponent).toNat
  if den ≤ num then digitCount (num / den) - 1
  else -(digitCount ((den - 1) / num) : Int)

/-- `10 ^ k` as a whole number, in the common measure of the decimal grid and the binary one. -/
def unit (v : RoundingInterval) (k : Int) : Nat :=
  Nat.pow 10 k.toNat <<< (-v.exponent).toNat

/-- `2 ^ exponent` in the same measure. -/
def scale (v : RoundingInterval) (k : Int) : Nat :=
  Nat.pow 10 (-k).toNat <<< v.exponent.toNat

/-- **Whether `c · 10 ^ k` reads back as the float.** -/
def readsBack (v : RoundingInterval) (k : Int) (c : Nat) : Bool :=
  let number := c * v.unit k
  let low := v.low * v.scale k
  let high := v.high * v.scale k
  if v.endsIncluded then low ≤ number && number ≤ high
  else low < number && number < high

/-- **The multiple of `10 ^ k` nearest to the float, if it reads back.** Of the two multiples
around the float, those outside the rounding interval are refused; if both remain the nearer wins
and an exact half goes up. -/
def onGrid? (v : RoundingInterval) (k : Int) : Option Nat :=
  let unit := v.unit k
  let middle := v.middle * v.scale k
  let below := middle / unit
  match v.readsBack k below, v.readsBack k (below + 1) with
  | true, true => some (if 2 * middle < (2 * below + 1) * unit then below else below + 1)
  | true, false => some below
  | false, true => some (below + 1)
  | false, false => none

/-- **The shortest numeral of the float**: grids of one digit, two digits and so on are tried in
turn. Seventeen digits always tell a binary64 value apart, so the search ends with a hit. -/
def shortest (v : RoundingInterval) : Decimal :=
  let top := v.leadingExponent
  let hit? (places : Nat) : Option Decimal :=
    (v.onGrid? (top - places)).map fun digits => ⟨digits, top - places⟩
  ((List.range 17).findSome? hit?).getD ⟨0, 0⟩

end RoundingInterval

end CertifiedZeros
