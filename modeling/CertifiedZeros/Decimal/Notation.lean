import CertifiedZeros.Decimal.Shortest

/-! # Written floats

Two notations for floats, both built on the shortest numeral:

* **`Binary64.scientific`** — one digit before the point and a power of ten, as in `1.5e-7`; it is
  the notation of reports and error messages.
* **`Binary64.positional`** — digits alone, never an exponent, as in `0.00000015`; it is the
  notation of the endpoints in a refused interval.

A fraction is written only when it is not empty, and trailing zeros are not part of it. Special
values are `NaN`, `inf` and `-inf`; the sign of zero is written. -/

namespace CertifiedZeros

namespace Decimal

/-- The significant digits, without trailing zeros. -/
def significant (d : Decimal) : List Char :=
  ((Nat.toDigits 10 d.digits).reverse.dropWhile (· == '0')).reverse

/-- A fraction after the decimal point, left out when it is empty. -/
def fraction (digits : List Char) : List Char :=
  if digits.isEmpty then [] else '.' :: digits

/-- **Scientific notation**: the leading digit, the others as a fraction, and the power of ten of
the leading digit. -/
def scientific (d : Decimal) : String :=
  let power := d.exponent + ((Nat.toDigits 10 d.digits).length - 1 : Nat)
  let ds := d.significant
  String.ofList (ds.take 1 ++ fraction (ds.drop 1)) ++ "e" ++ toString power

/-- **Positional notation**: the digits around the decimal point, with zeros to fill the places
between the point and the digits. -/
def positional (d : Decimal) : String :=
  let ds := Nat.toDigits 10 d.digits
  if 0 ≤ d.exponent then String.ofList (ds ++ List.replicate d.exponent.toNat '0')
  else
    let places := (-d.exponent).toNat
    let whole := ds.take (ds.length - places)
    let part := List.replicate (places - ds.length) '0' ++ ds.drop (ds.length - places)
    let kept := (part.reverse.dropWhile (· == '0')).reverse
    String.ofList ((if whole.isEmpty then ['0'] else whole) ++ fraction kept)

end Decimal

namespace Binary64

/-- Whether the sign bit of a float is set. -/
def isNegative (x : Float) : Bool :=
  x.toBits >>> 63 == 1

/-- The text of a float in a notation for decimals, given the text of zero in that notation. -/
def written (zero : String) (layout : Decimal → String) (x : Float) : String :=
  let sign := if isNegative x then "-" else ""
  match x.toModel.unpack with
  | .notANumber => "NaN"
  | .infinity _ => sign ++ "inf"
  | .zero _ => sign ++ zero
  | .finite _ m e _ => sign ++ layout (RoundingInterval.ofParts m e).shortest

/-- **A float in scientific notation**, such as `1.5e-7`, `1e0` or `-0e0`. -/
def scientific (x : Float) : String :=
  written "0e0" Decimal.scientific x

/-- **A float in positional notation**, such as `0.00000015`, `1` or `-0`. -/
def positional (x : Float) : String :=
  written "0" Decimal.positional x

end Binary64

end CertifiedZeros
