import Mathlib.Algebra.GroupWithZero.Nat
import Mathlib.Data.Nat.Init

/-! # Numerals

A numeral of a ring, or of the indices below a bound, rests on a fact about its size. Here these
facts have names of their own, so that a definition with such a numeral is the same term wherever it
stands.

* **`atLeastTwo_two`** — for the numeral `2` of a ring.
* **`VectorField.neZero_three`** — for the indices of a system of dimension three. -/

namespace CertifiedZeros

instance atLeastTwo_two : Nat.AtLeastTwo 2 := ⟨Nat.le_refl 2⟩

namespace VectorField

scoped instance neZero_three : NeZero 3 := ⟨by decide⟩

end VectorField

end CertifiedZeros
