import CertifiedZeros.Decimal.Notation

/-! # Broken calling contracts

Some operations ask for arguments of matching shape. A call that breaks such a contract has no
value and stops with a `Fault`; the cause is data, and `Fault.message?` gives its wording. An index
outside its range has no wording of its own, nor has a size beyond what can be counted or stored,
which `CertifiedZeros.Capacity` is about. -/

namespace CertifiedZeros

/-- **A broken calling contract.** Shapes are recorded as they were met. -/
inductive Fault where
  /-- The endpoints of an interval are out of order, or one of them is NaN. -/
  | invalidEndpoints (lo hi : Float)
  /-- A list of entries by columns does not fill the matrix. -/
  | columnDataLength (length rows cols : Nat)
  /-- A list of entries by rows does not fill the matrix. -/
  | rowDataLength (length rows cols : Nat)
  /-- A vector, or the rows of a matrix, do not match the dimension of a field. -/
  | fieldDimension (length dim : Nat)
  /-- The operands of a difference have different shapes. -/
  | differenceShapes (rows cols rows' cols' : Nat)
  /-- The inner dimensions of a matrix product differ. -/
  | productShapes (rows cols rows' cols' : Nat)
  /-- A matrix with `cols` columns is applied to a vector of another length. -/
  | applicationShapes (rows cols length : Nat)
  /-- A matrix that is not square is factored. -/
  | notSquare
  /-- A list of row numbers does not match the size of the matrix. -/
  | permutationLength
  /-- A right-hand side does not match the size of the matrix. -/
  | rightHandSideLength
  /-- The room for a solution does not match the size of the matrix. -/
  | solutionLength
  /-- A position outside the object it is looked up in. -/
  | outOfRange
  /-- A size that cannot be counted or stored. -/
  | tooLarge
deriving DecidableEq

/-- A shape as it is written in messages. -/
def Fault.shape (rows cols : Nat) : String := s!"{rows}x{cols}"

/-- **The wording of a fault.** A position out of range and a size out of bounds have none. -/
def Fault.message? : Fault → Option String
  | .invalidEndpoints lo hi =>
    some ("invalid interval endpoints: [" ++ Binary64.positional lo ++ ", "
      ++ Binary64.positional hi ++ "]")
  | .columnDataLength length rows cols =>
    some s!"vec length {length} does not match {rows}x{cols} matrix"
  | .rowDataLength length rows cols =>
    some s!"slice length {length} does not match {rows}x{cols} matrix"
  | .fieldDimension length dim =>
    some s!"vector length {length} does not match field dimension {dim}"
  | .differenceShapes rows cols rows' cols' =>
    some ("dimension mismatch: " ++ shape rows cols ++ " - " ++ shape rows' cols')
  | .productShapes rows cols rows' cols' =>
    some ("dimension mismatch: " ++ shape rows cols ++ " * " ++ shape rows' cols')
  | .applicationShapes rows cols length =>
    some ("dimension mismatch: " ++ shape rows cols ++ s!" * vector of length {length}")
  | .notSquare => some "LU decomposition requires a square matrix"
  | .permutationLength => some "permutation slice length must match matrix size"
  | .rightHandSideLength => some "rhs length mismatch"
  | .solutionLength => some "solution length mismatch"
  | .outOfRange | .tooLarge => none

end CertifiedZeros
