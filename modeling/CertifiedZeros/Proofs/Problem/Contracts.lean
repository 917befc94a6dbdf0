import CertifiedZeros.Proofs.MatrixLayout
import CertifiedZeros.Proofs.Problem.Stages

/-! # Calling contracts inside a run

A run works on vectors and grids whose shapes are known, so none of its operations can be called
wrongly. The same run can be written with the checked operations on arrays and matrices of any
shape, each of which stops with a `Fault` when its contract is broken:

* **`Newton.iterateChecked`**, **`VectorField.approximateInverseChecked`**,
  **`VectorField.boundsChecked`** — the stages in this form.
* **`Problem.proveChecked`** — the whole run.

On data of the dimension of the field every contract is kept: each stage agrees with its typed
form. -/

namespace CertifiedZeros

/-! ## Checked operations on data that fits -/

section Fits

variable {α : Type} {n : ℕ}

theorem VectorField.pointOfDim_toArray (x : Vector α n) :
    VectorField.pointOfDim n x.toArray = .ok x :=
  dif_pos x.size_toArray

theorem DenseVector.sub_toArray [Sub α] (x y : Vector α n) :
    DenseVector.sub x.toArray y.toArray = .ok (x.zipWith (· - ·) y).toArray :=
  if_pos (x.size_toArray.trans y.size_toArray.symm)

theorem DenseMatrix.sub_ofGrid [Sub α] (a b : Grid n n α) :
    (DenseMatrix.ofGrid a).sub (.ofGrid b) = .ok (.ofGrid (a.sub b)) :=
  dif_pos ⟨rfl, rfl⟩

/-- **A square matrix is factored** as the grid of its entries. -/
theorem DenseMatrix.factored_ofGrid (a : Grid n n Float) :
    (DenseMatrix.ofGrid a).factored = match LU.factor .binary64 a with
      | .ok f => .ok ⟨n, f⟩
      | .error _ => .error .singular := by
  simp only [factored, eliminated, ofGrid, Grid.cast_rfl, dite_true, if_true]
  cases LU.factor .binary64 a <;> rfl

/-- **A square system is solved** by the sweeps over the factors. -/
theorem DenseMatrix.solve_ofGrid (a : Grid n n Float) (b : Vector Float n) :
    (DenseMatrix.ofGrid a).solve b.toArray = match LU.factor .binary64 a with
      | .ok f => .ok (f.solve b).toArray
      | .error _ => .error .singular := by
  rw [solve, factored_ofGrid]
  cases LU.factor .binary64 a with
  | error s => rfl
  | ok f =>
    have hsolve : (Factored.mk n f).solve b.toArray = .ok (f.solve b).toArray :=
      dif_pos b.size_toArray
    simp only [bind, Except.bind, hsolve, pure, Except.pure]

theorem DenseMatrix.inverse_ofGrid (a : Grid n n Float) :
    (DenseMatrix.ofGrid a).inverse = match LU.factor .binary64 a with
      | .ok f => .ok (.ofGrid f.inverse)
      | .error _ => .error .singular := by
  rw [inverse, factored_ofGrid]
  cases LU.factor .binary64 a <;> rfl

theorem DenseMatrix.identity_of_lt [Zero α] [One α] (hroom : n * n < storageLimit) :
    (DenseMatrix.identity n : Except Fault (DenseMatrix α)) = .ok (.ofGrid (.identity n)) := by
  rw [identity, requireRoom_of_lt hroom]
  rfl

theorem PhaseNorm.weightCount_lt (norm : PhaseNorm α) (hroom : n < storageLimit) :
    norm.weightCount n n < storageLimit := by
  cases norm with
  | cosine => exact Nat.lt_of_le_of_lt (Nat.le_of_eq (Nat.max_self n)) hroom
  | max | sum | entrywise => exact Nat.two_pow_pos 59

section Norms

variable [Zero α] [One α] [NatCast α] [Add α] [Mul α] [Pow α ℕ] [Magnitude α]

theorem PhaseNorm.vector_toArray (norm : PhaseNorm α) (x : Vector α n) :
    norm.vector x.toArray = norm.ofVector x := by
  obtain ⟨x, rfl⟩ := x
  rfl

variable [Div α]

theorem PhaseNorm.operator_ofGrid (norm : PhaseNorm α) (a : Grid n n α) (hroom : n < storageLimit) :
    norm.operator (.ofGrid a) = .ok (norm.ofGrid a) := by
  simp [operator, DenseMatrix.ofGrid, requireRoom_of_lt (norm.weightCount_lt hroom)]

theorem VectorField.z2_ofGrid (f : VectorField α) (a : Grid f.dim f.dim α)
    (hroom : f.dim < storageLimit) : f.z2 (.ofGrid a) = .ok (f.curvature a) := by
  cases f with
  | lorenz p => rfl
  | fisher p =>
    have hweights : p.norm.weightCount p.dim p.dim < storageLimit := p.norm.weightCount_lt hroom
    simp [z2, curvature, DenseMatrix.ofGrid, dim, requireRoom_of_lt hweights]

end Norms

variable [Zero α] [NatCast α] [Add α] [Sub α] [Neg α] [Mul α]

theorem VectorField.eval_toArray (f : VectorField α) (x : Vector α f.dim) :
    f.eval x.toArray = .ok (f.value x).toArray := by
  rw [eval, pointOfDim_toArray]
  rfl

theorem VectorField.jacobian_toArray [One α] (f : VectorField α) (x : Vector α f.dim) :
    f.jacobian x.toArray = .ok (.ofGrid (f.derivative x)) := by
  rw [jacobian, pointOfDim_toArray]
  rfl

end Fits

/-! ## The stages, with every contract checked -/

/-- A checked solution as a stage of a run. -/
def RunError.solved {α : Type} : Except SolveError α → Except RunError α
  | .ok a => .ok a
  | .error e => .error (ofSolveError e)

/-- **One Newton step**, with every contract checked. -/
def Newton.stepChecked (field : VectorField Float) (x value : DenseVector Float) :
    Except RunError (DenseVector Float) := do
  let derivative ← RunError.checked (field.jacobian x)
  let change ← RunError.solved (derivative.solve value)
  RunError.checked (DenseVector.sub x change)

/-- **Newton's iteration**, with every contract checked. -/
def Newton.iterateChecked (field : VectorField Float) (settings : Settings) (left done : ℕ)
    (x : DenseVector Float) : Except RunError Solution := do
  let value ← RunError.checked (field.eval x)
  if !value.isFinite then throw .notFinite
  let residual := settings.norm.vector value
  if residual < settings.tolerance then return ⟨x, residual, done⟩
  match left with
  | 0 => throw (.maxIterations done residual)
  | left + 1 =>
    let next ← stepChecked field x value
    iterateChecked field settings left (done + 1) next

namespace VectorField

/-- **The approximate inverse**, with every contract checked. -/
def approximateInverseChecked (field : VectorField Float) (x : DenseVector Float)
    (maxCondition : Float) : Except RunError (DenseMatrix Float) := do
  RunError.requireDim field.dim x.size
  let derivative ← RunError.checked (field.jacobian x)
  if !derivative.isFinite then throw .notFinite
  let inverse ← RunError.solved derivative.inverse
  if !inverse.isFinite then throw .notFinite
  let forth ← RunError.checked (field.norm.operator derivative)
  let back ← RunError.checked (field.norm.operator inverse)
  if forth * back ≤ maxCondition then return inverse else throw (.illConditioned (forth * back))

/-- **The three bounds**, with every contract checked. -/
def boundsChecked {α : Type} [Zero α] [One α] [NatCast α] [Add α] [Sub α] [Neg α] [Mul α] [Div α]
    [Pow α ℕ] [Magnitude α] (field : VectorField α) (x : DenseVector α) (a : DenseMatrix α) :
    Except RunError (Bounds α) := do
  RunError.requireDim field.dim x.size
  RunError.requireDim field.dim a.rows
  RunError.requireDim field.dim a.cols
  let value ← RunError.checked (field.eval x)
  let derivative ← RunError.checked (field.jacobian x)
  let applied ← RunError.checked (a.apply value)
  let product ← RunError.checked (a.mul derivative)
  let identity ← RunError.checked (DenseMatrix.identity field.dim)
  let defect ← RunError.checked (identity.sub product)
  let z0 ← RunError.checked (field.norm.operator defect)
  let z2 ← RunError.checked (field.z2 a)
  return ⟨field.norm.vector applied, z0, z2⟩

end VectorField

/-- **The proof of a problem**, with every contract checked. -/
def Problem.proveChecked (problem : Problem) (start : DenseVector Float) (settings : Settings) :
    Except RunError Proof := do
  RunError.requireDim problem.plain.dim problem.rigorous.dim
  RunError.requireDim problem.plain.dim start.size
  let solution ← Newton.iterateChecked problem.plain settings.newton
    settings.newton.maxIterations 0 start
  let inverse ← problem.plain.approximateInverseChecked solution.point settings.maxCondition
  let enclosed ← problem.rigorous.boundsChecked solution.point.lift inverse.lift
  let report ← RunError.checked (enclosed.certify settings.witness)
  return ⟨solution.point, solution.iterations, report⟩

/-! ## Agreement -/

theorem Newton.stepChecked_toArray (field : VectorField Float) (x value : Vector Float field.dim) :
    stepChecked field x.toArray value.toArray = Vector.toArray <$> step field x value := by
  rw [stepChecked, VectorField.jacobian_toArray, step_eq]
  simp only [RunError.checked, bind, Except.bind, DenseMatrix.solve_ofGrid]
  cases LU.factor .binary64 (field.derivative x) with
  | error s => rfl
  | ok f =>
    simp only [RunError.solved, DenseVector.sub_toArray]
    rfl

/-- **Newton's iteration keeps every contract.** -/
theorem Newton.iterateChecked_toArray (field : VectorField Float) (settings : Settings)
    (left done : ℕ) (x : Vector Float field.dim) :
    iterateChecked field settings left done x.toArray = iterate field settings left done x := by
  have hfinite : ∀ value : Vector Float field.dim,
      DenseVector.isFinite value.toArray = value.all Float.isFinite := fun _ => rfl
  induction left generalizing done x with
  | zero =>
    rw [iterateChecked, iterate_zero, VectorField.eval_toArray]
    simp only [RunError.checked, bind, Except.bind, PhaseNorm.vector_toArray, hfinite]
    cases (field.value x).all Float.isFinite <;> rfl
  | succ left ih =>
    rw [iterateChecked, iterate_succ, VectorField.eval_toArray]
    simp only [RunError.checked, bind, Except.bind, PhaseNorm.vector_toArray, hfinite,
      stepChecked_toArray]
    cases (field.value x).all Float.isFinite with
    | false => rfl
    | true =>
      cases step field x (field.value x) with
      | error e => rfl
      | ok next =>
        simp only [← ih (done + 1) next]
        rfl

/-- **The approximate inverse keeps every contract.** -/
theorem VectorField.approximateInverseChecked_toArray (field : VectorField Float)
    (x : Vector Float field.dim) (maxCondition : Float) (hroom : field.dim < storageLimit) :
    field.approximateInverseChecked x.toArray maxCondition
      = field.approximateInverse x.toArray maxCondition := by
  have hdim : RunError.requireDim field.dim x.toArray.size = .ok () := if_pos x.size_toArray.symm
  have hfinite : ∀ a : Grid field.dim field.dim Float, (DenseMatrix.ofGrid a).isFinite = a.isFinite :=
    fun _ => rfl
  rw [approximateInverseChecked, approximateInverse_toArray, hdim, jacobian_toArray]
  simp only [RunError.checked, bind, Except.bind, DenseMatrix.inverse_ofGrid, hfinite]
  cases (field.derivative x).isFinite with
  | false => rfl
  | true =>
    cases LU.factor .binary64 (field.derivative x) with
    | error s => rfl
    | ok f =>
      simp only [RunError.solved, hfinite, PhaseNorm.operator_ofGrid _ _ hroom]
      cases f.inverse.isFinite <;> rfl

/-- **The bounds keep every contract.** -/
theorem VectorField.boundsChecked_toArray {α : Type} [Zero α] [One α] [NatCast α] [Add α] [Sub α]
    [Neg α] [Mul α] [Div α] [Pow α ℕ] [Magnitude α] (field : VectorField α)
    (x : Vector α field.dim) (a : Grid field.dim field.dim α)
    (hroom : field.dim * field.dim < storageLimit) :
    field.boundsChecked x.toArray (.ofGrid a) = .ok (field.boundsAt x a) := by
  have hdim : field.dim < storageLimit := Nat.lt_of_le_of_lt (Nat.le_mul_self _) hroom
  have hsize : RunError.requireDim field.dim x.toArray.size = .ok () := if_pos x.size_toArray.symm
  have hrows : RunError.requireDim field.dim (DenseMatrix.ofGrid a).rows = .ok () := if_pos rfl
  have hcols : RunError.requireDim field.dim (DenseMatrix.ofGrid a).cols = .ok () := if_pos rfl
  simp only [boundsChecked, hsize, hrows, hcols, eval_toArray, jacobian_toArray,
    DenseMatrix.apply_toArray _ _ hdim, DenseMatrix.mul_ofGrid _ _ hroom,
    DenseMatrix.identity_of_lt hroom, DenseMatrix.sub_ofGrid, PhaseNorm.operator_ofGrid _ _ hdim,
    z2_ofGrid _ _ hdim, PhaseNorm.vector_toArray, RunError.checked, bind, Except.bind, pure,
    Except.pure, boundsAt]

/-- **The rigorous bounds keep every contract** on data of the dimension of the field. -/
theorem VectorField.boundsChecked_lift {n : ℕ} {field : VectorField Interval} (hdim : n = field.dim)
    (hroom : n * n < storageLimit) (x : Vector Float n) (a : Grid n n Float) :
    field.boundsChecked (DenseVector.lift x.toArray) (DenseMatrix.ofGrid a).lift
      = field.boundsAtFloats x.toArray (.ofGrid a) := by
  subst hdim
  rw [boundsAtFloats_toArray]
  exact boundsChecked_toArray field (x.map Interval.point) (a.map Interval.point) hroom

end CertifiedZeros
