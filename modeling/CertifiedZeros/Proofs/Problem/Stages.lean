import CertifiedZeros.Problem
import Mathlib.Tactic.Common

/-! # The stages of a run as equations

Each stage stops at its first failure. Written out as case distinctions, the stages read:

* **`Newton.iterate_zero`**, **`Newton.iterate_succ`**, **`Newton.step_eq`** — Newton's method.
* **`VectorField.approximateInverse_toArray`** — the approximate inverse.
* **`VectorField.boundsAtFloats_toArray`** — the rigorous bounds.
* **`Problem.prove_of_dim_ne`**, **`Problem.prove_of_size_ne`**, **`Problem.prove_toArray`** — the run,
  by what its dimension checks find. -/

namespace CertifiedZeros

theorem RunError.pointOfDim_toArray {α : Type} {n : ℕ} (x : Vector α n) :
    RunError.pointOfDim n x.toArray = .ok x :=
  dif_pos x.size_toArray

theorem RunError.squareOfDim_ofGrid {α : Type} {n : ℕ} (a : Grid n n α) :
    RunError.squareOfDim n (.ofGrid a) = .ok a := by
  simp [squareOfDim, DenseMatrix.ofGrid]

/-! ## Newton's method -/

namespace Newton

variable (field : VectorField Float) (settings : Settings) (left done : ℕ)
  (x value : Vector Float field.dim)

/-- **A step** solves one linear system. -/
theorem step_eq : step field x value = match LU.factor .binary64 (field.derivative x) with
    | .ok f => .ok (x.zipWith (· - ·) (f.solve value))
    | .error _ => .error .singularJacobian := by
  rw [step]
  cases LU.factor .binary64 (field.derivative x) <;> rfl

theorem iterate_zero : iterate field settings 0 done x =
    if (field.value x).all Float.isFinite then
      let residual := settings.norm.ofVector (field.value x)
      if residual < settings.tolerance then .ok ⟨x.toArray, residual, done⟩
      else .error (.maxIterations done residual)
    else .error .notFinite := by
  rw [iterate, residual]
  by_cases hfinite : (field.value x).all Float.isFinite = true
  · rw [if_pos hfinite, if_pos hfinite]
    rfl
  · rw [if_neg hfinite, if_neg hfinite]
    rfl

theorem iterate_succ : iterate field settings (left + 1) done x =
    if (field.value x).all Float.isFinite then
      let residual := settings.norm.ofVector (field.value x)
      if residual < settings.tolerance then .ok ⟨x.toArray, residual, done⟩
      else step field x (field.value x) >>= iterate field settings left (done + 1)
    else .error .notFinite := by
  rw [iterate, residual]
  by_cases hfinite : (field.value x).all Float.isFinite = true
  · rw [if_pos hfinite, if_pos hfinite]
    rfl
  · rw [if_neg hfinite, if_neg hfinite]
    rfl

end Newton

/-! ## The approximate inverse -/

theorem VectorField.approximateInverse_toArray (field : VectorField Float)
    (x : Vector Float field.dim) (maxCondition : Float) :
    field.approximateInverse x.toArray maxCondition =
      if (field.derivative x).isFinite then
        match LU.factor .binary64 (field.derivative x) with
        | .error _ => .error .singularJacobian
        | .ok f =>
          if f.inverse.isFinite then
            let condition := field.norm.ofGrid (field.derivative x) * field.norm.ofGrid f.inverse
            if condition ≤ maxCondition then .ok (.ofGrid f.inverse)
            else .error (.illConditioned condition)
          else .error .notFinite
      else .error .notFinite := by
  rw [approximateInverse, RunError.pointOfDim_toArray]
  cases hderivative : (field.derivative x).isFinite with
  | false =>
    simp only [bind, Except.bind, hderivative]
    rfl
  | true =>
    simp only [bind, Except.bind, hderivative]
    cases LU.factor .binary64 (field.derivative x) with
    | error s => rfl
    | ok f =>
      cases hinverse : f.inverse.isFinite with
      | false =>
        simp only [RunError.factored, hinverse]
        rfl
      | true =>
        simp only [RunError.factored, hinverse]
        rfl

/-! ## The bounds -/

/-- **The rigorous bounds** at data of the dimension of the field. -/
theorem VectorField.boundsAtFloats_toArray (field : VectorField Interval) (x : Vector Float field.dim)
    (a : Grid field.dim field.dim Float) :
    field.boundsAtFloats x.toArray (.ofGrid a)
      = .ok (field.boundsAt (x.map .point) (a.map .point)) := by
  have hpoint : RunError.pointOfDim field.dim (DenseVector.lift x.toArray) = .ok (x.map .point) :=
    RunError.pointOfDim_toArray (x.map Interval.point)
  have hsquare : RunError.squareOfDim field.dim (DenseMatrix.ofGrid a).lift = .ok (a.map .point) :=
    RunError.squareOfDim_ofGrid (a.map Interval.point)
  rw [boundsAtFloats, bounds, hpoint]
  simp only [hsquare, bind, Except.bind, pure, Except.pure]

/-- Data of another spelling of the dimension has bounds, too. -/
theorem VectorField.boundsAtFloats_ok {n : ℕ} {field : VectorField Interval} (hdim : n = field.dim)
    (x : Vector Float n) (a : Grid n n Float) :
    ∃ b, field.boundsAtFloats x.toArray (.ofGrid a) = .ok b := by
  subst hdim
  exact ⟨_, boundsAtFloats_toArray field x a⟩

/-! ## The run -/

namespace Problem

variable {problem : Problem} {start : DenseVector Float} (settings : Settings)

/-- **Fields of different dimensions** are refused. -/
theorem prove_of_dim_ne (h : problem.plain.dim ≠ problem.rigorous.dim) :
    problem.prove start settings
      = .error (RunError.mismatch problem.plain.dim problem.rigorous.dim) := by
  rw [prove, RunError.requireDim, if_neg h]
  rfl

/-- **A start of another length** is refused. -/
theorem prove_of_size_ne (h : problem.plain.dim = problem.rigorous.dim)
    (hsize : start.size ≠ problem.plain.dim) :
    problem.prove start settings = .error (RunError.mismatch problem.plain.dim start.size) := by
  rw [prove, RunError.requireDim, if_pos h, Newton.solve, RunError.pointOfDim, dif_neg hsize]
  rfl

/-- **The stages of a run** on data that fits. -/
theorem prove_toArray (h : problem.plain.dim = problem.rigorous.dim)
    (x : Vector Float problem.plain.dim) :
    problem.prove x.toArray settings = do
      let solution ← Newton.iterate problem.plain settings.newton settings.newton.maxIterations 0 x
      let inverse ← problem.plain.approximateInverse solution.point settings.maxCondition
      let enclosed ← problem.rigorous.boundsAtFloats solution.point inverse
      let report ← RunError.checked (enclosed.certify settings.witness)
      return ⟨solution.point, solution.iterations, report⟩ := by
  rw [prove, RunError.requireDim, if_pos h, Newton.solve, RunError.pointOfDim_toArray]
  rfl

end Problem

end CertifiedZeros
