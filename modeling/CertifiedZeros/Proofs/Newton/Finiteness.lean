import CertifiedZeros.Proofs.Binary64.Operations
import CertifiedZeros.Proofs.Newton.Trajectory

/-! # What a finite residual says

Newton's method only looks at the value of the field. That is enough: an operation on floats whose
result is finite has finite operands, and each coordinate and parameter is an operand on the way to
the value.

* **`VectorField.parameters`** — the numbers that a field depends on.
* **`VectorField.isFinite_of_value`** — a finite value has a finite point and finite parameters.
* **`Newton.Measures.isFinite`** — so has every point that was measured.
* **`Newton.solve_finite`** — in particular the point of a solution. -/

namespace CertifiedZeros

open Binary64

/-- **The parameters of a field**, its norm left aside. -/
def VectorField.parameters {α : Type} : VectorField α → List α
  | .lorenz p => [p.sigma, p.rho, p.beta]
  | .fisher p => [p.coefficient]

/-- **A finite value of the Lorenz system.** The first component contains `σ`, `x` and `y`, the
second one `ρ` and `z`, and the last one `β`. -/
theorem Lorenz.isFinite_of_value {p : Lorenz Float} {v : Vector Float 3}
    (h : ∀ i, ((p.value v).get i).isFinite = true) :
    (∀ i, (v.get i).isFinite = true) ∧
      p.sigma.isFinite = true ∧ p.rho.isFinite = true ∧ p.beta.isFinite = true := by
  have hfirst : (p.sigma * (v.get 1 - v.get 0)).isFinite = true := h 0
  have hsecond : (p.rho * v.get 0 - v.get 1 - v.get 0 * v.get 2).isFinite = true := h 1
  have hthird : (-p.beta * v.get 2 + v.get 0 * v.get 1).isFinite = true := h 2
  obtain ⟨hsigma, hdifference⟩ := isFinite_of_mul hfirst
  obtain ⟨hy, hx⟩ := isFinite_of_sub hdifference
  obtain ⟨hlinear, hproduct⟩ := isFinite_of_sub hsecond
  have hrho := (isFinite_of_mul (isFinite_of_sub hlinear).1).1
  have hz := (isFinite_of_mul hproduct).2
  have hbeta := isFinite_of_neg (isFinite_of_mul (isFinite_of_add hthird).1).1
  refine ⟨fun i => ?_, hsigma, hrho, hbeta⟩
  match i with
  | 0 => exact hx
  | 1 => exact hy
  | 2 => exact hz

/-- **A finite value of the Fisher field.** Each component contains its own mode and the coefficient
in its linear term, whatever becomes of the convolution. -/
theorem Fisher.isFinite_of_value {p : Fisher Float} {x : Vector Float (p.order + 1)}
    (h : ∀ k, ((p.value x).get k).isFinite = true) :
    (∀ k, (x.get k).isFinite = true) ∧ p.coefficient.isFinite = true := by
  have hterm : ∀ k : Fin (p.order + 1),
      (p.linear k).isFinite = true ∧ (x.get k).isFinite = true := by
    intro k
    have hvalue := h k
    rw [value, Vector.get_ofFn] at hvalue
    exact isFinite_of_mul (isFinite_of_sub hvalue).1
  exact ⟨fun k => (hterm k).2, (isFinite_of_sub (hterm 0).1).1⟩

/-- **A finite value** of a field comes from a finite point and finite parameters. -/
theorem VectorField.isFinite_of_value {field : VectorField Float} {v : Vector Float field.dim}
    (h : (field.value v).all Float.isFinite = true) :
    (∀ a ∈ v.toArray, a.isFinite = true) ∧ ∀ a ∈ field.parameters, a.isFinite = true := by
  have hvalue : ∀ i, ((field.value v).get i).isFinite = true :=
    fun i => Vector.all_eq_true.mp h i.val i.isLt
  -- the coordinates of a point are those at its indices
  have hcoordinates : (∀ i, (v.get i).isFinite = true) → ∀ a ∈ v.toArray, a.isFinite = true := by
    intro hv a ha
    obtain ⟨i, hi, rfl⟩ := Array.mem_iff_getElem.mp ha
    exact hv ⟨i, v.size_toArray ▸ hi⟩
  cases field with
  | lorenz p =>
    obtain ⟨hv, hsigma, hrho, hbeta⟩ := Lorenz.isFinite_of_value hvalue
    refine ⟨hcoordinates hv, fun a ha => ?_⟩
    simp only [parameters, List.mem_cons, List.not_mem_nil, or_false] at ha
    rcases ha with rfl | rfl | rfl
    · exact hsigma
    · exact hrho
    · exact hbeta
  | fisher p =>
    obtain ⟨hv, hcoefficient⟩ := Fisher.isFinite_of_value hvalue
    refine ⟨hcoordinates hv, fun a ha => ?_⟩
    rw [List.mem_singleton.mp ha]
    exact hcoefficient

namespace Newton

/-- **A point that was measured** is finite, and so are the parameters. -/
theorem Measures.isFinite {field : VectorField Float} {norm : PhaseNorm Float}
    {x : DenseVector Float} {r : Float} (h : Measures field norm x r) :
    (∀ a ∈ x, a.isFinite = true) ∧ ∀ a ∈ field.parameters, a.isFinite = true := by
  obtain ⟨v, rfl⟩ := h.exists_vector
  exact VectorField.isFinite_of_value (measures_toArray.mp h).1

/-- **A run that converged is finite**: every coordinate of its point, and every parameter of the
field. -/
theorem solve_finite {field : VectorField Float} {start : DenseVector Float} {settings : Settings}
    {s : Solution} (h : solve field start settings = .ok s) :
    (∀ a ∈ s.point, a.isFinite = true) ∧ ∀ a ∈ field.parameters, a.isFinite = true := by
  obtain ⟨-, -, hpoint, -⟩ := solve_ok_iff.mp h
  exact hpoint.isFinite

/-- One step of the Lorenz system with the parameters `1`, `0` and `1` leads to its zero, the
origin. -/
theorem solve_finite_lorenz : ∃ s, solve (.lorenz ⟨1, 0, 1⟩) #[0.5, 0, 0] {} = .ok s ∧
    s.iterations = 1 ∧ ∀ a ∈ s.point, a.isFinite = true := by
  have hsteps : (solve (.lorenz ⟨1, 0, 1⟩) #[0.5, 0, 0] {}).toOption.map Solution.iterations
      = some 1 := by decide +kernel
  cases hrun : solve (.lorenz ⟨1, 0, 1⟩) #[0.5, 0, 0] {} with
  | error e =>
    rw [hrun] at hsteps
    cases hsteps
  | ok s =>
    rw [hrun] at hsteps
    exact ⟨s, rfl, Option.some.inj hsteps, (solve_finite hrun).1⟩

end Newton

end CertifiedZeros
