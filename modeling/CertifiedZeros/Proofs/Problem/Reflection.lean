import CertifiedZeros.Proofs.Bounds.Reflection
import CertifiedZeros.Proofs.Certificate.Agreement
import CertifiedZeros.Proofs.LU.Reflection
import CertifiedZeros.Proofs.Problem.Stages

/-! # Runs from mirror images

A run from the mirror image of a starting point is the mirror image of the run, step by step: its
iterates are mirror images, its residuals and condition estimates are the same numbers, and so is
everything in its report.

* **`VectorField.mirror`** — the mirror image of a point.
* **`RunError.Agrees`**, **`Problem.Mirrored`** — the same error, and the same proof of the other point.
* **`Newton.iterate_turned`**, **`VectorField.approximateInverse_turned`**,
  **`VectorField.boundsAtFloats_turned`** — the stages of two runs side by side.
* **`Problem.prove_mirror`** — the whole run. -/

namespace CertifiedZeros

open Binary64

/-- **The mirror image of a point** under the symmetry of a field: some coordinates change their
signs. -/
def VectorField.mirror (field : VectorField Float) (x : DenseVector Float) : DenseVector Float :=
  x.mapIdx fun i c => if field.flips i then -c else c

/-- **Points with equal coordinates.** -/
def DenseVector.Agrees (x y : DenseVector Float) : Prop :=
  y.size = x.size ∧ ∀ (i : ℕ) (hx : i < x.size) (hy : i < y.size), Binary64.Agrees x[i] y[i]

/-- **The same error**, its numbers equal. -/
def RunError.Agrees : RunError → RunError → Prop
  | .dimensionMismatch expected got, .dimensionMismatch expected' got' =>
    expected' = expected ∧ got' = got
  | .maxIterations iterations residual, .maxIterations iterations' residual' =>
    iterations' = iterations ∧ Binary64.Agrees residual residual'
  | .singularJacobian, .singularJacobian => True
  | .illConditioned condition, .illConditioned condition' => Binary64.Agrees condition condition'
  | .notFinite, .notFinite => True
  | .fault cause, .fault cause' => cause' = cause
  | _, _ => False

theorem RunError.mismatch_agrees (expected got : ℕ) :
    (RunError.mismatch expected got).Agrees (RunError.mismatch expected got) := by
  unfold mismatch
  split_ifs
  · exact ⟨rfl, rfl⟩
  · exact rfl

/-! ## Stages in floats -/

section Stages

variable {field : VectorField Float} {x x' : Vector Float field.dim}

/-- **Mirror images are finite together.** -/
theorem isFinite_turned {n : ℕ} {v v' : Vector Float n} {σ : Fin n → Bool}
    (h : ∀ i, Turned (σ i) (v.get i) (v'.get i)) : v'.all Float.isFinite = v.all Float.isFinite := by
  have hget : ∀ i (hi : i < n), v'[i].isFinite = v[i].isFinite := fun i hi => (h ⟨i, hi⟩).isFinite
  rw [Bool.eq_iff_iff, Vector.all_eq_true, Vector.all_eq_true]
  exact forall₂_congr fun i hi => by rw [hget]

theorem Grid.isFinite_turned {m n : ℕ} {a a' : Grid m n Float} {s : Fin m → Fin n → Bool}
    (h : ∀ i j, Turned (s i j) (a.get i j) (a'.get i j)) : a'.isFinite = a.isFinite := by
  refine CertifiedZeros.isFinite_turned (σ := fun p => s (rowOf p) (columnOf p)) fun p => ?_
  have hplace := h (rowOf p) (columnOf p)
  rwa [get, get, place_rowOf_columnOf] at hplace

namespace Newton

/-- **A Newton step between mirror images.** -/
theorem step_turned (hx : ∀ i : Fin field.dim, Turned (field.flips i) (x.get i) (x'.get i)) :
    SameOutcome (fun y y' => ∀ i : Fin field.dim, Turned (field.flips i) (y.get i) (y'.get i))
      RunError.Agrees (step field x (field.value x)) (step field x' (field.value x')) := by
  have hvalue := field.value_turned respectsSigns_float hx
  have hderivative := field.derivative_turned respectsSigns_float hx
  rw [step_eq, step_eq]
  obtain ⟨f, f', hf, hf', hfactors⟩ | ⟨s, s', hs, hs', -⟩ :=
    (LU.factor_mirrored (σ := fun i : Fin field.dim => field.flips i) hderivative).cases
  · rw [hf, hf']
    intro i
    have hright : ∀ j : Fin field.dim,
        Turned (false ^^ field.flips j) ((field.value x).get j) ((field.value x').get j) := fun j => by
      rw [Bool.false_xor]
      exact hvalue j
    have hsolution := hfactors.solve hright i
    rw [Bool.false_xor] at hsolution
    simp only [get_eq_getElem, Vector.getElem_zipWith] at hx hsolution ⊢
    exact (hx i).sub hsolution
  · rw [hs, hs']
    trivial

/-- **Two solutions that are mirror images**, reached after equally many steps. -/
structure Solution.Turned (field : VectorField Float) (s s' : Solution) : Prop where
  points : ∃ v v' : Vector Float field.dim, s.point = v.toArray ∧ s'.point = v'.toArray ∧
    ∀ i : Fin field.dim, Binary64.Turned (field.flips i) (v.get i) (v'.get i)
  residual : Binary64.Turned false s.residual s'.residual
  iterations_eq : s'.iterations = s.iterations

/-- **Newton's method from mirror images**: both runs stop after the same number of steps and for the
same reason. -/
theorem iterate_turned (settings : Settings) (left done : ℕ)
    (hx : ∀ i : Fin field.dim, Turned (field.flips i) (x.get i) (x'.get i)) :
    SameOutcome (Solution.Turned field) RunError.Agrees (iterate field settings left done x)
      (iterate field settings left done x') := by
  induction left generalizing done x x' with
  | zero =>
    have hvalue := field.value_turned respectsSigns_float hx
    have hresidual := settings.norm.ofVector_turned respectsSigns_float hvalue
    rw [iterate_zero, iterate_zero, isFinite_turned hvalue]
    dsimp only
    simp only [hresidual.lt_iff (.refl settings.tolerance)]
    split_ifs
    · exact ⟨⟨x, x', rfl, rfl, hx⟩, hresidual, rfl⟩
    · exact ⟨rfl, agrees_iff.mpr hresidual⟩
    · trivial
  | succ left ih =>
    have hvalue := field.value_turned respectsSigns_float hx
    have hresidual := settings.norm.ofVector_turned respectsSigns_float hvalue
    rw [iterate_succ, iterate_succ, isFinite_turned hvalue]
    dsimp only
    simp only [hresidual.lt_iff (.refl settings.tolerance)]
    split_ifs
    · exact ⟨⟨x, x', rfl, rfl, hx⟩, hresidual, rfl⟩
    · exact (step_turned hx).bind fun y y' hy => ih (done + 1) hy
    · trivial

end Newton

/-- **The approximate inverses at mirror images** are mirror images, or the same check refuses both. -/
theorem VectorField.approximateInverse_turned (maxCondition : Float)
    (hx : ∀ i : Fin field.dim, Turned (field.flips i) (x.get i) (x'.get i)) :
    SameOutcome (fun a a' => ∃ g g' : Grid field.dim field.dim Float, a = .ofGrid g ∧ a' = .ofGrid g' ∧
        ∀ i j : Fin field.dim, Turned (field.flips i ^^ field.flips j) (g.get i j) (g'.get i j))
      RunError.Agrees (field.approximateInverse x.toArray maxCondition)
      (field.approximateInverse x'.toArray maxCondition) := by
  have hderivative := field.derivative_turned respectsSigns_float hx
  rw [approximateInverse_toArray, approximateInverse_toArray, Grid.isFinite_turned hderivative]
  split_ifs
  swap
  · trivial
  obtain ⟨f, f', hf, hf', hfactors⟩ | ⟨s, s', hs, hs', -⟩ :=
    (LU.factor_mirrored (σ := fun i : Fin field.dim => field.flips i) hderivative).cases
  · have hinverse := hfactors.inverse
    have hcondition := (field.norm.ofGrid_turned respectsSigns_float hderivative).mul
      (field.norm.ofGrid_turned respectsSigns_float hinverse)
    rw [hf, hf']
    dsimp only
    rw [Grid.isFinite_turned hinverse]
    simp only [hcondition.le_iff (.refl maxCondition)]
    split_ifs
    · exact ⟨f.inverse, f'.inverse, rfl, rfl, hinverse⟩
    · exact agrees_iff.mpr hcondition
    · trivial
  · rw [hs, hs']
    trivial

end Stages

/-! ## The rigorous bounds -/

/-- A float and its turned twin, as intervals of one number. -/
theorem Interval.turnedOrderly_point {f : Bool} {a a' : Float} (h : Binary64.Turned f a a') :
    TurnedOrderly f (point a) (point a') :=
  ⟨turned_point h, fun _ => orderly_point a⟩

/-- **The rigorous bounds at mirror images** agree. -/
theorem VectorField.boundsAtFloats_turned {n : ℕ} {field : VectorField Interval} (hdim : n = field.dim)
    {v v' : Vector Float n} {g g' : Grid n n Float}
    (hv : ∀ i : Fin n, Turned (field.flips i) (v.get i) (v'.get i))
    (hg : ∀ i j : Fin n, Turned (field.flips i ^^ field.flips j) (g.get i j) (g'.get i j)) :
    SameOutcome Bounds.Turned RunError.Agrees (field.boundsAtFloats v.toArray (.ofGrid g))
      (field.boundsAtFloats v'.toArray (.ofGrid g')) := by
  subst hdim
  rw [boundsAtFloats_toArray, boundsAtFloats_toArray]
  have hpoints : ∀ i : Fin field.dim, Interval.TurnedOrderly (field.flips i)
      ((v.map Interval.point).get i) ((v'.map Interval.point).get i) := fun i => by
    rw [get_map, get_map]
    exact Interval.turnedOrderly_point (hv i)
  have hinverses : ∀ i j : Fin field.dim, Interval.TurnedOrderly (field.flips i ^^ field.flips j)
      ((g.map Interval.point).get i j) ((g'.map Interval.point).get i j) := fun i j => by
    rw [Grid.get_map, Grid.get_map]
    exact Interval.turnedOrderly_point (hg i j)
  obtain ⟨hy, hz, hZ⟩ := field.boundsAt_turned respectsSigns_interval hpoints hinverses
  exact ⟨hy.1, hz.1, hZ.1⟩

/-! ## The run -/

namespace Problem

/-- **A problem whose fields are of the same kind**: two Lorenz systems, or two Fisher equations. Their
parameters, orders and norms may differ. -/
def SameKind : Problem → Prop
  | ⟨.lorenz _, .lorenz _⟩ | ⟨.fisher _, .fisher _⟩ => True
  | _ => False

theorem SameKind.flips_eq {problem : Problem} (h : problem.SameKind) :
    problem.rigorous.flips = problem.plain.flips := by
  obtain ⟨plain, rigorous⟩ := problem
  cases plain <;> cases rigorous
  · rfl
  · exact h.elim
  · exact h.elim
  · rfl

/-- **The same proof at the mirror image.** -/
structure Mirrored (field : VectorField Float) (p p' : Proof) : Prop where
  point : (field.mirror p.point).Agrees p'.point
  iterations_eq : p'.iterations = p.iterations
  report : p.report.Agrees p'.report

/-- The mirror image of a point of the phase space, coordinate by coordinate. -/
theorem mirror_toArray (field : VectorField Float) {n : ℕ} (v : Vector Float n) :
    field.mirror v.toArray
      = (Vector.ofFn fun i => if field.flips i then -v.get i else v.get i).toArray := by
  refine Array.ext (by simp [VectorField.mirror]) fun i hi hi' => ?_
  simp [VectorField.mirror, get_eq_getElem]

theorem turned_mirror (f : Bool) (a : Float) : Turned f a (if f then -a else a) := by
  cases f with
  | false => exact .refl a
  | true => exact turned_neg a

/-- Points whose coordinates are turned are mirror images. -/
theorem agrees_of_turned (field : VectorField Float) {n : ℕ} {v v' : Vector Float n}
    (h : ∀ i : Fin n, Turned (field.flips i) (v.get i) (v'.get i)) :
    (field.mirror v.toArray).Agrees v'.toArray := by
  rw [mirror_toArray]
  refine ⟨by simp, fun i hx hy => agrees_iff.mpr ?_⟩
  have hi : i < n := by simpa using hx
  have hcoordinate := (turned_mirror (field.flips i) (v.get ⟨i, hi⟩)).symm.trans (h ⟨i, hi⟩)
  rw [Bool.xor_self] at hcoordinate
  simpa [get_eq_getElem] using hcoordinate

/-- **Runs from mirror images are mirror images.** From the mirror image of a starting point the run stops
with the same error, or it proves the mirror image of the same zero: in the same number of steps, and
with the same report. -/
theorem prove_mirror (problem : Problem) (hkind : problem.SameKind) (start : DenseVector Float)
    (settings : Settings) :
    SameOutcome (Mirrored problem.plain) RunError.Agrees (problem.prove start settings)
      (problem.prove (problem.plain.mirror start) settings) := by
  by_cases hdim : problem.plain.dim = problem.rigorous.dim
  swap
  · rw [prove_of_dim_ne settings hdim, prove_of_dim_ne settings hdim]
    exact RunError.mismatch_agrees _ _
  have hsize : (problem.plain.mirror start).size = start.size := Array.size_mapIdx
  by_cases hstart : start.size = problem.plain.dim
  swap
  · rw [prove_of_size_ne settings hdim hstart, prove_of_size_ne settings hdim (hsize ▸ hstart), hsize]
    exact RunError.mismatch_agrees _ _
  obtain ⟨x, rfl⟩ : ∃ x : Vector Float problem.plain.dim, start = x.toArray := ⟨⟨start, hstart⟩, rfl⟩
  rw [mirror_toArray, prove_toArray settings hdim, prove_toArray settings hdim]
  refine (Newton.iterate_turned settings.newton settings.newton.maxIterations 0 fun i => by
    rw [get_ofFn]
    exact turned_mirror _ _).bind fun solution solution' hsolution => ?_
  obtain ⟨⟨v, v', hv, hv', hpoints⟩, -, hiterations⟩ := hsolution
  rw [hv, hv']
  refine (problem.plain.approximateInverse_turned settings.maxCondition hpoints).bind fun a a' ha => ?_
  obtain ⟨g, g', rfl, rfl, hinverse⟩ := ha
  refine (VectorField.boundsAtFloats_turned hdim (hkind.flips_eq ▸ hpoints)
    (hkind.flips_eq ▸ hinverse)).bind fun b b' hb => ?_
  obtain ⟨r, r', hr, hr', hreport⟩ | ⟨cause, cause', hr, hr', hcause⟩ :=
    (Bounds.certify_agrees settings.witness hb).cases
  · rw [hr, hr']
    exact ⟨agrees_of_turned problem.plain hpoints, hiterations, hreport⟩
  · rw [hr, hr']
    exact hcause.symm

/-- The Lorenz system with an enclosure of the classical parameters, from a point near one of its zeros
and from the mirror image of that point. -/
theorem prove_mirror_lorenz :
    let problem : Problem := ⟨.lorenz ⟨10, 28, 8 / 3⟩, .lorenz .classical⟩
    problem.SameKind ∧ problem.plain.mirror #[8.5, 8.5, 27] = #[-8.5, -8.5, 27] ∧
      SameOutcome (Mirrored problem.plain) RunError.Agrees (problem.prove #[8.5, 8.5, 27] {})
        (problem.prove #[-8.5, -8.5, 27] {}) :=
  ⟨trivial, rfl, prove_mirror ⟨.lorenz ⟨10, 28, 8 / 3⟩, .lorenz .classical⟩ trivial #[8.5, 8.5, 27] {}⟩

end Problem

end CertifiedZeros
