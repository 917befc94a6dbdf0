import CertifiedZeros.Proofs.Certificate.Exits
import CertifiedZeros.Proofs.Newton.Trajectory

/-! # Every run comes to an end of its own

A run ends with a proof, with a dimension that does not fit, or with a numerical stage that failed.
It breaks no calling contract on the way, whatever the parameters of the fields and the settings.

* **`RunError.IsNumerical`** — the errors of the numerical stages.
* **`Newton.iterate_spec`**, **`VectorField.approximateInverse_spec`** — how the stages end before the
  certifier, which always reports.
* **`Problem.prove_total`** — how the run ends, and when it is a dimension that does not fit. -/

namespace CertifiedZeros

/-- **A numerical stage failed**: it is neither a dimension nor a contract that is at fault. -/
def RunError.IsNumerical : RunError → Prop
  | .dimensionMismatch .. | .fault _ => False
  | .maxIterations .. | .singularJacobian | .illConditioned _ | .notFinite => True

/-! ## The stages -/

/-- **Newton's iteration** ends at a point of the phase space, or fails numerically. -/
theorem Newton.iterate_spec (field : VectorField Float) (settings : Settings) (left done : ℕ)
    (x : Vector Float field.dim) :
    (∀ e, iterate field settings left done x = .error e → e.IsNumerical) ∧
      ∀ s, iterate field settings left done x = .ok s →
        ∃ v : Vector Float field.dim, s.point = v.toArray := by
  have hends := iterate_ends field settings left done x
  constructor
  · intro e he
    rw [he] at hends
    cases hends <;> trivial
  · intro s hs
    rw [hs] at hends
    cases hends with
    | converged _ _ hy => exact hy.exists_vector

/-- **The approximate inverse** is a square matrix of the dimension, or it fails numerically. -/
theorem VectorField.approximateInverse_spec (field : VectorField Float) (x : Vector Float field.dim)
    (maxCondition : Float) :
    (∀ e, field.approximateInverse x.toArray maxCondition = .error e → e.IsNumerical) ∧
      ∀ a, field.approximateInverse x.toArray maxCondition = .ok a →
        ∃ g : Grid field.dim field.dim Float, a = .ofGrid g := by
  rw [approximateInverse_toArray]
  cases LU.factor .binary64 (field.derivative x) with
  | error s => split_ifs <;> exact ⟨by rintro e ⟨⟩; trivial, by rintro a ⟨⟩⟩
  | ok f =>
    dsimp only
    split_ifs
    · exact ⟨by rintro e ⟨⟩, by rintro a ⟨⟩; exact ⟨f.inverse, rfl⟩⟩
    · exact ⟨by rintro e ⟨⟩; trivial, by rintro a ⟨⟩⟩
    · exact ⟨by rintro e ⟨⟩; trivial, by rintro a ⟨⟩⟩
    · exact ⟨by rintro e ⟨⟩; trivial, by rintro a ⟨⟩⟩

/-! ## The run -/

namespace Problem

variable {problem : Problem} {start : DenseVector Float} {settings : Settings}

/-- **On data that fits, only the numerical stages fail.** -/
theorem isNumerical_of_prove (hdim : problem.plain.dim = problem.rigorous.dim)
    (x : Vector Float problem.plain.dim) {e : RunError}
    (h : problem.prove x.toArray settings = .error e) : e.IsNumerical := by
  rw [prove_toArray settings hdim] at h
  obtain ⟨hnewton, hpoint⟩ := Newton.iterate_spec problem.plain settings.newton
    settings.newton.maxIterations 0 x
  cases hsolution : Newton.iterate problem.plain settings.newton settings.newton.maxIterations 0 x with
  | error e' =>
    rw [hsolution] at h
    cases h
    exact hnewton _ hsolution
  | ok solution =>
    obtain ⟨v, hv⟩ := hpoint _ hsolution
    obtain ⟨hfailed, hsquare⟩ := problem.plain.approximateInverse_spec v settings.maxCondition
    rw [hsolution] at h
    simp only [bind, Except.bind, hv] at h
    cases hinverse : problem.plain.approximateInverse v.toArray settings.maxCondition with
    | error e' =>
      rw [hinverse] at h
      cases h
      exact hfailed _ hinverse
    | ok a =>
      obtain ⟨g, rfl⟩ := hsquare a hinverse
      obtain ⟨b, hb⟩ := VectorField.boundsAtFloats_ok hdim v g
      obtain ⟨report, hreport, -⟩ := b.certify_ends settings.witness
      rw [hinverse] at h
      simp only [hb, hreport, RunError.checked] at h
      cases h

/-- **On data that fits, the run keeps every contract.** -/
theorem proveChecked_toArray (hdim : problem.plain.dim = problem.rigorous.dim)
    (hroom : problem.plain.dim * problem.plain.dim < storageLimit)
    (x : Vector Float problem.plain.dim) :
    problem.proveChecked x.toArray settings = problem.prove x.toArray settings := by
  have hfields : RunError.requireDim problem.plain.dim problem.rigorous.dim = .ok () := if_pos hdim
  have hsize : RunError.requireDim problem.plain.dim x.toArray.size = .ok () :=
    if_pos x.size_toArray.symm
  obtain ⟨-, hpoint⟩ := Newton.iterate_spec problem.plain settings.newton
    settings.newton.maxIterations 0 x
  rw [prove_toArray settings hdim, proveChecked, hfields, hsize]
  simp only [bind, Except.bind, Newton.iterateChecked_toArray]
  cases hsolution : Newton.iterate problem.plain settings.newton settings.newton.maxIterations 0 x with
  | error e => rfl
  | ok solution =>
    obtain ⟨v, hv⟩ := hpoint _ hsolution
    have hinverse := problem.plain.approximateInverseChecked_toArray v settings.maxCondition
      (Nat.lt_of_le_of_lt (Nat.le_mul_self _) hroom)
    obtain ⟨-, hsquare⟩ := problem.plain.approximateInverse_spec v settings.maxCondition
    simp only [hv, hinverse]
    cases happrox : problem.plain.approximateInverse v.toArray settings.maxCondition with
    | error e => rfl
    | ok a =>
      obtain ⟨g, rfl⟩ := hsquare a happrox
      simp only [VectorField.boundsChecked_lift hdim hroom v g]

/-- **The run keeps every contract**: checking all of them finds nothing else to stop at. -/
theorem proveChecked_eq (hroom : problem.plain.dim * problem.plain.dim < storageLimit) :
    problem.proveChecked start settings = problem.prove start settings := by
  by_cases hdim : problem.plain.dim = problem.rigorous.dim
  · by_cases hsize : start.size = problem.plain.dim
    · exact proveChecked_toArray hdim hroom ⟨start, hsize⟩
    · rw [prove_of_size_ne settings hdim hsize, proveChecked, RunError.requireDim, if_pos hdim,
        RunError.requireDim, if_neg (Ne.symm hsize)]
      rfl
  · rw [prove_of_dim_ne settings hdim, proveChecked, RunError.requireDim, if_neg hdim]
    rfl

/-- **How a run ends**: two sizes do not fit, or the run gets as far as its numerical stages. -/
theorem prove_cases (problem : Problem) (start : DenseVector Float) (settings : Settings) :
    (problem.rigorous.dim ≠ problem.plain.dim ∧ problem.prove start settings
        = .error (RunError.mismatch problem.plain.dim problem.rigorous.dim)) ∨
      (problem.rigorous.dim = problem.plain.dim ∧ start.size ≠ problem.plain.dim ∧
        problem.prove start settings
          = .error (RunError.mismatch problem.plain.dim start.size)) ∨
      (problem.rigorous.dim = problem.plain.dim ∧ start.size = problem.plain.dim ∧
        ∀ e, problem.prove start settings = .error e → e.IsNumerical) := by
  by_cases hdim : problem.plain.dim = problem.rigorous.dim
  · by_cases hsize : start.size = problem.plain.dim
    · exact .inr (.inr ⟨hdim.symm, hsize, fun e => isNumerical_of_prove hdim ⟨start, hsize⟩⟩)
    · exact .inr (.inl ⟨hdim.symm, hsize, prove_of_size_ne settings hdim hsize⟩)
  · exact .inl ⟨Ne.symm hdim, prove_of_dim_ne settings hdim⟩

/-- **Every run comes to an end of its own.** No contract is broken, and a dimension is at fault exactly
when the fields have different ones or the start has another length. The sizes have to be counts, and
a square matrix of the dimension has to be storable for the run that checks every contract. -/
theorem prove_total (problem : Problem) (start : DenseVector Float) (settings : Settings)
    (hplain : problem.plain.dim < countLimit) (hrigorous : problem.rigorous.dim < countLimit)
    (hstart : start.size < countLimit) :
    (∀ cause, problem.prove start settings ≠ .error (.fault cause)) ∧
      (∀ expected got, problem.prove start settings = .error (.dimensionMismatch expected got) ↔
        expected = problem.plain.dim ∧
          (problem.rigorous.dim ≠ problem.plain.dim ∧ got = problem.rigorous.dim ∨
            problem.rigorous.dim = problem.plain.dim ∧ start.size ≠ problem.plain.dim ∧
              got = start.size)) ∧
      (problem.plain.dim * problem.plain.dim < storageLimit →
        problem.proveChecked start settings = problem.prove start settings) := by
  have hmismatch : ∀ {m n}, m < countLimit → n < countLimit →
      RunError.mismatch m n = .dimensionMismatch m n := fun hm hn => if_pos ⟨hm, hn⟩
  refine ⟨?_, ?_, proveChecked_eq⟩
  · intro cause hfault
    obtain ⟨-, h⟩ | ⟨-, -, h⟩ | ⟨-, -, h⟩ := prove_cases problem start settings
    · rw [hfault, hmismatch hplain hrigorous] at h
      cases h
    · rw [hfault, hmismatch hplain hstart] at h
      cases h
    · exact h _ hfault
  · intro expected got
    obtain ⟨hdim, h⟩ | ⟨hdim, hsize, h⟩ | ⟨hdim, hsize, h⟩ := prove_cases problem start settings
    · rw [h, hmismatch hplain hrigorous]
      constructor
      · rintro ⟨⟩
        exact ⟨rfl, .inl ⟨hdim, rfl⟩⟩
      · rintro ⟨rfl, ⟨-, rfl⟩ | ⟨heq, -⟩⟩
        · rfl
        · exact absurd heq hdim
    · rw [h, hmismatch hplain hstart]
      constructor
      · rintro ⟨⟩
        exact ⟨rfl, .inr ⟨hdim, hsize, rfl⟩⟩
      · rintro ⟨rfl, ⟨hne, -⟩ | ⟨-, -, rfl⟩⟩
        · exact absurd hdim hne
        · rfl
    · constructor
      · intro hend
        exact absurd (h _ hend) id
      · rintro ⟨-, ⟨hne, -⟩ | ⟨-, hne, -⟩⟩
        · exact absurd hdim hne
        · exact absurd hsize hne

/-- A start with one coordinate too many for a Fisher field of two modes. -/
theorem prove_total_long_start :
    let problem := ofField (.fisher (.withCosineNorm 1 1))
    let start : DenseVector Float := #[1, 0, 0]
    problem.plain.dim < countLimit ∧ problem.rigorous.dim < countLimit ∧ start.size < countLimit ∧
      problem.prove start {} = .error (.dimensionMismatch 2 3) := by
  refine ⟨by decide, by decide, by decide, ?_⟩
  have htotal := prove_total (ofField (.fisher (.withCosineNorm 1 1))) #[1, 0, 0] {} (by decide)
    (by decide) (by decide)
  exact (htotal.2.1 2 3).mpr ⟨rfl, .inr ⟨rfl, by decide, rfl⟩⟩

end Problem

end CertifiedZeros
