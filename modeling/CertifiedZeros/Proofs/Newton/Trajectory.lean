import CertifiedZeros.Proofs.Problem.Contracts

/-! # The trajectory of Newton's method

The points that Newton's method visits depend on the field and the start alone. Tolerance and limit
only decide where on that trajectory it stops, and how.

* **`Measures`**, **`StepsTo`** — the residual at a point, and one step, in terms of the checked
  operations on arrays and matrices.
* **`Path`** — a number of steps, none of which starts from a point below the tolerance.
* **`Ends`** — how a run ends: at the end of which path, with which outcome.
* **`iterate_eq_iff`** — the iteration ends exactly in that way.
* **`Ends.mono`** — a longer limit only changes a run that was cut off.
* **`solve_ok_iff`** — a solution is the end of a path, measured below the tolerance.
* **`solve_limit`** — runs of the method that differ in the limit. -/

namespace CertifiedZeros

/-- The error of a dimension that does not fit is not that of a limit. -/
theorem RunError.mismatch_ne (expected got k : ℕ) (r : Float) :
    RunError.mismatch expected got ≠ .maxIterations k r := by
  rw [mismatch]
  split_ifs <;> exact nofun

namespace Newton

variable {field : VectorField Float} {settings : Settings} {norm : PhaseNorm Float}
  {tolerance r : Float} {x y z start : DenseVector Float} {v : Vector Float field.dim}
  {left left' done n : ℕ} {s : Solution} {outcome : Except RunError Solution}

/-! ## Paths -/

/-- **The residual at a point**: the norm of the value of the field, which is finite. -/
def Measures (field : VectorField Float) (norm : PhaseNorm Float) (x : DenseVector Float)
    (r : Float) : Prop :=
  ∃ value, field.eval x = .ok value ∧ value.isFinite = true ∧ r = norm.vector value

/-- **One Newton step**: the change solves the linear system of the derivative for the value. -/
def StepsTo (field : VectorField Float) (x y : DenseVector Float) : Prop :=
  ∃ value derivative change, field.eval x = .ok value ∧ field.jacobian x = .ok derivative ∧
    derivative.solve value = .ok change ∧ DenseVector.sub x change = .ok y

/-- **A path of `n` steps**, each from a point whose residual is not below the tolerance. -/
inductive Path (field : VectorField Float) (norm : PhaseNorm Float) (tolerance : Float) :
    ℕ → DenseVector Float → DenseVector Float → Prop where
  /-- No step at all. -/
  | stay (x : DenseVector Float) : Path field norm tolerance 0 x x
  /-- A step, and a path from there. -/
  | step {n : ℕ} {x y z : DenseVector Float} {r : Float} (hx : Measures field norm x r)
      (hr : ¬r < tolerance) (hxy : StepsTo field x y) (hyz : Path field norm tolerance n y z) :
      Path field norm tolerance (n + 1) x z

/-- **How a run ends** that starts at `x` after `done` steps and takes at most `left` more. -/
inductive Ends (field : VectorField Float) (norm : PhaseNorm Float) (tolerance : Float)
    (left done : ℕ) (x : DenseVector Float) : Except RunError Solution → Prop where
  /-- The residual falls below the tolerance. -/
  | converged {n : ℕ} {y : DenseVector Float} {r : Float} (hn : n ≤ left)
      (hpath : Path field norm tolerance n x y)
      (hy : Measures field norm y r) (hr : r < tolerance) :
      Ends field norm tolerance left done x (.ok ⟨y, r, done + n⟩)
  /-- All steps are taken. -/
  | cutOff {y : DenseVector Float} {r : Float}
      (hpath : Path field norm tolerance left x y)
      (hy : Measures field norm y r) (hr : ¬r < tolerance) :
      Ends field norm tolerance left done x (.error (.maxIterations (done + left) r))
  /-- There is no residual. -/
  | notFinite {n : ℕ} {y : DenseVector Float} (hn : n ≤ left)
      (hpath : Path field norm tolerance n x y)
      (hy : ¬∃ r, Measures field norm y r) :
      Ends field norm tolerance left done x (.error .notFinite)
  /-- There is no step. -/
  | singular {n : ℕ} {y : DenseVector Float} {r : Float} (hn : n < left)
      (hpath : Path field norm tolerance n x y)
      (hy : Measures field norm y r) (hr : ¬r < tolerance)
      (hstep : ¬∃ z, StepsTo field y z) :
      Ends field norm tolerance left done x (.error .singularJacobian)

theorem measures_toArray : Measures field norm v.toArray r ↔
    (field.value v).all Float.isFinite = true ∧ r = norm.ofVector (field.value v) := by
  constructor
  · rintro ⟨value, hvalue, hfinite, rfl⟩
    rw [VectorField.eval_toArray] at hvalue
    cases hvalue
    exact ⟨hfinite, PhaseNorm.vector_toArray ..⟩
  · rintro ⟨hfinite, rfl⟩
    exact ⟨_, VectorField.eval_toArray .., hfinite, (PhaseNorm.vector_toArray ..).symm⟩

/-- A step goes where the factors of the derivative lead to. -/
theorem stepsTo_toArray : StepsTo field v.toArray y ↔ ∃ f,
    LU.factor .binary64 (field.derivative v) = .ok f ∧
      y = (v.zipWith (· - ·) (f.solve (field.value v))).toArray := by
  rw [StepsTo, VectorField.eval_toArray, VectorField.jacobian_toArray]
  constructor
  · rintro ⟨_, _, change, ⟨⟩, ⟨⟩, hsolve, hsub⟩
    rw [DenseMatrix.solve_ofGrid] at hsolve
    cases hfactor : LU.factor .binary64 (field.derivative v) with
    | error f =>
      rw [hfactor] at hsolve
      cases hsolve
    | ok f =>
      rw [hfactor] at hsolve
      cases hsolve
      rw [DenseVector.sub_toArray] at hsub
      cases hsub
      exact ⟨f, rfl, rfl⟩
  · rintro ⟨f, hfactor, rfl⟩
    refine ⟨_, _, _, rfl, rfl, ?_, DenseVector.sub_toArray v (f.solve (field.value v))⟩
    rw [DenseMatrix.solve_ofGrid, hfactor]

/-- A point with a residual is a point of the phase space. -/
theorem Measures.exists_vector (h : Measures field norm x r) :
    ∃ v : Vector Float field.dim, x = v.toArray := by
  obtain ⟨value, hvalue, -⟩ := h
  rw [VectorField.eval, VectorField.pointOfDim] at hvalue
  split at hvalue
  · exact ⟨⟨x, ‹_›⟩, rfl⟩
  · cases hvalue

/-- A path to a point with a residual lies in the phase space. -/
theorem Path.exists_vector (h : Path field norm tolerance n x y) (hy : Measures field norm y r) :
    ∃ v : Vector Float field.dim, x = v.toArray := by
  cases h with
  | stay => exact hy.exists_vector
  | step hx => exact hx.exists_vector

/-! ## What the iteration does at a point -/

/-- Below the tolerance the iteration is over. -/
theorem iterate_of_below (hv : Measures field settings.norm v.toArray r)
    (hr : r < settings.tolerance) :
    iterate field settings left done v = .ok ⟨v.toArray, r, done⟩ := by
  obtain ⟨hfinite, rfl⟩ := measures_toArray.mp hv
  cases left with
  | zero => rw [iterate_zero, if_pos hfinite, if_pos hr]
  | succ left => rw [iterate_succ, if_pos hfinite, if_pos hr]

/-- Without a residual it stops. -/
theorem iterate_of_not_measures (hv : ¬∃ r, Measures field settings.norm v.toArray r) :
    iterate field settings left done v = .error .notFinite := by
  have hfinite : ¬(field.value v).all Float.isFinite = true :=
    fun hfinite => hv ⟨_, measures_toArray.mpr ⟨hfinite, rfl⟩⟩
  cases left with
  | zero => rw [iterate_zero, if_neg hfinite]
  | succ left => rw [iterate_succ, if_neg hfinite]

/-- At the limit it is cut off. -/
theorem iterate_zero_of_not_below (hv : Measures field settings.norm v.toArray r)
    (hr : ¬r < settings.tolerance) :
    iterate field settings 0 done v = .error (.maxIterations done r) := by
  obtain ⟨hfinite, rfl⟩ := measures_toArray.mp hv
  rw [iterate_zero, if_pos hfinite, if_neg hr]

/-- Short of the limit it goes on with a step. -/
theorem iterate_succ_of_not_below (hv : Measures field settings.norm v.toArray r)
    (hr : ¬r < settings.tolerance) : iterate field settings (left + 1) done v
      = step field v (field.value v) >>= iterate field settings left (done + 1) := by
  obtain ⟨hfinite, rfl⟩ := measures_toArray.mp hv
  rw [iterate_succ, if_pos hfinite, if_neg hr]

/-- **What there is to do at a point**: nothing can be measured, or the residual is below the
tolerance, or it is not. -/
theorem measures_cases (settings : Settings) (v : Vector Float field.dim) :
    (¬∃ r, Measures field settings.norm v.toArray r) ∨
      ∃ r, Measures field settings.norm v.toArray r ∧
        (r < settings.tolerance ∨ ¬r < settings.tolerance) := by
  by_cases h : ∃ r, Measures field settings.norm v.toArray r
  · obtain ⟨r, hr⟩ := h
    exact .inr ⟨r, hr, Classical.em _⟩
  · exact .inl h

/-! ## Whole runs -/

/-- **A step before a run** makes its path longer by one. -/
theorem Ends.step (hx : Measures field norm x r) (hr : ¬r < tolerance) (hxy : StepsTo field x y)
    (h : Ends field norm tolerance left (done + 1) y outcome) :
    Ends field norm tolerance (left + 1) done x outcome := by
  have hcount : ∀ n, done + 1 + n = done + (n + 1) := fun n => by omega
  cases h with
  | converged hn hpath hy hend =>
    rw [hcount]
    exact .converged (Nat.succ_le_succ hn) (.step hx hr hxy hpath) hy hend
  | cutOff hpath hy hend =>
    rw [hcount]
    exact .cutOff (.step hx hr hxy hpath) hy hend
  | notFinite hn hpath hy => exact .notFinite (Nat.succ_le_succ hn) (.step hx hr hxy hpath) hy
  | singular hn hpath hy hend hstep =>
    exact .singular (Nat.succ_lt_succ hn) (.step hx hr hxy hpath) hy hend hstep

/-- **Every run comes to one of these ends.** -/
theorem iterate_ends (field : VectorField Float) (settings : Settings) (left done : ℕ)
    (v : Vector Float field.dim) :
    Ends field settings.norm settings.tolerance left done v.toArray
      (iterate field settings left done v) := by
  -- one step less is left at the next point, where one step more is done
  induction left generalizing done v with
  | zero =>
    rcases measures_cases settings v with hv | ⟨r, hv, hr | hr⟩
    · rw [iterate_of_not_measures hv]
      exact .notFinite (Nat.zero_le _) (.stay _) hv
    · rw [iterate_of_below hv hr]
      exact .converged (Nat.zero_le _) (.stay _) hv hr
    · rw [iterate_zero_of_not_below hv hr]
      exact .cutOff (.stay _) hv hr
  | succ left ih =>
    rcases measures_cases settings v with hv | ⟨r, hv, hr | hr⟩
    · rw [iterate_of_not_measures hv]
      exact .notFinite (Nat.zero_le _) (.stay _) hv
    · rw [iterate_of_below hv hr]
      exact .converged (Nat.zero_le _) (.stay _) hv hr
    · rw [iterate_succ_of_not_below hv hr, step_eq]
      cases hfactor : LU.factor .binary64 (field.derivative v) with
      | error f =>
        refine .singular (Nat.succ_pos _) (.stay _) hv hr ?_
        rintro ⟨z, hz⟩
        obtain ⟨f, hf, -⟩ := stepsTo_toArray.mp hz
        rw [hfactor] at hf
        cases hf
      | ok f => exact (ih (done + 1) _).step hv hr (stepsTo_toArray.mpr ⟨f, hfactor, rfl⟩)

/-- **A path is followed** by the iteration, as far as the limit allows. -/
theorem Path.iterate_eq (h : Path field settings.norm settings.tolerance n v.toArray y) :
    ∃ w : Vector Float field.dim, y = w.toArray ∧ ∀ left done,
      iterate field settings (left + n) done v = iterate field settings left (done + n) w := by
  -- on the steps of the path, from whichever vector its first point is
  generalize hx : v.toArray = x at h
  induction h generalizing v with
  | stay x => exact ⟨v, hx.symm, fun _ _ => rfl⟩
  | @step n x y z r hmeasured hr hxy _ ih =>
    subst hx
    obtain ⟨f, hfactor, hy⟩ := stepsTo_toArray.mp hxy
    obtain ⟨w, hz, hrest⟩ := ih hy.symm
    refine ⟨w, hz, fun left done => ?_⟩
    rw [← Nat.add_assoc, iterate_succ_of_not_below hmeasured hr, step_eq, hfactor]
    refine (hrest left (done + 1)).trans ?_
    rw [Nat.add_right_comm, Nat.add_assoc]

/-- A run ends in one way only. -/
theorem Ends.iterate_eq
    (h : Ends field settings.norm settings.tolerance left done v.toArray outcome) :
    iterate field settings left done v = outcome := by
  cases h with
  | @converged n y r hn hpath hy hr =>
    obtain ⟨w, rfl, hrun⟩ := hpath.iterate_eq
    obtain ⟨m, rfl⟩ := Nat.exists_eq_add_of_le' hn
    rw [hrun, iterate_of_below hy hr]
  | @cutOff y r hpath hy hr =>
    obtain ⟨w, rfl, hrun⟩ := hpath.iterate_eq
    have hlast := hrun 0 done
    rw [Nat.zero_add] at hlast
    rw [hlast, iterate_zero_of_not_below hy hr]
  | @notFinite n y hn hpath hy =>
    obtain ⟨w, rfl, hrun⟩ := hpath.iterate_eq
    obtain ⟨m, rfl⟩ := Nat.exists_eq_add_of_le' hn
    rw [hrun, iterate_of_not_measures hy]
  | @singular n y r hn hpath hy hr hstep =>
    obtain ⟨w, rfl, hrun⟩ := hpath.iterate_eq
    -- at the end of the path one more step is allowed, the one that fails
    obtain ⟨m, rfl⟩ := Nat.exists_eq_add_of_le' (Nat.succ_le_of_lt hn)
    rw [Nat.add_succ, ← Nat.succ_add, hrun, iterate_succ_of_not_below hy hr, step_eq]
    cases hfactor : LU.factor .binary64 (field.derivative w) with
    | error f => rfl
    | ok f => exact absurd ⟨_, stepsTo_toArray.mpr ⟨f, hfactor, rfl⟩⟩ hstep

/-- **The iteration ends exactly as paths do.** -/
theorem iterate_eq_iff : iterate field settings left done v = outcome ↔
    Ends field settings.norm settings.tolerance left done v.toArray outcome :=
  ⟨fun h => h ▸ iterate_ends field settings left done v, Ends.iterate_eq⟩

/-- **A longer limit** changes nothing, unless the run was cut off. -/
theorem Ends.mono (hle : left ≤ left') (h : Ends field norm tolerance left done x outcome) :
    (∃ r, ¬r < tolerance ∧ outcome = .error (.maxIterations (done + left) r)) ∨
      Ends field norm tolerance left' done x outcome := by
  cases h with
  | converged hn hpath hy hr => exact .inr (.converged (Nat.le_trans hn hle) hpath hy hr)
  | cutOff hpath hy hr => exact .inl ⟨_, hr, rfl⟩
  | notFinite hn hpath hy => exact .inr (.notFinite (Nat.le_trans hn hle) hpath hy)
  | singular hn hpath hy hr hstep =>
    exact .inr (.singular (Nat.lt_of_lt_of_le hn hle) hpath hy hr hstep)

/-- What a run says that was cut off. -/
theorem Ends.of_maxIterations {k : ℕ}
    (h : Ends field norm tolerance left 0 x (.error (.maxIterations k r))) :
    k = left ∧ ¬r < tolerance := by
  cases h with
  | cutOff _ _ hr => exact ⟨Nat.zero_add left, hr⟩

/-! ## The method with different limits -/

/-- **The method ends as the iteration does**, from a start in the phase space. -/
theorem solve_eq_iff (m : ℕ) :
    solve field v.toArray { settings with maxIterations := m } = outcome ↔
      Ends field settings.norm settings.tolerance m 0 v.toArray outcome := by
  rw [solve, RunError.pointOfDim_toArray]
  exact iterate_eq_iff

/-- A start of another length is refused, whatever the settings. -/
theorem solve_of_size_ne (h : start.size ≠ field.dim) (settings : Settings) :
    solve field start settings = .error (RunError.mismatch field.dim start.size) := by
  rw [solve, RunError.pointOfDim, dif_neg h]
  rfl

/-- **A solution is the end of a path** within the limit, measured below the tolerance. -/
theorem solve_ok_iff : solve field start settings = .ok s ↔ s.iterations ≤ settings.maxIterations ∧
    Path field settings.norm settings.tolerance s.iterations start s.point ∧
    Measures field settings.norm s.point s.residual ∧ s.residual < settings.tolerance := by
  constructor
  · intro h
    by_cases hsize : start.size = field.dim
    swap
    · rw [solve_of_size_ne hsize] at h
      cases h
    obtain ⟨v, rfl⟩ : ∃ v : Vector Float field.dim, start = v.toArray := ⟨⟨start, hsize⟩, rfl⟩
    cases (solve_eq_iff settings.maxIterations).mp h with
    | converged hn hpath hy hr =>
      rw [Nat.zero_add]
      exact ⟨hn, hpath, hy, hr⟩
  · rintro ⟨hn, hpath, hy, hr⟩
    obtain ⟨v, rfl⟩ := hpath.exists_vector hy
    have hends : Ends field settings.norm settings.tolerance settings.maxIterations 0 v.toArray
        (.ok ⟨s.point, s.residual, 0 + s.iterations⟩) := .converged hn hpath hy hr
    rw [Nat.zero_add] at hends
    exact (solve_eq_iff settings.maxIterations).mpr hends

/-- **Runs that differ in the limit.** Unless the shorter run reaches its limit, both have the same
outcome; if the longer run reaches its limit, so does the shorter one, at a residual that is not
below the tolerance. A solution comes after as many steps as it says, within the limit, none of them
from a point below the tolerance. Its residual is the one at its point, below the tolerance, so that
the method stays there when it is started again. -/
theorem solve_limit (field : VectorField Float) (start : DenseVector Float) (settings : Settings)
    {m m' : ℕ} (hle : m ≤ m') :
    ((∀ k r, solve field start { settings with maxIterations := m } ≠ .error (.maxIterations k r)) →
      solve field start { settings with maxIterations := m' }
        = solve field start { settings with maxIterations := m }) ∧
    (∀ k r, solve field start { settings with maxIterations := m' } = .error (.maxIterations k r) →
      k = m' ∧ ∃ r', ¬r' < settings.tolerance ∧
        solve field start { settings with maxIterations := m } = .error (.maxIterations m r')) ∧
    ∀ s, solve field start { settings with maxIterations := m } = .ok s →
      s.iterations ≤ m ∧ s.residual < settings.tolerance ∧
        Measures field settings.norm s.point s.residual ∧
        Path field settings.norm settings.tolerance s.iterations start s.point ∧
        ∀ k, solve field s.point { settings with maxIterations := k }
          = .ok ⟨s.point, s.residual, 0⟩ := by
  by_cases hsize : start.size = field.dim
  swap
  · -- a start that does not fit has the same outcome under every limit
    simp only [solve_of_size_ne hsize]
    exact ⟨fun _ => trivial,
      fun k r h => absurd (Except.error.inj h) (RunError.mismatch_ne _ _ k r), nofun⟩
  obtain ⟨v, rfl⟩ : ∃ v : Vector Float field.dim, start = v.toArray := ⟨⟨start, hsize⟩, rfl⟩
  have hends : ∀ k, Ends field settings.norm settings.tolerance k 0 v.toArray
      (solve field v.toArray { settings with maxIterations := k }) :=
    fun k => (solve_eq_iff k).mp rfl
  refine ⟨fun hother => ?_, fun k r hcut => ?_, fun s hs => ?_⟩
  · rcases (hends m).mono hle with ⟨r, -, hcut⟩ | hlonger
    · exact absurd hcut (hother _ _)
    · exact (solve_eq_iff m').mpr hlonger
  · obtain ⟨hk, -⟩ := (hcut ▸ hends m').of_maxIterations
    refine ⟨hk, ?_⟩
    rcases (hends m).mono hle with ⟨r', hr', hshort⟩ | hlonger
    · exact ⟨r', hr', by rwa [Nat.zero_add] at hshort⟩
    · -- the runs agree, so that the shorter one is cut off as well
      have hshort := ((solve_eq_iff m').mpr hlonger).symm.trans hcut
      obtain ⟨rfl, hr⟩ := (hshort ▸ hends m).of_maxIterations
      exact ⟨r, hr, hshort⟩
  · obtain ⟨hn, hpath, hy, hr⟩ := solve_ok_iff.mp hs
    exact ⟨hn, hr, hy, hpath, fun k => solve_ok_iff.mpr ⟨Nat.zero_le k, .stay _, hy, hr⟩⟩

/-- One step from `2` towards the zero `1` of `x - x ^ 2`, with the limits `1` and `3`. -/
theorem solve_limit_fisher :
    ∃ s, solve (.fisher ⟨1, 0, .max⟩) #[2] { tolerance := 1, maxIterations := 1 } = .ok s ∧
      solve (.fisher ⟨1, 0, .max⟩) #[2] { tolerance := 1, maxIterations := 3 } = .ok s ∧
      s.iterations = 1 ∧ Path (.fisher ⟨1, 0, .max⟩) .max 1 1 #[2] s.point := by
  have hsteps : (solve (.fisher ⟨1, 0, .max⟩) #[2]
      { tolerance := 1, maxIterations := 1 }).toOption.map Solution.iterations = some 1 := by
    decide +kernel
  obtain ⟨hsame, -, hsolution⟩ :=
    solve_limit (.fisher ⟨1, 0, .max⟩) #[2] { tolerance := 1 } (show 1 ≤ 3 by decide)
  cases hrun : solve (.fisher ⟨1, 0, .max⟩) #[2] { tolerance := 1, maxIterations := 1 } with
  | error e =>
    rw [hrun] at hsteps
    cases hsteps
  | ok s =>
    rw [hrun] at hsteps
    have hiterations : s.iterations = 1 := Option.some.inj hsteps
    obtain ⟨-, -, -, hpath, -⟩ := hsolution s hrun
    refine ⟨s, rfl, (hsame fun k r hcut => ?_).trans hrun, hiterations, hiterations ▸ hpath⟩
    rw [hrun] at hcut
    cases hcut

end Newton

end CertifiedZeros
