import CertifiedZeros.Proofs.Binary64.RelativeError
import CertifiedZeros.Proofs.Binary64.Scaling
import CertifiedZeros.Proofs.Interval.Arithmetic
import CertifiedZeros.Proofs.Loop
import CertifiedZeros.VectorField.ForwardDifference

/-! # The steps and entries of forward differences

A difference quotient divides by the step that was meant, while the coordinate moves by the step
that was left after rounding. The two agree to one part in `2 ^ 26`, because the step is as large
as that part of the coordinate and a rounding is far smaller. In particular no step is lost, so an
entry of the quotient is about two different points.

* **`differenceStep_spec`** — the step is computed exactly; **`abs_rounded_step_le`** — it is taken
  almost exactly; **`Moves`** — what a coordinate gains.
* **`writeColumn_eq_ok_iff`** — one column, entry by entry.
* **`Run`** — the calls of a run, and the entries that come out of them;
  **`forwardDifference_eq_ok_iff`** — the runs that finish are these.
* **`forwardDifference_steps`** — both together, and the entries that vanish. -/

namespace CertifiedZeros

open Binary64

variable {m n : ℕ} {σ : Type}

/-! ## The step -/

theorem sqrtEpsilon_spec :
    sqrtEpsilon.isFinite = true ∧ real sqrtEpsilon = (2 : ℝ) ^ (-26 : ℤ) :=
  power_spec (w := 0x3E50000000000000) rfl (by decide) (by decide) (by decide)

/-- **The step is computed without an error**: a power of two moves a number of at least one to a
normal number. -/
theorem differenceStep_spec {x : Float} (hx : x.isFinite = true) :
    (differenceStep x).isFinite = true ∧
      real (differenceStep x) = (2 : ℝ) ^ (-26 : ℤ) * max |real x| 1 := by
  obtain ⟨habs, habsReal⟩ := abs_finite hx
  obtain ⟨hlarger, hlargerReal⟩ := Interval.larger_finite habs isFinite_one
  rw [habsReal, real_one] at hlargerReal
  have hone : 1 ≤ max |real x| 1 := le_max_right _ _
  have habsMax : |max |real x| 1| = max |real x| 1 := abs_of_pos (by linarith)
  have hscaled : (2 : ℝ) ^ (-26 : ℤ) ≤ |(2 : ℝ) ^ (-26 : ℤ) * max |real x| 1| := by
    rw [abs_scale, habsMax]
    exact le_mul_of_one_le_right (zpow_two_pos _).le hone
  -- the product is a number of the format, so that nothing is left to round
  refine exact_spec ?_ (Representable.scale ?_ ?_ ((zpow_two_le (by norm_num)).trans hscaled)) ?_
  · have h := mul_spec sqrtEpsilon_spec.1 hlarger
    rwa [sqrtEpsilon_spec.2, hlargerReal] at h
  · exact hlargerReal ▸ representable_real hlarger
  · rw [habsMax, ← zpow_zero (2 : ℝ)] at *
    exact (zpow_two_le (by norm_num)).trans hone
  · have hlt := abs_real_lt hlarger
    rw [hlargerReal] at hlt
    rw [abs_scale]
    exact (mul_le_of_le_one_left (abs_nonneg _) (by norm_num)).trans_lt hlt

/-- **A step survives its rounding** to one part in `2 ^ 26`: the sum is at most `2 ^ 26 + 1` times the
step, and it is rounded by a part of `2 ^ (-53)`. -/
theorem abs_rounded_step_le {x h : ℝ} (hx : |x| ≤ 2 ^ 26 * h) (hh : (2 : ℝ) ^ (-26 : ℤ) ≤ h) :
    |(rounded (x + h) - x) - h| ≤ (2 : ℝ) ^ (-26 : ℤ) * h := by
  have hpos : 0 < h := (zpow_two_pos _).trans_le hh
  have hsum : |x + h| ≤ (2 ^ 26 + 1) * h := by
    linarith [abs_add_le x h, abs_of_pos hpos]
  have hunderflow : underflowError ≤ (2 : ℝ) ^ (-28 : ℤ) * h :=
    calc underflowError ≤ (2 : ℝ) ^ (-28 : ℤ) * (2 : ℝ) ^ (-26 : ℤ) := by
          rw [← zpow_add₀ two_ne_zero]
          exact zpow_two_le (by norm_num)
      _ ≤ (2 : ℝ) ^ (-28 : ℤ) * h := mul_le_mul_of_nonneg_left hh (zpow_two_pos _).le
  calc |(rounded (x + h) - x) - h| = |(x + h) - rounded (x + h)| := by
        rw [abs_sub_comm (x + h), sub_sub]
    _ ≤ |x + h| * unitRoundoff + underflowError := abs_sub_rounded_le_relative _
    _ ≤ (2 ^ 26 + 1) * h * unitRoundoff + (2 : ℝ) ^ (-28 : ℤ) * h :=
        add_le_add (mul_le_mul_of_nonneg_right hsum unitRoundoff_pos.le) hunderflow
    _ = ((2 ^ 26 + 1) * (2 : ℝ) ^ (-53 : ℤ) + (2 : ℝ) ^ (-28 : ℤ)) * h := by
        rw [unitRoundoff]
        ring
    _ ≤ (2 : ℝ) ^ (-26 : ℤ) * h := mul_le_mul_of_nonneg_right (by norm_num) hpos.le

/-- **The coordinate `j` of `x` moves by its step**, and the others stay: the step is exact, finite and
positive, and what the coordinate gains differs from it by one part in `2 ^ 26` at most. -/
structure Moves (x : Vector Float n) (j : Fin n) : Prop where
  step_isFinite : (differenceStep (x.get j)).isFinite = true
  step_eq : real (differenceStep (x.get j)) = (2 : ℝ) ^ (-26 : ℤ) * max |real (x.get j)| 1
  step_pos : 0 < real (differenceStep (x.get j))
  others : ∀ k, k ≠ j → (perturbed x j).get k = x.get k
  isFinite : ((perturbed x j).get j).isFinite = true
  lt : real (x.get j) < real ((perturbed x j).get j)
  close : |(real ((perturbed x j).get j) - real (x.get j)) - real (differenceStep (x.get j))|
    ≤ (2 : ℝ) ^ (-26 : ℤ) * real (differenceStep (x.get j))

/-- Up to `2 ^ 1023`, half of the limit, there is room for the step. -/
theorem add_step_lt {r : ℝ} (hr : |r| ≤ 2 ^ 1023) :
    |r| + (2 : ℝ) ^ (-26 : ℤ) * max |r| 1 < limit - topUnit / 2 := by
  have hmax : max |r| 1 ≤ limit / 2 := by
    have hhalf : limit = 2 * 2 ^ 1023 := by
      rw [limit, show (1024 : ℤ) = ((1023 + 1 : ℕ) : ℤ) from rfl, zpow_natCast, pow_succ']
    rw [hhalf, mul_div_cancel_left₀ _ two_ne_zero]
    exact max_le hr (one_le_pow₀ one_le_two)
  have hstep : (2 : ℝ) ^ (-26 : ℤ) * max |r| 1 ≤ 1 / 4 * (limit / 2) :=
    mul_le_mul (by norm_num) hmax (by positivity) (by norm_num)
  have hcoordinate := (le_max_left |r| 1).trans hmax
  linarith only [hcoordinate, hstep, limit_eq, limit_pos]

/-- **A coordinate of magnitude up to `2 ^ 1023` moves.** -/
theorem moves {x : Vector Float n} {j : Fin n} (hfin : (x.get j).isFinite = true)
    (hle : |real (x.get j)| ≤ 2 ^ 1023) : Moves x j := by
  obtain ⟨hstep, hreal⟩ := differenceStep_spec hfin
  have hlow : (2 : ℝ) ^ (-26 : ℤ) ≤ real (differenceStep (x.get j)) :=
    hreal ▸ le_mul_of_one_le_right (zpow_two_pos _).le (le_max_right _ _)
  have hpos := (zpow_two_pos _).trans_le hlow
  -- `2 ^ 26` steps are as large as the coordinate, or one where it is smaller
  have hcoordinate : |real (x.get j)| ≤ 2 ^ 26 * real (differenceStep (x.get j)) := by
    have hscale : (2 : ℝ) ^ 26 * (2 : ℝ) ^ (-26 : ℤ) = 1 := by norm_num
    rw [hreal, ← mul_assoc, hscale, one_mul]
    exact le_max_left _ _
  have hmoved : (perturbed x j).get j = x.get j + differenceStep (x.get j) := by
    rw [perturbed, get_set, if_pos rfl]
  have hfinite : (x.get j + differenceStep (x.get j)).isFinite = true := by
    refine isFinite_add hfin hstep ?_
    rw [abs_of_pos hpos, hreal]
    exact add_step_lt hle
  have hsum := real_eq_rounded (add_spec hfin hstep).2 hfinite
  have hclose := abs_rounded_step_le hcoordinate hlow
  rw [← hsum, ← hmoved] at hclose
  refine ⟨hstep, hreal, hpos, fun k hk => ?_, hmoved ▸ hfinite, ?_, hclose⟩
  · rw [perturbed, get_set, if_neg hk.symm]
  · have hsmall : (2 : ℝ) ^ (-26 : ℤ) * real (differenceStep (x.get j))
        < real (differenceStep (x.get j)) := mul_lt_of_lt_one_left hpos (by norm_num)
    linarith [(abs_le.mp hclose).1]

/-! ## One column -/

theorem entry_of_some {x : DenseVector Float} {i : ℕ} {y : Float} (h : x[i]? = some y) :
    DenseVector.entry x i = .ok y := by
  rw [DenseVector.entry, h]

theorem entry_of_none {x : DenseVector Float} {i : ℕ} (h : x[i]? = none) :
    DenseVector.entry x i = .error .outOfRange := by
  rw [DenseVector.entry, h]

/-- **A column written down to row `k`**: the rows above hold quotients, and the other entries are those
of the grid `a` that the column was written into. -/
structure WrittenTo (here : Vector Float m) (h : Float) (there : DenseVector Float) (j : Fin n)
    (a : Grid m n Float) (k : ℕ) (b : Grid m n Float) : Prop where
  quotient : ∀ i : Fin m, i < k → ∃ y, there[(i : ℕ)]? = some y ∧ b.get i j = (y - here.get i) / h
  rest : ∀ (i : Fin m) l, k ≤ i ∨ l ≠ j → b.get i l = a.get i l

variable {here : Vector Float m} {h : Float} {there : DenseVector Float} {j : Fin n}
  {a b : Grid m n Float}

/-- One more row of a column. -/
theorem WrittenTo.set {i : Fin m} {y : Float} (hb : WrittenTo here h there j a i b)
    (hy : there[(i : ℕ)]? = some y) :
    WrittenTo here h there j a (i + 1) (b.set i j ((y - here.get i) / h)) where
  quotient r hr := by
    rw [Grid.get_set]
    split_ifs with hrow
    · obtain rfl := hrow.1
      exact ⟨y, hy, rfl⟩
    · have hne : i ≠ r := fun heq => hrow ⟨heq, rfl⟩
      exact hb.quotient r (by omega)
  rest r l hrl := by
    rw [Grid.get_set, if_neg]
    · exact hb.rest r l (hrl.imp_left (by omega))
    · rintro ⟨rfl, rfl⟩
      exact hrl.elim (by omega) fun hne => hne rfl

/-- **The loop over the rows** writes the whole column, or an answer is too short. -/
theorem writeColumn_spec (here : Vector Float m) (h : Float) (there : DenseVector Float)
    (j : Fin n) (a : Grid m n Float) :
    (∀ b, writeColumn here h there j a = .ok b → WrittenTo here h there j a m b) ∧
      ∀ e, writeColumn here h there j a = .error e → ∃ i : Fin m, there[(i : ℕ)]? = none := by
  refine foldlM_invariant (P := WrittenTo here h there j a)
    ⟨fun i hi => absurd hi (Nat.not_lt_zero _), fun _ _ _ => rfl⟩ fun i b hb => ?_
  cases hentry : there[(i : ℕ)]? with
  | none =>
    rw [entry_of_none hentry]
    exact ⟨fun t ht => (nomatch ht), fun _ _ => ⟨i, hentry⟩⟩
  | some y =>
    rw [entry_of_some hentry]
    refine ⟨fun t ht => ?_, fun e he => nomatch he⟩
    cases ht
    exact hb.set hentry

/-- **A column is written exactly when the answer reaches far enough**, and then it holds the quotients
and the other columns are as before. -/
theorem writeColumn_eq_ok_iff :
    writeColumn here h there j a = .ok b ↔
      (∀ i : Fin m, ∃ y, there[(i : ℕ)]? = some y ∧ b.get i j = (y - here.get i) / h) ∧
        ∀ i l, l ≠ j → b.get i l = a.get i l := by
  obtain ⟨hok, herror⟩ := writeColumn_spec here h there j a
  constructor
  · intro hb
    have hwritten := hok b hb
    exact ⟨fun i => hwritten.quotient i i.isLt, fun i l hl => hwritten.rest i l (.inr hl)⟩
  · rintro ⟨hquotient, hrest⟩
    cases hcolumn : writeColumn here h there j a with
    | error e =>
      obtain ⟨i, hnone⟩ := herror e hcolumn
      obtain ⟨y, hsome, -⟩ := hquotient i
      rw [hnone] at hsome
      cases hsome
    | ok c =>
      have hwritten := hok c hcolumn
      congr 1
      refine Grid.ext_get fun i l => ?_
      by_cases hl : l = j
      · subst hl
        obtain ⟨y, hy, hc⟩ := hwritten.quotient i i.isLt
        obtain ⟨z, hz, hb⟩ := hquotient i
        rw [hy, Option.some.injEq] at hz
        rw [hc, hb, hz]
      · rw [hwritten.rest i l (.inr hl), hrest i l hl]

/-! ## All calls -/

/-- **The calls at the moved points**, one for each coordinate in order, with their answers. -/
def Calls (f : Procedure σ n) (x : Vector Float n) (there : Fin n → DenseVector Float) (s t : σ) :
    Prop :=
  ∃ states : ℕ → σ, states 0 = s ∧ states n = t ∧
    ∀ j : Fin n, (f (perturbed x j)).run (states j) = .ok (there j, states (j + 1))

/-- **A grid of difference quotients**, between the answers `here` and `there`. -/
def Quotients (x : Vector Float n) (here : DenseVector Float) (there : Fin n → DenseVector Float)
    (g : Grid here.size n Float) : Prop :=
  ∀ (i : Fin here.size) (j : Fin n), ∃ y, (there j)[(i : ℕ)]? = some y ∧
    g.get i j = (y - here[i]) / differenceStep (x.get j)

/-- The first `k` columns of a grid, and zeros after them. -/
def firstColumns (g : Grid m n Float) (k : ℕ) : Grid m n Float :=
  .ofFn fun i l => if (l : ℕ) < k then g.get i l else 0

theorem get_firstColumns (g : Grid m n Float) (k : ℕ) (i : Fin m) (l : Fin n) :
    (firstColumns g k).get i l = if (l : ℕ) < k then g.get i l else 0 :=
  Grid.get_ofFn ..

theorem firstColumns_zero (g : Grid m n Float) :
    firstColumns g 0 = ⟨Vector.replicate (n * m) 0⟩ :=
  Grid.ext_get fun i l => by
    rw [get_firstColumns, if_neg (Nat.not_lt_zero _), Grid.get, get_replicate]

theorem firstColumns_last (g : Grid m n Float) : firstColumns g n = g :=
  Grid.ext_get fun i l => by rw [get_firstColumns, if_pos l.isLt]

/-- What a column holds when it is written, it holds in the end. -/
theorem get_last_of_rounds (grids : ℕ → Grid m n Float)
    (rest : ∀ (j : Fin n) i l, l ≠ j → (grids (j + 1)).get i l = (grids j).get i l)
    (i : Fin m) (j : Fin n) : (grids n).get i j = (grids (j + 1)).get i j := by
  have hlater : ∀ k, (j : ℕ) + 1 ≤ k → k ≤ n → (grids k).get i j = (grids (j + 1)).get i j := by
    intro k hk
    induction k, hk using Nat.le_induction with
    | base => exact fun _ => rfl
    | succ k hk ih =>
      intro hkn
      have hne : j ≠ ⟨k, hkn⟩ := fun heq => absurd (congrArg Fin.val heq) (by simp; omega)
      rw [rest ⟨k, hkn⟩ i j hne, ih (by omega)]
  exact hlater n j.isLt le_rfl

/-- **The loop over the coordinates** makes its calls and fills the grid with their quotients. -/
theorem writeColumns_eq_ok_iff {f : Procedure σ n} {x : Vector Float n} {here : DenseVector Float}
    {g : Grid here.size n Float} {s t : σ} : (writeColumns f x here).run s = .ok (g, t) ↔
      ∃ there, Calls f x there s t ∧ Quotients x here there g := by
  rw [writeColumns, run_foldlM, foldlM_eq_ok_iff]
  simp only [run_bind_eq_ok_iff, run_lift_eq_ok_iff, writeColumn_eq_ok_iff]
  constructor
  · rintro ⟨states, hstart, hend, hround⟩
    choose there next hcall hcolumn hnext using hround
    have hcalls (j : Fin n) :
        (f (perturbed x j)).run (states j).2 = .ok (there j, (states (j + 1)).2) :=
      hnext j ▸ hcall j
    refine ⟨there, ⟨fun k => (states k).2, congrArg Prod.snd hstart, congrArg Prod.snd hend,
      hcalls⟩, fun i j => ?_⟩
    obtain ⟨y, hy, hquotient⟩ := (hcolumn j).1 i
    have hlast := get_last_of_rounds (fun k => (states k).1) (fun j => (hcolumn j).2) i j
    exact ⟨y, hy, (congrArg (fun p => p.1.get i j) hend).symm.trans (hlast.trans hquotient)⟩
  · rintro ⟨there, ⟨states, hstart, hend, hcall⟩, hquotients⟩
    -- the grid after `k` rounds is known: the columns of `g` so far, and zeros
    refine ⟨fun k => (firstColumns g k, states k),
      Prod.ext (firstColumns_zero g) hstart, Prod.ext (firstColumns_last g) hend,
      fun j => ⟨there j, states (j + 1), hcall j, ⟨fun i => ?_, fun i l hl => ?_⟩, rfl⟩⟩
    · obtain ⟨y, hy, hquotient⟩ := hquotients i j
      exact ⟨y, hy, ((get_firstColumns g _ i j).trans (if_pos (Nat.lt_succ_self _))).trans hquotient⟩
    · have hcolumn : (l : ℕ) < j + 1 ↔ (l : ℕ) < j := by
        have := Fin.val_ne_of_ne hl
        omega
      simp only [get_firstColumns, hcolumn]

/-- **A run that finishes**, from the state `s` to the state `t`: the answer `here` at the point itself,
then the answers `there` at the moved points, and the grid of the quotients. -/
structure Run (f : Procedure σ n) (x : Vector Float n) (s : σ) (here : DenseVector Float)
    (there : Fin n → DenseVector Float) (g : Grid here.size n Float) (t : σ) : Prop where
  calls : ∃ u, (f x).run s = .ok (here, u) ∧ Calls f x there u t
  room : here.size * n < storageLimit
  entries : Quotients x here there g

theorem forwardDifference_eq_ok_iff {f : Procedure σ n} {x : Vector Float n} {s t : σ}
    {a : DenseMatrix Float} : (forwardDifference f x).run s = .ok (a, t) ↔
      ∃ here there g, a = .ofGrid g ∧ Run f x s here there g t := by
  rw [forwardDifference]
  simp only [run_bind_eq_ok_iff, run_lift_eq_ok_iff, requireRoom_eq_ok_iff]
  constructor
  · rintro ⟨here, u, hhere, -, _, ⟨hroom, rfl⟩, g, v, hcolumns, hreturn⟩
    cases hreturn
    obtain ⟨there, hcalls, hquotients⟩ := writeColumns_eq_ok_iff.mp hcolumns
    exact ⟨here, there, g, rfl, ⟨u, hhere, hcalls⟩, hroom, hquotients⟩
  · rintro ⟨here, there, g, rfl, ⟨⟨u, hhere, hcalls⟩, hroom, hquotients⟩⟩
    exact ⟨here, u, hhere, (), u, ⟨hroom, rfl⟩, g, t,
      writeColumns_eq_ok_iff.mpr ⟨there, hcalls, hquotients⟩, rfl⟩

/-! ## Entries that vanish -/

/-- **Component `i` of `f` does not depend on coordinate `j`**: answers at points that differ from `x` in
coordinate `j` at most have the component that answers at `x` have, whenever the calls are made. -/
def IgnoresCoordinate (f : Procedure σ n) (x : Vector Float n) (j : Fin n) (i : ℕ) : Prop :=
  ∀ y : Vector Float n, (∀ k, k ≠ j → y.get k = x.get k) →
    ∀ s s' u u' t t', (f x).run s = .ok (u, t) → (f y).run s' = .ok (u', t') → u'[i]? = u[i]?

/-- **A component that does not depend on a coordinate has no difference there.** -/
theorem Run.get_eq_zero {f : Procedure σ n} {x : Vector Float n} {s t : σ}
    {here : DenseVector Float} {there : Fin n → DenseVector Float} {g : Grid here.size n Float}
    (hrun : Run f x s here there g t) (hmoves : Moves x j) {i : Fin here.size}
    (hignores : IgnoresCoordinate f x j i) (hfin : here[i].isFinite = true) : g.get i j = 0 := by
  obtain ⟨u, hhere, states, -, -, hcall⟩ := hrun.calls
  obtain ⟨y, hy, hquotient⟩ := hrun.entries i j
  have hsame := hignores _ hmoves.others _ _ _ _ _ _ hhere (hcall j)
  rw [hy, Array.getElem?_eq_getElem i.isLt, Option.some.injEq] at hsame
  calc g.get i j = (here[i] - here[i]) / differenceStep (x.get j) := hsame ▸ hquotient
    _ = 0 / differenceStep (x.get j) := by rw [sub_self_eq_zero hfin]
    _ = 0 := zero_div_eq_zero hmoves.step_isFinite hmoves.step_pos

/-- **Forward differences take a real step.** A finite coordinate of magnitude up to `2 ^ 1023` moves; the
runs that finish call the map at the point and at the moved points, and fill the matrix with the
rounded quotients; the entry of a component that does not depend on the coordinate, and is finite,
is zero. -/
theorem forwardDifference_steps {f : Procedure σ n} {x : Vector Float n} {j : Fin n}
    (hfin : (x.get j).isFinite = true) (hle : |real (x.get j)| ≤ 2 ^ 1023) :
    Moves x j ∧
      (∀ s a t, (forwardDifference f x).run s = .ok (a, t) ↔
        ∃ here there g, a = .ofGrid g ∧ Run f x s here there g t) ∧
      ∀ s here there g t, Run f x s here there g t → ∀ i : Fin here.size,
        IgnoresCoordinate f x j i → here[i].isFinite = true → g.get i j = 0 :=
  ⟨moves hfin hle, fun _ _ _ => forwardDifference_eq_ok_iff,
    fun _ _ _ _ _ hrun _ hignores hhere => hrun.get_eq_zero (moves hfin hle) hignores hhere⟩

/-- A procedure that counts its calls and answers its point. -/
def counting : Procedure ℕ n := fun x => do
  modify (· + 1)
  return x.toArray

theorem run_counting {x : Vector Float n} {s t : ℕ} {u : DenseVector Float} :
    (counting x).run s = .ok (u, t) ↔ x.toArray = u ∧ s + 1 = t := by
  change Except.ok (x.toArray, s + 1) = .ok (u, t) ↔ _
  rw [Except.ok.injEq, Prod.mk.injEq]

/-- A point at the limit up to which a coordinate moves. -/
def halfway : Vector Float 2 :=
  #v[.ofBits 0x7FE0000000000000, 3]

/-- At `2 ^ 1023` the step is `2 ^ 997`. A run makes three calls and ends with the identity, and every
run has a zero where the second component meets the first coordinate. -/
theorem forwardDifference_steps_halfway :
    ((halfway.get 0).isFinite = true ∧ |real (halfway.get 0)| ≤ 2 ^ 1023) ∧ Moves halfway 0 ∧
      (∃ here there g, g.data.toArray = #[1, 0, 0, 1] ∧ Run counting halfway 0 here there g 3) ∧
      ∀ here there g t, Run counting halfway 0 here there g t → ∀ i : Fin here.size,
        (i : ℕ) = 1 → g.get i 0 = 0 := by
  have hcoordinate : (halfway.get 0).isFinite = true ∧ real (halfway.get 0) = (2 : ℝ) ^ (1023 : ℤ) :=
    power_spec (w := 0x7FE0000000000000) rfl (by decide) (by decide) (by decide)
  have hle : |real (halfway.get 0)| ≤ 2 ^ 1023 := by
    rw [hcoordinate.2, abs_of_pos (zpow_two_pos _), ← zpow_natCast]
    rfl
  obtain ⟨hmoves, hruns, hzero⟩ :=
    forwardDifference_steps (f := counting) hcoordinate.1 hle
  refine ⟨⟨hcoordinate.1, hle⟩, hmoves, ?_, fun here there g t hrun i hi => ?_⟩
  · obtain ⟨⟨a, t⟩, hok, hvalue⟩ := exists_ok_of_map
      (x := (forwardDifference counting halfway).run 0) (f := fun p => (p.1.data, p.2))
      (b := (#[1, 0, 0, 1], 3)) (by decide +kernel)
    obtain ⟨here, there, g, rfl, hrun⟩ := (hruns 0 a t).mp hok
    obtain ⟨hdata, rfl⟩ := Prod.mk.inj hvalue
    exact ⟨here, there, g, hdata, hrun⟩
  · obtain ⟨u, hhere, -⟩ := hrun.calls
    obtain ⟨rfl, -⟩ := run_counting.mp hhere
    obtain rfl : i = ⟨1, by decide⟩ := Fin.ext hi
    refine hzero 0 _ there g t hrun _ (fun y hy s s' u u' t t' hu hu' => ?_) (by decide +kernel)
    have hsecond (z : Vector Float 2) : z.toArray[1]? = some (z.get 1) :=
      Array.getElem?_eq_getElem (by rw [z.size_toArray]; decide)
    rw [← (run_counting.mp hu).1, ← (run_counting.mp hu').1]
    exact (hsecond y).trans ((congrArg some (hy 1 (by decide))).trans (hsecond halfway).symm)

end CertifiedZeros
