import CertifiedZeros.Proofs.Binary64.Scaling
import CertifiedZeros.Proofs.LU.Pivots

/-! # Elimination of scaled matrices

The entries of a matrix and those of its multiple by a power of two are eliminated side by side. What
is left of the matrix keeps the scale, the reciprocal pivots have the opposite one, and the multipliers
have none. The threshold scales with the entries, so the same pivots are accepted. All this holds as
long as no operation of either run leaves the range of the format.

* **`trace a k`** — the state after `k` columns; **`Passes`** — the columns that a run gets through.
* **`Occurs a x`** — the entries of a matrix and the exact results of the operations in its run.
* **`inRange_of_clear`** — a test on floats that shows a run within the range.
* **`ScaledAfter k col s s'`** — the invariant after `col` columns; **`ScaledAfter.eliminate`** and
  **`trace_scaledAfter`** carry it over a column.
* **`factor_scaled`** — both runs end alike. -/

namespace CertifiedZeros.LU

open Binary64

variable {n : ℕ}

/-! ## What a run goes through -/

section Run

variable {α : Type} [Zero α] [One α] [Sub α] [Mul α] [Div α] [BEq α] [LT α] [DecidableLT α]
  [Magnitude α]

/-- **The state after `k` columns**, as long as every pivot is accepted. -/
def trace (a : Grid n n α) : ℕ → LU n α
  | 0 => start a
  | k + 1 => if h : k < n then (trace a k).advanced ⟨k, h⟩ else trace a k

theorem trace_succ (a : Grid n n α) (col : Fin n) : trace a (col + 1) = (trace a col).advanced col :=
  dif_pos col.isLt

/-- The state of column `col` with its pivot row at the diagonal. -/
def pivoted (a : Grid n n α) (col : Fin n) : LU n α :=
  (trace a col).swapRows col ((trace a col).pivotRow col)

variable [NatCast α]

/-- **The run gets through the first `k` columns**: their pivots are accepted. -/
def Passes (rule : PivotRule α) (a : Grid n n α) (k : ℕ) : Prop :=
  ∀ col : Fin n, (col : ℕ) < k → Accepts rule (threshold rule a) (trace a col) col

theorem passes_succ_iff {rule : PivotRule α} {a : Grid n n α} {col : Fin n} :
    Passes rule a (col + 1) ↔
      Passes rule a col ∧ Accepts rule (threshold rule a) (trace a col) col := by
  refine ⟨fun h => ⟨fun i hi => h i (hi.trans (Nat.lt_succ_self _)), h col (Nat.lt_succ_self _)⟩,
    fun h i hi => ?_⟩
  rcases Nat.lt_succ_iff_lt_or_eq.mp hi with hlt | heq
  · exact h.1 i hlt
  · exact Fin.ext heq ▸ h.2

end Run

/-- **The exact results of the operations on one column**: the reciprocal of the pivot, the multipliers
and, in the columns to the right whose first entry is not zero, the products and the differences. -/
inductive ColumnResult (b : Grid n n Float) (col : Fin n) : ℝ → Prop
  | reciprocal : ColumnResult b col (1 / real (b.get col col))
  | multiplier {i} (hi : col < i) :
      ColumnResult b col (real (b.get i col) * real (1 / b.get col col))
  | product {i j} (hi : col < i) (hj : col < j) (htop : (b.get col j == 0) = false) :
      ColumnResult b col (real (b.get i col * (1 / b.get col col)) * real (b.get col j))
  | difference {i j} (hi : col < i) (hj : col < j) (htop : (b.get col j == 0) = false) :
      ColumnResult b col
        (real (b.get i j) - real (b.get i col * (1 / b.get col col) * b.get col j))

/-- **The numbers that occur in a run**: the entries of the matrix, and the exact results of the
operations that lead to the threshold and of those on each column whose pivot is accepted. -/
inductive Occurs (a : Grid n n Float) : ℝ → Prop
  | entry (i j) : Occurs a (real (a.get i j))
  | tolerance : Occurs a (real epsilon * real (largestEntry a))
  | threshold : Occurs a (real (epsilon * largestEntry a) * real (n : Float))
  | column {col : Fin n} {x} (hpasses : Passes .binary64 a (col + 1))
      (hx : ColumnResult (pivoted a col).packed col x) : Occurs a x

variable {a a' : Grid n n Float} {s s' : LU n Float} {k : ℤ}

/-! ## A test for the range -/

/-- **The results on one column are clear** of both ends of the range, with the pivot. -/
def ClearColumn (b : Grid n n Float) (col : Fin n) : Prop :=
  IsClear (b.get col col) ∧ IsClear (1 / b.get col col) ∧ ∀ i, col < i →
    IsClear (b.get i col * (1 / b.get col col)) ∧ ∀ j, col < j →
      IsClear (b.get i col * (1 / b.get col col) * b.get col j) ∧
        IsClear (b.get i j - b.get i col * (1 / b.get col col) * b.get col j)

instance (b : Grid n n Float) (col : Fin n) : Decidable (ClearColumn b col) :=
  inferInstanceAs (Decidable (_ ∧ _ ∧ _))

theorem ClearColumn.inRange {b : Grid n n Float} {col : Fin n} {x : ℝ} (h : ClearColumn b col)
    (hx : ColumnResult b col x) : InRange x := by
  obtain ⟨hpivot, hreciprocal, hrow⟩ := h
  cases hx with
  | reciprocal =>
    exact hreciprocal.inRange (real_one ▸ (div_spec isFinite_one hpivot.1 hpivot.real_ne_zero).2)
  | multiplier hi =>
    have hmultiplier := (hrow _ hi).1
    obtain ⟨hleft, hright⟩ := isFinite_of_mul hmultiplier.1
    exact hmultiplier.inRange (mul_spec hleft hright).2
  | product hi hj _ =>
    have hproduct := ((hrow _ hi).2 _ hj).1
    obtain ⟨hleft, hright⟩ := isFinite_of_mul hproduct.1
    exact hproduct.inRange (mul_spec hleft hright).2
  | difference hi hj _ =>
    have hdifference := ((hrow _ hi).2 _ hj).2
    obtain ⟨hleft, hright⟩ := isFinite_of_sub hdifference.1
    exact hdifference.inRange (sub_spec hleft hright).2

/-- **A run whose rounded results are all clear** stays within the range. -/
theorem inRange_of_clear (hentry : ∀ i j, IsClear (a.get i j))
    (htolerance : IsClear (epsilon * largestEntry a)) (hthreshold : IsClear (threshold .binary64 a))
    (hcolumn : ∀ col, ClearColumn (pivoted a col).packed col) {x : ℝ} (hx : Occurs a x) : InRange x := by
  cases hx with
  | entry i j => exact (hentry i j).inRange_real
  | tolerance =>
    obtain ⟨hleft, hright⟩ := isFinite_of_mul htolerance.1
    exact htolerance.inRange (mul_spec hleft hright).2
  | threshold =>
    obtain ⟨hleft, hright⟩ := isFinite_of_mul hthreshold.1
    exact hthreshold.inRange (mul_spec hleft hright).2
  | column _ hx => exact (hcolumn _).inRange hx

/-! ## The threshold -/

theorem largestEntry_scaled (h : ∀ i j, Scaled k (a.get i j) (a'.get i j)) :
    Scaled k (largestEntry a) (largestEntry a') :=
  foldl_related (R := fun _ => Scaled k) (scaled_zero k) fun j _ _ hj =>
    foldl_related (R := fun _ => Scaled k) hj fun i _ _ hi => hi.larger (h i j).abs

/-- Nothing is above a threshold that is infinite or undefined. -/
theorem not_threshold_lt (hn : (n : Float).isFinite = false) (x : Float) :
    ¬threshold .binary64 a < x := by
  intro hlt
  obtain ⟨hnum, -, hvalue⟩ := lt_iff.mp hlt
  have hfactors := not_or.mp (mt not_isNumber_mul (not_not.mpr hnum))
  obtain ⟨hiff, hproduct⟩ := value_mul (not_not.mp hfactors.1) (not_not.mp hfactors.2)
  have htop : value (n : Float) = ⊤ :=
    (not_not.mp hfactors.2).value_eq_top (natCast_nonneg n) hn
  have hdefined := hiff.mp hnum
  have hpos : value (epsilon * largestEntry a) ≠ 0 := fun h0 => hdefined (.inr ⟨h0, .inl htop⟩)
  have hinf : value (epsilon * largestEntry a) * value (n : Float) = ⊤ := by
    rw [htop]
    exact EReal.mul_top_of_pos (lt_of_le_of_ne
      (value_mul_nonneg value_epsilon_nonneg (largestEntry_nonneg a)) hpos.symm)
  -- so the threshold is infinite, and nothing compares as larger
  have hthreshold : value (threshold .binary64 a) = ⊤ :=
    (hproduct hdefined).trans ((congrArg _ hinf).trans (roundedValue_of_infinite (.inl rfl)))
  rw [hthreshold] at hvalue
  exact not_top_lt hvalue

/-- **The threshold scales with the matrix.** -/
theorem threshold_lt_iff (h : ∀ i j, Scaled k (a.get i j) (a'.get i j))
    (hrange : ∀ x, Occurs a x → InRange x) (hrange' : ∀ x, Occurs a' x → InRange x) {x x' : Float}
    (hx : Scaled k x x') : threshold .binary64 a' < x' ↔ threshold .binary64 a < x := by
  by_cases hn : (n : Float).isFinite = true
  · have hepsilon : Scaled 0 epsilon epsilon := .refl (by decide)
    have htolerance := hepsilon.mul (largestEntry_scaled h) (hrange _ .tolerance) (hrange' _ .tolerance)
    have hthreshold := htolerance.mul (.refl hn) (hrange _ .threshold) (hrange' _ .threshold)
    rw [zero_add, add_zero] at hthreshold
    exact hthreshold.lt_iff hx
  · rw [Bool.not_eq_true] at hn
    exact iff_of_false (not_threshold_lt hn x') (not_threshold_lt hn x)

/-! ## The invariant -/

/-- **Two states after `col` columns**, the second of a matrix that is `2 ^ k` times the first. The rows
have the same order. The multipliers, below the diagonal of the columns that are done, are equal; all
other entries are `2 ^ k` times those of the first. -/
structure ScaledAfter (k : ℤ) (col : ℕ) (s s' : LU n Float) : Prop where
  perm_eq : s'.perm = s.perm
  even_eq : s'.even = s.even
  entry : ∀ i j : Fin n, Scaled (if (j : ℕ) < col ∧ j < i then 0 else k)
    (s.packed.get i j) (s'.packed.get i j)

theorem start_scaledAfter (h : ∀ i j, Scaled k (a.get i j) (a'.get i j)) :
    ScaledAfter k 0 (start a) (start a') where
  perm_eq := rfl
  even_eq := rfl
  entry i j := by
    rw [if_neg (by simp)]
    exact h i j

namespace ScaledAfter

variable {col : Fin n}

/-- The entries of the columns that are not done have the scale of the matrix. -/
theorem open_entry (h : ScaledAfter k col s s') (i : Fin n) {j : Fin n} (hj : col ≤ j) :
    Scaled k (s.packed.get i j) (s'.packed.get i j) := by
  have hentry := h.entry i j
  rwa [if_neg fun hdone => hj.not_gt (Fin.lt_def.mpr hdone.1)] at hentry

/-- **The same row is found.** -/
theorem pivotRow_eq (h : ScaledAfter k col s s') : s'.pivotRow col = s.pivotRow col := by
  have hlt : ∀ best row, Magnitude.abs (s'.packed.get best col) < Magnitude.abs (s'.packed.get row col)
      ↔ Magnitude.abs (s.packed.get best col) < Magnitude.abs (s.packed.get row col) :=
    fun best row => (h.open_entry best le_rfl).abs.lt_iff (h.open_entry row le_rfl).abs
  unfold pivotRow
  simp only [hlt]

/-- An exchange of rows that are not done yet keeps the invariant. -/
theorem swapRows (h : ScaledAfter k col s s') {p q : Fin n} (hp : col ≤ p) (hq : col ≤ q) :
    ScaledAfter k col (s.swapRows p q) (s'.swapRows p q) where
  perm_eq := ext_get fun i => by rw [perm_swapRows, perm_swapRows, h.perm_eq]
  even_eq := by
    unfold LU.swapRows
    split_ifs
    · exact h.even_eq
    · exact congrArg (!·) h.even_eq
  entry i j := by
    have hentry := h.entry (Equiv.swap p q i) j
    simp only [← lt_swap_iff (Fin.le_def.mp hp) (Fin.le_def.mp hq) i j] at hentry
    rwa [get_swapRows, get_swapRows, exchanged_eq_swap]

section Column

variable (h : ScaledAfter k col s s') (h0 : real (s.packed.get col col) ≠ 0)
  (hrange : ∀ x, ColumnResult s.packed col x → InRange x)
  (hrange' : ∀ x, ColumnResult s'.packed col x → InRange x)

include h h0 hrange hrange'

/-- **The scale cancels in the multipliers**: it is that of the entries, and its inverse is that of the
reciprocal pivot. -/
theorem multiplier {i : Fin n} (hi : col < i) :
    Scaled 0 (s.packed.get i col * (1 / s.packed.get col col))
      (s'.packed.get i col * (1 / s'.packed.get col col)) := by
  -- one has no scale, so the reciprocal has the inverse of the pivot's
  have hreciprocal : Scaled (0 - k) (1 / s.packed.get col col) (1 / s'.packed.get col col) := by
    refine (Scaled.refl isFinite_one).div (h.open_entry col le_rfl) h0 ?_ ?_ <;> rw [real_one]
    · exact hrange _ .reciprocal
    · exact hrange' _ .reciprocal
  have hmultiplier := (h.open_entry i le_rfl).mul hreciprocal (hrange _ (.multiplier hi))
    (hrange' _ (.multiplier hi))
  rwa [zero_sub, add_neg_cancel] at hmultiplier

/-- **What is left of an entry to the right** keeps the scale. -/
theorem rest {i j : Fin n} (hi : col < i) (hj : col < j) :
    Scaled k ((LU.eliminate s.packed col).get i j) ((LU.eliminate s'.packed col).get i j) := by
  have hdone : ¬(i ≤ col ∨ j < col) := not_or.mpr ⟨hi.not_ge, hj.le.not_gt⟩
  have hentry := h.open_entry i hj.le
  have htop := h.open_entry col hj.le
  rw [get_eliminate, get_eliminate, if_neg hdone, if_neg hdone, if_neg hj.ne', if_neg hj.ne',
    htop.beq_zero]
  split_ifs with hzero
  · exact hentry
  · rw [Bool.not_eq_true] at hzero
    have hzero' := htop.beq_zero.trans hzero
    have hproduct := (h.multiplier h0 hrange hrange' hi).mul htop (hrange _ (.product hi hj hzero))
      (hrange' _ (.product hi hj hzero'))
    rw [zero_add] at hproduct
    exact hentry.sub hproduct (hrange _ (.difference hi hj hzero))
      (hrange' _ (.difference hi hj hzero'))

/-- **A column eliminated** keeps the invariant. -/
theorem eliminate : ScaledAfter k (col + 1) { s with packed := LU.eliminate s.packed col }
    { s' with packed := LU.eliminate s'.packed col } where
  perm_eq := h.perm_eq
  even_eq := h.even_eq
  entry i j := by
    by_cases hdone : i ≤ col ∨ j < col
    -- an entry that stays: it is a multiplier before and after, or neither
    · have hsame : (j : ℕ) < col + 1 ∧ j < i ↔ (j : ℕ) < col ∧ j < i := by omega
      simp only [get_eliminate, if_pos hdone, hsame]
      exact h.entry i j
    obtain ⟨hi, hj⟩ := not_or.mp hdone
    rw [not_le] at hi
    rcases (not_lt.mp hj).eq_or_lt with rfl | hright
    · simp only [get_eliminate, if_neg hdone]
      rw [if_pos ⟨Nat.lt_succ_self _, hi⟩]
      exact h.multiplier h0 hrange hrange' hi
    · rw [if_neg fun hlt => by omega]
      exact h.rest h0 hrange hrange' hi hright

end Column

end ScaledAfter

/-! ## Both runs -/

section Both

variable (hrange : ∀ x, Occurs a x → InRange x) (hrange' : ∀ x, Occurs a' x → InRange x)

include hrange hrange'

/-- **A column carries the invariant on** when its pivot is accepted in both runs. -/
theorem trace_scaledAfter {col : Fin n} (hs : ScaledAfter k col (trace a col) (trace a' col))
    (hpasses : Passes .binary64 a (col + 1)) (hpasses' : Passes .binary64 a' (col + 1)) :
    ScaledAfter k (col + 1) (trace a (col + 1)) (trace a' (col + 1)) := by
  have haccepts := (passes_succ_iff.mp hpasses).2
  -- an accepted pivot is above the threshold, which is not negative
  have hpivot : real ((pivoted a col).packed.get col col) ≠ 0 := by
    have hfinite : ((trace a col).packed.get ((trace a col).pivotRow col) col).isFinite = true :=
      isFinite_of_abs haccepts.2
    have hne := value_ne_zero_of_lt_abs (value_threshold_nonneg a) haccepts.1
    rw [pivoted, get_swapRows, exchanged_eq_swap, Equiv.swap_apply_left]
    rwa [← coe_real hfinite, Ne, EReal.coe_eq_zero] at hne
  have hswapped : ScaledAfter k col (pivoted a col) (pivoted a' col) := by
    unfold pivoted
    rw [hs.pivotRow_eq]
    exact hs.swapRows le_rfl (le_pivotRow _ col)
  rw [trace_succ, trace_succ]
  exact hswapped.eliminate hpivot (fun x hx => hrange x (.column hpasses hx))
    fun x hx => hrange' x (.column hpasses' hx)

variable (h : ∀ i j, Scaled k (a.get i j) (a'.get i j))

include h

/-- **The same pivots are accepted.** -/
theorem accepts_iff {col : Fin n} (hs : ScaledAfter k col s s') :
    Accepts .binary64 (threshold .binary64 a') s' col ↔
      Accepts .binary64 (threshold .binary64 a) s col := by
  have hpivot := (hs.open_entry (s.pivotRow col) le_rfl).abs
  unfold Accepts
  rw [hs.pivotRow_eq]
  exact and_congr (threshold_lt_iff h hrange hrange' hpivot)
    (iff_of_true hpivot.finite' hpivot.finite)

/-- **Both runs go on together** or stop together. -/
theorem factor_sameOutcome :
    SameOutcome (ScaledAfter k n)
      (fun s s' => ∃ col : Fin n, s = trace a col ∧ s' = trace a' col ∧ ScaledAfter k col s s')
      (factor .binary64 a) (factor .binary64 a') := by
  -- induction over the columns: the states are those of the two traces, all pivots so far are accepted
  have hboth := foldlM_related (n := n) (s := start a) (t := start a')
    (f := step .binary64 (threshold .binary64 a)) (g := step .binary64 (threshold .binary64 a'))
    (R := fun col s s' => s = trace a col ∧ s' = trace a' col ∧ Passes .binary64 a col ∧
      Passes .binary64 a' col ∧ ScaledAfter k col s s')
    (E := fun s s' => ∃ col : Fin n, s = trace a col ∧ s' = trace a' col ∧ ScaledAfter k col s s')
    ⟨rfl, rfl, fun _ hi => absurd hi (Nat.not_lt_zero _), fun _ hi => absurd hi (Nat.not_lt_zero _),
      start_scaledAfter h⟩ fun col s s' hs => ?_
  · obtain ⟨f, f', hf, hf', -, -, -, -, hscaled⟩ | ⟨s, s', hs, hs', hstopped⟩ := hboth.cases
    · rw [factor, factor, hf, hf']
      exact hscaled
    · rw [factor, factor, hs, hs']
      exact hstopped
  · obtain ⟨rfl, rfl, hpasses, hpasses', hscaled⟩ := hs
    have hiff := accepts_iff hrange hrange' h hscaled
    by_cases haccepts : Accepts .binary64 (threshold .binary64 a) (trace a col) col
    · have hnext := passes_succ_iff.mpr ⟨hpasses, haccepts⟩
      have hnext' := passes_succ_iff.mpr ⟨hpasses', hiff.mpr haccepts⟩
      rw [step_eq_ok_iff.mpr ⟨haccepts, (trace_succ a col)⟩,
        step_eq_ok_iff.mpr ⟨hiff.mpr haccepts, (trace_succ a' col)⟩]
      exact ⟨rfl, rfl, hnext, hnext', trace_scaledAfter hrange hrange' hscaled hnext hnext'⟩
    · rw [step_eq_error_iff.mpr ⟨haccepts, rfl⟩, step_eq_error_iff.mpr ⟨mt hiff.mp haccepts, rfl⟩]
      exact ⟨col, rfl, rfl, hscaled⟩

end Both

/-- **Elimination does not depend on the scale.** Of a finite matrix and of `2 ^ k` times it, as long as no
number in either run is lost below the normal numbers or overflows, both runs find factors or stop at
the same column. Up to there the rows are exchanged alike, the multipliers are equal, and all other
entries of the second run are `2 ^ k` times those of the first. -/
theorem factor_scaled (ha : ∀ i j, (a.get i j).isFinite = true)
    (ha' : ∀ i j, (a'.get i j).isFinite = true ∧ real (a'.get i j) = (2 : ℝ) ^ k * real (a.get i j))
    (hrange : ∀ x, Occurs a x → InRange x) (hrange' : ∀ x, Occurs a' x → InRange x) :
    (∃ f f', factor .binary64 a = .ok f ∧ factor .binary64 a' = .ok f' ∧ ScaledAfter k n f f') ∨
      ∃ col : Fin n, factor .binary64 a = .error (trace a col) ∧
        factor .binary64 a' = .error (trace a' col) ∧
        ScaledAfter k col (trace a col) (trace a' col) := by
  have hscaled : ∀ i j, Scaled k (a.get i j) (a'.get i j) := fun i j =>
    ⟨ha i j, (ha' i j).1, (ha' i j).2⟩
  rcases (factor_sameOutcome hrange hrange' hscaled).cases with hfactors | ⟨s, s', hs, hs', hstopped⟩
  · exact .inl hfactors
  · obtain ⟨col, rfl, rfl, hafter⟩ := hstopped
    exact .inr ⟨col, hs, hs', hafter⟩

/-- Two equations, whose rows are exchanged, and their doubles. -/
theorem factor_scaled_two : ∃ f f',
    factor .binary64 (.ofColumns #v[#v[1, 2], #v[1, 1]] : Grid 2 2 Float) = .ok f ∧
      factor .binary64 (.ofColumns #v[#v[2, 4], #v[2, 2]] : Grid 2 2 Float) = .ok f' ∧
      f.perm = #v[1, 0] ∧ f.even = false ∧ ScaledAfter 1 2 f f' := by
  have hrun : (factor .binary64 (.ofColumns #v[#v[1, 2], #v[1, 1]] : Grid 2 2 Float)).toOption.map
      (fun f => (f.perm, f.even)) = some (#v[1, 0], false) := by decide +kernel
  obtain ⟨f, hfactor, hf⟩ := exists_ok_of_map hrun
  obtain ⟨hperm, heven⟩ := Prod.mk.inj hf
  have hone : real 2 = (2 : ℝ) ^ (1 : ℤ) * real 1 := by
    rw [two_spec.2, real_one]
    norm_num
  have htwo : real 4 = (2 : ℝ) ^ (1 : ℤ) * real 2 := by
    rw [four_spec.2, two_spec.2]
    norm_num
  have hdouble : ∀ i j, real ((.ofColumns #v[#v[2, 4], #v[2, 2]] : Grid 2 2 Float).get i j)
      = (2 : ℝ) ^ (1 : ℤ) * real ((.ofColumns #v[#v[1, 2], #v[1, 1]] : Grid 2 2 Float).get i j) := by
    simp only [Grid.get_ofColumns, Fin.forall_fin_two]
    exact ⟨⟨hone, hone⟩, htwo, hone⟩
  rcases factor_scaled (k := 1) (by decide +kernel)
      (fun i j => ⟨by revert i j; decide +kernel, hdouble i j⟩)
      (fun _ => inRange_of_clear (by decide +kernel) (by decide +kernel) (by decide +kernel)
        (by decide +kernel))
      (fun _ => inRange_of_clear (by decide +kernel) (by decide +kernel) (by decide +kernel)
        (by decide +kernel)) with ⟨g, g', hg, hg', hscaled⟩ | ⟨col, herror, -, -⟩
  · obtain rfl := Except.ok.inj (hg.symm.trans hfactor)
    exact ⟨g, g', hg, hg', hperm, heven, hscaled⟩
  · exact absurd (herror.symm.trans hfactor) (by simp)

end CertifiedZeros.LU
