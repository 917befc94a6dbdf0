import CertifiedZeros.LU.Solve
import CertifiedZeros.Proofs.Binary64.Reflection
import CertifiedZeros.Proofs.LU.Elimination

/-! # Elimination of mirror images

A matrix and its mirror image, whose entry in row `i` and column `j` is the opposite one when exactly
one of `i` and `j` changes its sign, are eliminated side by side. The absolute values are the same, so
the same rows are exchanged and the same pivots accepted; what is left of the matrix and its
multipliers are mirror images again, with the signs of the rows going along with the rows.

* **`Mirrored σ k s s'`** — the invariant after `k` columns; **`step_mirrored`** carries it over a step.
* **`factor_mirrored`** — both factorisations succeed or neither does.
* **`Mirrored.solve`**, **`Mirrored.inverse`** — the solutions and the inverses are mirror images. -/

namespace CertifiedZeros

namespace Binary64

/-- **A larger one of two numbers that are not negative** is not, either. -/
theorem value_larger_nonneg {a b : Float} (ha : 0 ≤ value a) (hb : 0 ≤ value b) :
    0 ≤ value (larger a b) := by
  unfold larger
  split_ifs <;> assumption

theorem value_abs_nonneg (a : Float) : 0 ≤ value a.abs := by
  by_cases ha : IsNumber a
  · rw [(abs_spec ha).2]
    rcases le_total 0 (value a) with h | h
    · exact le_max_of_le_left h
    · exact le_max_of_le_right (EReal.neg_nonneg.mpr h)
  · rw [value_of_not_isNumber (not_isNumber_abs ha)]

/-- **A number whose absolute value is above a bound that is not negative** is not zero. -/
theorem value_ne_zero_of_lt_abs {a t : Float} (ht : 0 ≤ value t) (h : t < a.abs) : value a ≠ 0 := by
  intro hzero
  obtain ⟨-, habs, hlt⟩ := lt_iff.mp h
  have hnum : IsNumber a := by_contra fun ha => not_isNumber_abs ha habs
  rw [(abs_spec hnum).2, hzero, neg_zero, max_self] at hlt
  exact ht.not_gt hlt

theorem value_epsilon_nonneg : 0 ≤ value epsilon := by
  have hle : (0 : Float) ≤ epsilon := by decide
  rw [← value_zero]
  exact (le_iff.mp hle).2.2

end Binary64

namespace LU

open Binary64

variable {n : ℕ} {σ : Fin n → Bool} {a a' : Grid n n Float} {s s' : LU n Float} {k : ℕ}

/-! ## The threshold -/

theorem largestEntry_turned (h : ∀ i j, Turned (σ i ^^ σ j) (a.get i j) (a'.get i j)) :
    Turned false (largestEntry a) (largestEntry a') :=
  foldl_related (R := fun _ => Turned false) (.refl 0) fun j _ _ hj =>
    foldl_related (R := fun _ => Turned false) hj fun i _ _ hi => hi.larger (h i j).abs

theorem largestEntry_nonneg (a : Grid n n Float) : 0 ≤ value (largestEntry a) :=
  foldl_invariant (P := fun _ acc => 0 ≤ value acc) value_zero.ge fun j _ hj =>
    foldl_invariant (P := fun _ acc => 0 ≤ value acc) hj fun i _ hi =>
      value_larger_nonneg hi (value_abs_nonneg (a.get i j))

/-- **The pivot threshold is the same** for both matrices. -/
theorem threshold_turned (h : ∀ i j, Turned (σ i ^^ σ j) (a.get i j) (a'.get i j)) :
    Turned false (threshold .binary64 a) (threshold .binary64 a') :=
  ((Turned.refl _).mul (largestEntry_turned h)).mul (.refl _)

/-- **The pivot threshold is not negative**, so an accepted pivot is not zero. -/
theorem value_threshold_nonneg (a : Grid n n Float) : 0 ≤ value (threshold .binary64 a) :=
  value_mul_nonneg (value_mul_nonneg value_epsilon_nonneg (largestEntry_nonneg a)) (natCast_nonneg n)

/-! ## The invariant -/

/-- **Two states of the elimination of mirror images** after `k` columns. The entries of finished
columns below the diagonal are multipliers, which relate two rows of the matrix; the other entries
relate a row and a column. -/
structure Mirrored (σ : Fin n → Bool) (k : ℕ) (s s' : LU n Float) : Prop where
  perm_eq : s'.perm = s.perm
  entry : ∀ i j : Fin n,
    Turned (σ (s.perm.get i) ^^ if (j : ℕ) < k ∧ j < i then σ (s.perm.get j) else σ j)
      (s.packed.get i j) (s'.packed.get i j)
  pivot_ne_zero : ∀ i : Fin n, (i : ℕ) < k → value (s.packed.get i i) ≠ 0

theorem start_mirrored (h : ∀ i j, Turned (σ i ^^ σ j) (a.get i j) (a'.get i j)) :
    Mirrored σ 0 (start a) (start a') where
  perm_eq := rfl
  entry i j := by
    rw [if_neg (by simp), start, get_ofFn]
    exact h i j
  pivot_ne_zero _ hi := absurd hi (Nat.not_lt_zero _)

/-- **The same row is found**: only absolute values are compared. -/
theorem Mirrored.pivotRow_eq (h : Mirrored σ k s s') (col : Fin n) :
    s'.pivotRow col = s.pivotRow col := by
  have hlt : ∀ best row, Magnitude.abs (s'.packed.get best col) < Magnitude.abs (s'.packed.get row col)
      ↔ Magnitude.abs (s.packed.get best col) < Magnitude.abs (s.packed.get row col) :=
    fun best row => (h.entry best col).abs.lt_iff (h.entry row col).abs
  unfold pivotRow
  simp only [hlt]

/-- An exchange of rows that are not done yet keeps the invariant. -/
theorem Mirrored.swapRows (h : Mirrored σ k s s') {p q : Fin n} (hp : k ≤ p) (hq : k ≤ q) :
    Mirrored σ k (s.swapRows p q) (s'.swapRows p q) where
  perm_eq := ext_get fun i => by rw [perm_swapRows, perm_swapRows, h.perm_eq]
  entry i j := by
    have hentry := h.entry (Equiv.swap p q i) j
    simp only [← lt_swap_iff hp hq i j] at hentry
    rw [perm_swapRows, perm_swapRows, get_swapRows, get_swapRows, exchanged_eq_swap, exchanged_eq_swap]
    by_cases hj : (j : ℕ) < k
    · rwa [swap_eq_of_lt hp hq hj]
    · rw [if_neg fun h => hj h.1] at hentry ⊢
      exact hentry
  pivot_ne_zero i hi := by
    rw [get_swapRows, exchanged_eq_swap, swap_eq_of_lt hp hq hi]
    exact h.pivot_ne_zero i hi

/-- **A column eliminated**: the multipliers turn with their row and with the pivot row. -/
theorem Mirrored.eliminate {col : Fin n} (h : Mirrored σ col s s')
    (hpivot : value (s.packed.get col col) ≠ 0) :
    Mirrored σ (col + 1) { s with packed := LU.eliminate s.packed col }
      { s' with packed := LU.eliminate s'.packed col } where
  perm_eq := h.perm_eq
  entry i j := by
    have hopen : ∀ i j : Fin n, col ≤ j → Turned (σ (s.perm.get i) ^^ σ j) (s.packed.get i j)
        (s'.packed.get i j) := fun i j hj => by
      have hentry := h.entry i j
      rwa [if_neg fun hdone => hj.not_gt (Fin.lt_def.mpr hdone.1)] at hentry
    have hfactor : ∀ i, Turned (σ (s.perm.get i) ^^ σ (s.perm.get col))
        (s.packed.get i col * (1 / s.packed.get col col))
        (s'.packed.get i col * (1 / s'.packed.get col col)) := fun i => by
      have hscale := (Turned.refl 1).div (hopen col col le_rfl) fun _ => hpivot
      have hproduct := (hopen i col le_rfl).mul hscale
      rwa [Bool.false_xor, Bool.xor_comm (σ (s.perm.get col)), xor_cancel] at hproduct
    rw [get_eliminate, get_eliminate]
    by_cases hdone : i ≤ col ∨ j < col
    · have hsame : (j : ℕ) < col + 1 ∧ j < i ↔ (j : ℕ) < col ∧ j < i := by omega
      rw [if_pos hdone, if_pos hdone]
      simp only [hsame]
      exact h.entry i j
    rw [not_or, not_le, not_lt] at hdone
    rw [if_neg (not_or.mpr ⟨hdone.1.not_ge, hdone.2.not_gt⟩),
      if_neg (not_or.mpr ⟨hdone.1.not_ge, hdone.2.not_gt⟩)]
    rcases hdone.2.eq_or_lt with rfl | hj
    · rw [if_pos rfl, if_pos rfl, if_pos ⟨Nat.lt_succ_self _, hdone.1⟩]
      exact hfactor i
    · rw [if_neg hj.ne', if_neg hj.ne', if_neg fun hlt => by omega, (hopen col j hdone.2).beq_zero]
      split_ifs
      · exact hopen i j hdone.2
      · have hproduct := (hfactor i).mul (hopen col j hdone.2)
        rw [xor_cancel] at hproduct
        exact (hopen i j hdone.2).sub hproduct
  pivot_ne_zero i hi := by
    rw [get_eliminate, if_pos (Or.inl (Fin.le_def.mpr (Nat.lt_succ_iff.mp hi)))]
    rcases Nat.lt_succ_iff_lt_or_eq.mp hi with hlt | heq
    · exact h.pivot_ne_zero i hlt
    · obtain rfl : i = col := Fin.ext heq
      exact hpivot

/-! ## The factorisation -/

/-- **A step carries the invariant on**, or is refused in both runs. -/
theorem step_mirrored {t t' : Float} (ht : Turned false t t') (hnonneg : 0 ≤ value t) {col : Fin n}
    (h : Mirrored σ col s s') :
    SameOutcome (Mirrored σ (col + 1)) (fun _ _ => True) (step .binary64 t s col)
      (step .binary64 t' s' col) := by
  have hpivot : Turned false (Magnitude.abs (s.packed.get (s.pivotRow col) col))
      (Magnitude.abs (s'.packed.get (s.pivotRow col) col)) := (h.entry (s.pivotRow col) col).abs
  have hfinite : PivotRule.binary64.isFinite (Magnitude.abs (s'.packed.get (s.pivotRow col) col))
      = PivotRule.binary64.isFinite (Magnitude.abs (s.packed.get (s.pivotRow col) col)) :=
    hpivot.isFinite
  unfold step
  simp only [h.pivotRow_eq, ht.lt_iff hpivot, hfinite]
  split_ifs with haccept
  · refine (h.swapRows le_rfl (le_pivotRow s col)).eliminate ?_
    rw [get_swapRows, exchanged_eq_swap, Equiv.swap_apply_left]
    exact value_ne_zero_of_lt_abs hnonneg haccept.1
  · trivial

/-- **Mirror images are factored side by side**: both have factors, or neither has. -/
theorem factor_mirrored (h : ∀ i j, Turned (σ i ^^ σ j) (a.get i j) (a'.get i j)) :
    SameOutcome (Mirrored σ n) (fun _ _ => True) (factor .binary64 a) (factor .binary64 a') :=
  foldlM_related (start_mirrored h) fun _ _ _ =>
    step_mirrored (threshold_turned h) (value_threshold_nonneg a)

/-! ## The sweeps -/

section Sweeps

variable {τ : Bool} {b b' : Vector Float n}

/-- **The sweep down** takes mirror images to mirror images, the signs permuted with the rows. `τ` is a
sign of the whole right-hand side. -/
theorem Mirrored.forward (h : Mirrored σ n s s') (hb : ∀ i, Turned (τ ^^ σ i) (b.get i) (b'.get i))
    (i : Fin n) : Turned (τ ^^ σ (s.perm.get i)) ((LU.forward s.packed s.perm b).get i)
      ((LU.forward s'.packed s'.perm b').get i) := by
  refine foldl_related (R := fun _ (y y' : Vector Float n) =>
    ∀ i, Turned (τ ^^ σ (s.perm.get i)) (y.get i) (y'.get i)) (fun i => ?_) (fun i y y' hy l => ?_) i
  · rw [get_replicate]
    exact turned_zero _
  · rw [get_set, get_set]
    split_ifs with hil
    · subst hil
      rw [h.perm_eq]
      refine foldl_related (R := fun _ => Turned (τ ^^ σ (s.perm.get i))) (hb _) fun j acc acc' hacc => ?_
      have hentry := h.entry i (leftOf i j)
      rw [if_pos ⟨(leftOf i j).isLt, Fin.lt_def.mpr j.isLt⟩] at hentry
      have hterm := hentry.mul (hy (leftOf i j))
      rw [Bool.xor_comm τ, xor_cancel, Bool.xor_comm] at hterm
      exact hacc.sub hterm
    · exact hy l

/-- **The sweep up** turns the signs of the rows into those of the coordinates. -/
theorem Mirrored.backward (h : Mirrored σ n s s') {y y' : Vector Float n}
    (hy : ∀ i, Turned (τ ^^ σ (s.perm.get i)) (y.get i) (y'.get i)) (i : Fin n) :
    Turned (τ ^^ σ i) ((LU.backward s.packed y).get i) ((LU.backward s'.packed y').get i) := by
  have hupper : ∀ i j : Fin n, i ≤ j → Turned (σ (s.perm.get i) ^^ σ j) (s.packed.get i j)
      (s'.packed.get i j) := fun i j hij => by
    have hentry := h.entry i j
    rwa [if_neg fun hlt => hij.not_gt hlt.2] at hentry
  refine (foldr_related (R := fun k (x x' : Vector Float n) =>
    (∀ i : Fin n, (i : ℕ) < k → Turned (τ ^^ σ (s.perm.get i)) (x.get i) (x'.get i)) ∧
      ∀ i : Fin n, k ≤ (i : ℕ) → Turned (τ ^^ σ i) (x.get i) (x'.get i))
    ⟨fun i _ => hy i, fun i hi => absurd i.isLt hi.not_gt⟩ fun i x x' hx => ?_).2 i (Nat.zero_le _)
  obtain ⟨hleft, hdone⟩ := hx
  refine ⟨fun l hl => ?_, fun l hl => ?_⟩
  · rw [get_set, get_set, if_neg (by omega), if_neg (by omega)]
    exact hleft l (by omega)
  · rw [get_set, get_set]
    split_ifs with hil
    · subst hil
      have hrest := foldl_related (R := fun _ => Turned (τ ^^ σ (s.perm.get i)))
        (f := fun acc t => acc - s.packed.get i (rightOf i t) * x.get (rightOf i t))
        (g := fun acc t => acc - s'.packed.get i (rightOf i t) * x'.get (rightOf i t))
        (hleft i (Nat.lt_succ_self _)) fun t acc acc' hacc => by
          have hright : i < rightOf i t := Fin.lt_def.mpr (by simp only [rightOf]; omega)
          have hterm := (hupper i (rightOf i t) hright.le).mul (hdone (rightOf i t) hright)
          rw [Bool.xor_comm τ, xor_cancel, Bool.xor_comm] at hterm
          exact hacc.sub hterm
      have hquotient := hrest.div (hupper i i le_rfl) fun _ => h.pivot_ne_zero i i.isLt
      rwa [xor_cancel] at hquotient
    · exact hdone l (by omega)

/-- **The solutions for mirror images** are mirror images. -/
theorem Mirrored.solve (h : Mirrored σ n s s') (hb : ∀ i, Turned (τ ^^ σ i) (b.get i) (b'.get i))
    (i : Fin n) : Turned (τ ^^ σ i) ((s.solve b).get i) ((s'.solve b').get i) :=
  h.backward (h.forward hb) i

/-- **So are the inverses**, in rows and columns. -/
theorem Mirrored.inverse (h : Mirrored σ n s s') (i j : Fin n) :
    Turned (σ i ^^ σ j) (s.inverse.get i j) (s'.inverse.get i j) := by
  have hunit : ∀ l : Fin n, Turned (σ j ^^ σ l) ((unit j : Vector Float n).get l)
      ((unit j : Vector Float n).get l) := fun l => by
    rw [unit, get_ofFn]
    split_ifs with hlj
    · rw [hlj, Bool.xor_self]
      exact .refl 1
    · exact turned_zero _
  rw [LU.inverse, LU.inverse, Grid.get_ofColumns, Grid.get_ofColumns, get_ofFn, get_ofFn, Bool.xor_comm]
  exact h.solve hunit i

end Sweeps

end LU

end CertifiedZeros
