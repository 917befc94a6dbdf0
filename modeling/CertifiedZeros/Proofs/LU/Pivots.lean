import CertifiedZeros.Proofs.Binary64.Order
import CertifiedZeros.Proofs.LU.Reflection
import CertifiedZeros.Proofs.LU.Run

/-! # Pivots and finite entries

A float that is not finite never becomes finite again, neither by an exchange of rows nor by an
elimination, and a row that is not finite passes this on to every row below it. So a column whose pivot
is accepted was finite all the time before, in some row that was left.

* **`IsLargestEntry a s`** — `s` is the largest entry of `a`; **`isLargestEntry`** finds it, and
  **`rank_largestEntry_le_iff`** shows that the order of the rows plays no part.
* **`isFinite_of_advanced`** — what a finite entry says about the state before the column.
* **`IsRun.exists_isFinite`** — each column that is left has a finite entry, by induction from its pivot
  backwards; **`IsRun.isFinite_upper`** — so the upper triangle is finite.
* **`factor_pivots`** — permutation, parity, upper triangle and pivots of every factorisation. -/

namespace CertifiedZeros

namespace Binary64

/-- A number is at most as large as the floats of at least its rank. -/
theorem le_of_rank_le {x y : Float} (hx : IsNumber x) (h : rank x ≤ rank y) : x ≤ y := by
  by_cases hy : IsNumber y
  · rw [rank, rank, if_pos hx, if_pos hy, WithBot.coe_le_coe] at h
    exact le_iff.mpr ⟨hx, hy, h⟩
  · rw [rank, rank, if_pos hx, if_neg hy, le_bot_iff] at h
    exact absurd h WithBot.coe_ne_bot

end Binary64

namespace LU

open Binary64

variable {n : ℕ} {a : Grid n n Float} {states : ℕ → LU n Float}

/-! ## The largest entry -/

/-- **The largest entry in magnitude.** A NaN is not counted, and where there is nothing else the
largest entry is zero. -/
structure IsLargestEntry (a : Grid n n Float) (s : Float) : Prop where
  le : ∀ i j, IsNumber (a.get i j) → (a.get i j).abs ≤ s
  attained : s = 0 ∨ ∃ i j, s = (a.get i j).abs

/-- **The upper bounds of the largest entry**, by rank. -/
theorem rank_largestEntry_le_iff (a : Grid n n Float) (r : WithBot EReal) :
    rank (largestEntry a) ≤ r ↔ rank 0 ≤ r ∧ ∀ j i, rank (a.get i j).abs ≤ r := by
  refine foldl_iff (R := fun acc => rank acc ≤ r) (fun acc j => ?_) 0
  refine foldl_iff (R := fun acc => rank acc ≤ r) (fun acc i => ?_) acc
  exact (rank_larger acc (a.get i j).abs).symm ▸ max_le_iff

theorem isLargestEntry (a : Grid n n Float) : IsLargestEntry a (largestEntry a) where
  le i j h := le_of_rank_le (abs_spec h).1 (((rank_largestEntry_le_iff a _).mp le_rfl).2 j i)
  attained := by
    let Entry (s : Float) : Prop := s = 0 ∨ ∃ i j, s = (a.get i j).abs
    refine foldl_invariant (P := fun _ => Entry) (.inl rfl) fun j acc hacc => ?_
    refine foldl_invariant (P := fun _ => Entry) hacc fun i acc hacc => ?_
    rcases larger_eq_or acc (a.get i j).abs with h | h
    · exact (congrArg Entry h).mpr hacc
    · exact (congrArg Entry h).mpr (.inr ⟨i, j, rfl⟩)

/-! ## Finite entries -/

/-- **What a finite entry says about the state before**: it was finite in its row, and the multiplier and
the pivot row were, unless the column was left out. -/
theorem isFinite_of_advanced {s : LU n Float} {col i j : Fin n} (hi : col < i) (hj : col < j)
    (h : ((s.advanced col).packed.get i j).isFinite = true) :
    (s.packed.get (s.exchange col i) j).isFinite = true ∧
      ((s.packed.get (s.pivotRow col) j == 0) = true ∨
        ((s.advanced col).packed.get i col).isFinite = true ∧
          (s.packed.get (s.pivotRow col) j).isFinite = true) := by
  rw [get_advanced_rest s hi hj] at h
  split_ifs at h with hzero
  · exact ⟨h, .inl hzero⟩
  · obtain ⟨hentry, hproduct⟩ := isFinite_of_sub h
    exact ⟨hentry, .inr (isFinite_of_mul hproduct)⟩

namespace IsRun

/-- **An accepted pivot is finite.** -/
theorem isFinite_pivot (h : IsRun .binary64 a states) (col : Fin n) :
    ((states col).packed.get ((states col).pivotRow col) col).isFinite = true :=
  isFinite_of_abs (h.accepts col).2

/-- **A column that is left has a finite entry** in one of the rows that are left. -/
theorem exists_isFinite (h : IsRun .binary64 a states) {k : ℕ} {j : Fin n} (hk : k ≤ j) :
    ∃ l : Fin n, k ≤ l ∧ ((states k).packed.get l j).isFinite = true := by
  -- from column `j` itself, whose pivot is finite, back to column `k`
  induction hk using Nat.decreasingInduction with
  | self => exact ⟨_, Fin.le_def.mp (le_pivotRow _ j), h.isFinite_pivot j⟩
  | of_succ k hk ih =>
    obtain ⟨l, hl, hfinite⟩ := ih
    let col : Fin n := ⟨k, hk.trans j.isLt⟩
    rw [h.next col] at hfinite
    have hcol : col < l := Fin.lt_def.mpr (Nat.lt_of_succ_le hl)
    exact ⟨_, Fin.le_def.mp (le_exchange (states k) hcol.le),
      (isFinite_of_advanced hcol (Fin.lt_def.mpr hk) hfinite).1⟩

/-- **The pivot rows are finite** in the columns that are left. -/
theorem isFinite_pivotRow (h : IsRun .binary64 a states) {i j : Fin n} (hij : i ≤ j) :
    ((states i).packed.get ((states i).pivotRow i) j).isFinite = true := by
  rcases hij.eq_or_lt with rfl | hlt
  · exact h.isFinite_pivot i
  · -- a row that is finite after column `i` has been through a multiple of its pivot row
    obtain ⟨l, hl, hfinite⟩ := h.exists_isFinite (k := i + 1) (Fin.lt_def.mp hlt)
    rw [h.next i] at hfinite
    rcases (isFinite_of_advanced (Fin.lt_def.mpr hl) hlt hfinite).2 with hzero | ⟨-, htop⟩
    · exact isFinite_of_beq_zero hzero
    · exact htop

/-- **The upper triangle is finite.** -/
theorem isFinite_upper (h : IsRun .binary64 a states) {i j : Fin n} (hij : i ≤ j) :
    ((states n).packed.get i j).isFinite = true := by
  rw [h.get_upper]
  exact h.isFinite_pivotRow hij

/-- **The pivots are above the threshold.** -/
theorem threshold_lt_pivot (h : IsRun .binary64 a states) (i : Fin n) :
    threshold .binary64 a < ((states n).packed.get i i).abs := by
  rw [h.get_upper]
  exact (h.accepts i).1

theorem value_pivot_ne_zero (h : IsRun .binary64 a states) (i : Fin n) :
    value ((states n).packed.get i i) ≠ 0 :=
  value_ne_zero_of_lt_abs (value_threshold_nonneg a) (h.threshold_lt_pivot i)

end IsRun

/-! ## Every factorisation -/

/-- **Permutation, parity, upper triangle and pivots** of every factorisation of floats. -/
theorem factor_pivots (a : Grid n n Float) :
    (∀ s, factor .binary64 a = .error s → ∃ σ : Equiv.Perm (Fin n), ∀ i, s.perm.get i = σ i) ∧
      ∀ f, factor .binary64 a = .ok f →
        (∃ σ : Equiv.Perm (Fin n), (∀ i, f.perm.get i = σ i) ∧
          (f.even = true ↔ Equiv.Perm.sign σ = 1)) ∧
        (∀ i j, i ≤ j → (f.packed.get i j).isFinite = true) ∧
        (∃ s, IsLargestEntry a s ∧ ∀ i,
          0 ≤ epsilon * s * (n : Float) ∧ epsilon * s * (n : Float) < (f.packed.get i i).abs) ∧
        ∀ i, (f.packed.get i i == 0) = false := by
  obtain ⟨hok, herror⟩ := factor_arranged .binary64 a
  refine ⟨fun s hs => ?_, fun f hf => ?_⟩
  · obtain ⟨σ, hσ⟩ := herror s hs
    exact ⟨σ, hσ.row⟩
  obtain ⟨σ, hσ⟩ := hok f hf
  obtain ⟨states, hrun, rfl⟩ := factor_eq_ok_iff.mp hf
  refine ⟨⟨σ, hσ.row, hσ.even_iff⟩, fun i j => hrun.isFinite_upper,
    ⟨_, isLargestEntry a, fun i => ⟨?_, hrun.threshold_lt_pivot i⟩⟩, fun i => ?_⟩
  · rw [le_iff, value_zero]
    exact ⟨rfl, (lt_iff.mp (hrun.threshold_lt_pivot i)).1, value_threshold_nonneg a⟩
  · rw [Bool.eq_false_iff, Ne, beq_iff, value_zero]
    exact fun h => hrun.value_pivot_ne_zero i h.2.2

/-- Two rows that change places, and a column whose first entry is a NaN. -/
theorem factor_pivots_two :
    (∃ f, factor .binary64 (.ofColumns #v[#v[0, 1], #v[1, 0]] : Grid 2 2 Float) = .ok f ∧
        f.even = false ∧ (f.packed.get 0 0).isFinite = true ∧ (f.packed.get 1 1 == 0) = false) ∧
      ∃ s, factor .binary64 (.ofColumns #v[#v[0 / 0, 1], #v[1, 1]] : Grid 2 2 Float) = .error s ∧
        ∃ σ : Equiv.Perm (Fin 2), ∀ i, s.perm.get i = σ i := by
  constructor
  · have hrun : (factor .binary64 (.ofColumns #v[#v[0, 1], #v[1, 0]] : Grid 2 2 Float)).toOption.map
        LU.even = some false := by decide +kernel
    obtain ⟨f, hfactor, heven⟩ := exists_ok_of_map hrun
    obtain ⟨-, hupper, -, hpivot⟩ := (factor_pivots _).2 f hfactor
    exact ⟨f, hfactor, heven, hupper 0 0 le_rfl, hpivot 1⟩
  · have hrun : (factor .binary64 (.ofColumns #v[#v[0 / 0, 1], #v[1, 1]] : Grid 2 2 Float)).toOption.isNone
        = true := by decide +kernel
    cases hfactor : factor .binary64 (.ofColumns #v[#v[0 / 0, 1], #v[1, 1]] : Grid 2 2 Float) with
    | error s => exact ⟨s, rfl, (factor_pivots _).1 s hfactor⟩
    | ok f =>
      rw [hfactor] at hrun
      cases hrun

end LU

end CertifiedZeros
