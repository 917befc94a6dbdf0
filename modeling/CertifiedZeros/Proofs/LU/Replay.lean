import CertifiedZeros.Proofs.LU.Pivots

/-! # Rows that need no exchange

The pivot rows of a factorisation depend on the matrix only. If its rows stand in the order of the
permutation from the start, then each pivot is at the diagonal when its column comes, and the same
entries are computed without an exchange.

* **`permuteRows`**, **`rearranged`** — a grid, and a state, with the rows in another order.
* **`advanced_rearranged`** — one column: the exchange may be made in advance.
* **`IsRun.replay`** — the whole run, with the exchanges that are to come made in advance.
* **`factor_replay`** — the factorisation of the rows in their final order. -/

namespace CertifiedZeros.LU

variable {n : ℕ} {α : Type}

/-- **A grid with its rows in another order.** -/
def permuteRows (a : Grid n n α) (σ : Equiv.Perm (Fin n)) : Grid n n α :=
  .ofFn fun i j => a.get (σ i) j

theorem get_permuteRows (a : Grid n n α) (σ : Equiv.Perm (Fin n)) (i j : Fin n) :
    (permuteRows a σ).get i j = a.get (σ i) j :=
  Grid.get_ofFn ..

/-- **A state with its rows in another order**, as if no row had been exchanged. -/
def rearranged (s : LU n α) (ρ : Equiv.Perm (Fin n)) : LU n α where
  packed := permuteRows s.packed ρ
  perm := Vector.ofFn id
  even := true

variable [LT α] [DecidableLT α] [Magnitude α]

/-! ## One column -/

/-- **A pivot that is at the diagonal already** stays there. -/
theorem pivotRow_eq_self {s : LU n α} {col : Fin n} (h : ∀ i, col < i →
    ¬Magnitude.abs (s.packed.get col col) < Magnitude.abs (s.packed.get i col)) :
    s.pivotRow col = col := by
  refine foldl_invariant (P := fun _ best => best = col) rfl fun row best hbest => ?_
  subst hbest
  split_ifs with hlarger
  · exact absurd hlarger.2 (h row hlarger.1)
  · rfl

/-- **With the exchange made in advance** the pivot is at the diagonal. -/
theorem pivotRow_rearranged [IsStrictOrder α (· < ·)] (s : LU n α) {col : Fin n} {ρ : Equiv.Perm (Fin n)}
    (hρ : ∀ i : Fin n, (i : ℕ) < col + 1 → ρ i = i) : (s.rearranged (s.exchange col * ρ)).pivotRow col = col := by
  refine pivotRow_eq_self fun i hi => ?_
  have hrow : col ≤ ρ i := not_lt.mp fun hlt =>
    hi.not_ge (Nat.le_of_lt_succ ((lt_iff_of_fixed hρ i).mp (Nat.lt_succ_of_lt hlt)))
  rw [rearranged, get_permuteRows, get_permuteRows, Equiv.Perm.mul_apply, Equiv.Perm.mul_apply,
    hρ col (Nat.lt_succ_self col), exchange_diagonal]
  exact not_lt_abs_pivot s col _ (le_exchange s hrow)

section Advanced

variable [Zero α] [One α] [Sub α] [Mul α] [Div α] [BEq α]

/-- **One column with the exchange made in advance** gives the same entries. -/
theorem advanced_rearranged [IsStrictOrder α (· < ·)] (s : LU n α) {col : Fin n} {ρ : Equiv.Perm (Fin n)}
    (hρ : ∀ i : Fin n, (i : ℕ) < col + 1 → ρ i = i) :
    (s.rearranged (s.exchange col * ρ)).advanced col = (s.advanced col).rearranged ρ := by
  have hpacked : eliminate (permuteRows s.packed (s.exchange col * ρ)) col
      = permuteRows (s.advanced col).packed ρ := by
    refine Grid.ext_get fun i j => ?_
    have hrow : ρ i ≤ col ↔ i ≤ col :=
      (Nat.lt_succ_iff.symm.trans (lt_iff_of_fixed hρ i)).trans Nat.lt_succ_iff
    rw [get_eliminate, get_permuteRows _ ρ, get_advanced]
    simp only [get_permuteRows, Equiv.Perm.mul_apply, hρ col (Nat.lt_succ_self col), exchange_diagonal,
      hrow]
  rw [advanced, pivotRow_rearranged s hρ, swapRows, if_pos rfl, rearranged, rearranged, ← hpacked]

variable [NatCast α] {rule : PivotRule α} {a : Grid n n α} {states : ℕ → LU n α}

/-! ## The whole run -/

namespace IsRun

/-- **The run on the rows in their final order**, provided that the threshold is the same for them. Its
states are those of the given run, with the exchanges that are to come made in advance. -/
theorem replay [IsStrictOrder α (· < ·)] (h : IsRun rule a states)
    (hthreshold : ∀ x, threshold rule (permuteRows a (rowOrder states n)) < x ↔ threshold rule a < x) :
    IsRun rule (permuteRows a (rowOrder states n)) fun k => (states k).rearranged (later states k) where
  start := by
    rw [h.start, later, rowOrder, inv_one, one_mul]
    rfl
  accepts col := by
    have hfixed : ∀ i : Fin n, (i : ℕ) < col + 1 → later states (col + 1) i = i := fun _ =>
      later_of_lt states col.isLt
    have haccepts := h.accepts col
    -- the same entry is tested against the same threshold, in another place
    unfold Accepts at haccepts ⊢
    rw [later_eq, pivotRow_rearranged _ hfixed, hthreshold, rearranged, get_permuteRows,
      Equiv.Perm.mul_apply, hfixed col (Nat.lt_succ_self col), exchange_diagonal]
    exact haccepts
  next col := by
    rw [later_eq states col, advanced_rearranged _ fun _ => later_of_lt states col.isLt, h.next]

end IsRun

end Advanced

/-! ## Floats -/

open Binary64

/-- **The order of the rows plays no part in the threshold.** -/
theorem threshold_permuteRows (a : Grid n n Float) (σ : Equiv.Perm (Fin n)) :
    Turned false (threshold .binary64 a) (threshold .binary64 (permuteRows a σ)) := by
  have hlargest : Turned false (largestEntry a) (largestEntry (permuteRows a σ)) := by
    refine turned_false_iff.mpr (eq_of_forall_ge_iff fun r => ?_)
    rw [rank_largestEntry_le_iff, rank_largestEntry_le_iff]
    refine and_congr_right fun _ => forall_congr' fun j => ?_
    simp only [get_permuteRows]
    exact σ.forall_congr_right (q := fun i => rank (a.get i j).abs ≤ r)
  exact ((Turned.refl _).mul hlargest).mul (.refl _)

/-- **The factorisation of the rows in their final order** makes no exchange and finds the same
factors. -/
theorem factor_replay {a : Grid n n Float} {f : LU n Float} (h : factor .binary64 a = .ok f) :
    factor .binary64 (.ofFn fun i j => a.get (f.perm.get i) j)
      = .ok { packed := f.packed, perm := Vector.ofFn id, even := true } := by
  obtain ⟨states, hrun, rfl⟩ := factor_eq_ok_iff.mp h
  have hrows : (.ofFn fun i j => a.get ((states n).perm.get i) j : Grid n n Float)
      = permuteRows a (rowOrder states n) := by
    simp only [permuteRows, (hrun.arranged le_rfl).row]
  rw [hrows, factor_eq_ok_iff]
  refine ⟨_, hrun.replay fun x => (threshold_permuteRows a _).lt_iff (.refl x), ?_⟩
  rw [later_last, rearranged]
  congr 1
  exact Grid.ext_get fun i j => get_permuteRows ..

/-- Three equations, two of which start with equally large entries. -/
theorem factor_replay_three : ∃ f,
    factor .binary64 (.ofColumns #v[#v[2, -3, 3], #v[1, -1, 5], #v[-1, 2, 1]] : Grid 3 3 Float) = .ok f ∧
      f.perm = #v[1, 2, 0] ∧ f.even = true ∧
      factor .binary64 (.ofFn fun i j => (.ofColumns #v[#v[2, -3, 3], #v[1, -1, 5], #v[-1, 2, 1]] :
          Grid 3 3 Float).get (f.perm.get i) j)
        = .ok { packed := f.packed, perm := Vector.ofFn id, even := true } := by
  have hrun : (factor .binary64 (.ofColumns #v[#v[2, -3, 3], #v[1, -1, 5], #v[-1, 2, 1]] :
      Grid 3 3 Float)).toOption.map (fun f => (f.perm, f.even)) = some (#v[1, 2, 0], true) := by
    decide +kernel
  obtain ⟨f, hfactor, hf⟩ := exists_ok_of_map hrun
  obtain ⟨hperm, heven⟩ := Prod.mk.inj hf
  exact ⟨f, hfactor, hperm, heven, factor_replay hfactor⟩

end CertifiedZeros.LU
