import CertifiedZeros.LU.Basic
import CertifiedZeros.Proofs.Loop
import Mathlib.GroupTheory.Perm.Sign

/-! # Runs of the elimination

What an elimination does with its rows does not depend on the arithmetic. Whatever the numbers are, each
column brings its pivot row to the diagonal, and from then on that row stays where it is.

* **`Arranged s σ`** — the permutation of a state, with its parity; **`factor_arranged`** finds one in
  every state that an elimination ends in, finished or not.
* **`advanced`** — the state after one column; **`step_eq_ok_iff`** — a step is this, or a refusal.
* **`IsRun rule a states`** — the states of a finished elimination; **`factor_eq_ok_iff`** ties them to
  the loop.
* **`rowOrder`**, **`later`** — the exchanges of a run before a column, and those from it on.
* **`IsRun.get_settled`** — what is done stays; **`IsRun.get_upper`**, **`IsRun.get_lower`** — so the
  entries of both triangles are read off the states in which they were computed. -/

namespace CertifiedZeros.LU

variable {n : ℕ} {α : Type}

/-! ## Rows exchanged -/

theorem exchanged_eq_swap (p q i : Fin n) : exchanged p q i = Equiv.swap p q i :=
  (Equiv.swap_apply_def p q i).symm

/-- An exchange of rows from `k` on does not touch the columns before `k`. -/
theorem lt_swap_iff {k : ℕ} {p q : Fin n} (hp : k ≤ p) (hq : k ≤ q) (i j : Fin n) :
    (j : ℕ) < k ∧ j < i ↔ (j : ℕ) < k ∧ j < Equiv.swap p q i := by
  refine and_congr_right fun hj => ?_
  rw [Equiv.swap_apply_def]
  split_ifs with hip hiq
  · subst hip
    exact iff_of_true (Fin.lt_def.mpr (hj.trans_le hp)) (Fin.lt_def.mpr (hj.trans_le hq))
  · subst hiq
    exact iff_of_true (Fin.lt_def.mpr (hj.trans_le hq)) (Fin.lt_def.mpr (hj.trans_le hp))
  · rfl

theorem swap_eq_of_lt {k : ℕ} {p q j : Fin n} (hp : k ≤ p) (hq : k ≤ q) (hj : (j : ℕ) < k) :
    Equiv.swap p q j = j :=
  Equiv.swap_apply_of_ne_of_ne (fun h => by omega) fun h => by omega

/-- A permutation that fixes the rows before `k` keeps the others behind them. -/
theorem lt_iff_of_fixed {ρ : Equiv.Perm (Fin n)} {k : ℕ} (h : ∀ i : Fin n, (i : ℕ) < k → ρ i = i)
    (i : Fin n) : (ρ i : ℕ) < k ↔ (i : ℕ) < k := by
  refine ⟨fun hi => ?_, fun hi => (h i hi).symm ▸ hi⟩
  have hfixed := ρ.injective (h (ρ i) hi)
  rwa [hfixed] at hi

/-! ## Permutations -/

/-- **The permutation of a state**, with its parity. -/
structure Arranged (s : LU n α) (σ : Equiv.Perm (Fin n)) : Prop where
  row : ∀ i, s.perm.get i = σ i
  sign : Equiv.Perm.sign σ = if s.even then 1 else -1

theorem arranged_start (a : Grid n n α) : Arranged (start a) 1 where
  row _ := get_ofFn ..
  sign := Equiv.Perm.sign_one

theorem Arranged.swapRows {s : LU n α} {σ : Equiv.Perm (Fin n)} (h : Arranged s σ) (p q : Fin n) :
    Arranged (s.swapRows p q) (σ * Equiv.swap p q) where
  row i := by rw [perm_swapRows, exchanged_eq_swap, h.row, Equiv.Perm.mul_apply]
  sign := by
    rw [Equiv.Perm.sign_mul, h.sign]
    by_cases hpq : p = q
    · subst hpq
      simp [LU.swapRows]
    · cases heven : s.even <;> simp [LU.swapRows, hpq, heven, Equiv.Perm.sign_swap hpq]

/-- The parity tells the even permutations. -/
theorem Arranged.even_iff {s : LU n α} {σ : Equiv.Perm (Fin n)} (h : Arranged s σ) :
    s.even = true ↔ Equiv.Perm.sign σ = 1 := by
  rw [h.sign]
  cases s.even <;> decide

/-! ## The pivot -/

/-- **The pivot row lies at the diagonal or below**, over any kind of number. -/
theorem le_pivotRow [LT α] [DecidableLT α] [Magnitude α] (s : LU n α) (col : Fin n) :
    col ≤ s.pivotRow col :=
  foldl_invariant (P := fun _ best => col ≤ best) le_rfl fun row best hbest => by
    split_ifs with hlarger
    · exact hlarger.1.le
    · exact hbest

/-- **No entry of the column is larger than that of the pivot row**, from the diagonal downwards. Entries
that compare with none, such as NaN, are allowed. -/
theorem not_lt_abs_pivot [LT α] [DecidableLT α] [IsStrictOrder α (· < ·)] [Magnitude α]
    (s : LU n α) (col : Fin n) : ∀ i, col ≤ i →
      ¬Magnitude.abs (s.packed.get (s.pivotRow col) col) < Magnitude.abs (s.packed.get i col) := by
  let size (i : Fin n) : α := Magnitude.abs (s.packed.get i col)
  -- the scan compares rows below the diagonal only, so the diagonal entry is carried along
  obtain ⟨hdiagonal, hmax⟩ := foldl_invariant
    (P := fun k best => ¬size best < size col ∧ ∀ i : Fin n, (i : ℕ) < k → col < i → ¬size best < size i)
    (f := fun best row => if col < row ∧ size best < size row then row else best)
    (s := col) ⟨irrefl _, fun i hi => absurd hi (Nat.not_lt_zero _)⟩
    (fun row best h => by
      obtain ⟨hdiagonal, hmax⟩ := h
      split_ifs with hlarger
      · refine ⟨fun h => hdiagonal (trans_of _ hlarger.2 h), fun i hi hcol h => ?_⟩
        rcases Nat.lt_succ_iff_lt_or_eq.mp hi with hlt | heq
        · exact hmax i hlt hcol (trans_of _ hlarger.2 h)
        · exact irrefl _ (Fin.ext heq ▸ h)
      · refine ⟨hdiagonal, fun i hi hcol h => ?_⟩
        rcases Nat.lt_succ_iff_lt_or_eq.mp hi with hlt | heq
        · exact hmax i hlt hcol h
        · obtain rfl := Fin.ext heq
          exact hlarger ⟨hcol, h⟩)
  intro i hi
  rcases hi.eq_or_lt with rfl | hlt
  · exact hdiagonal
  · exact hmax i i.isLt hlt

/-! ## The exchange of a step -/

section Step

variable [LT α] [DecidableLT α] [Magnitude α]

/-- The exchange that brings the pivot row to the diagonal. -/
def exchange (s : LU n α) (col : Fin n) : Equiv.Perm (Fin n) :=
  Equiv.swap col (s.pivotRow col)

theorem exchange_diagonal (s : LU n α) (col : Fin n) : s.exchange col col = s.pivotRow col :=
  Equiv.swap_apply_left ..

/-- Rows that are done stay where they are. -/
theorem exchange_of_lt (s : LU n α) {col i : Fin n} (h : i < col) : s.exchange col i = i :=
  swap_eq_of_lt le_rfl (le_pivotRow s col) h

/-- The rows that are left are exchanged among themselves. -/
theorem le_exchange (s : LU n α) {col i : Fin n} (h : col ≤ i) : col ≤ s.exchange col i :=
  not_lt.mp fun hlt => h.not_gt ((lt_iff_of_fixed (fun _ => exchange_of_lt s) i).mp hlt)

/-! ## The order of the rows during a run -/

/-- **The order of the rows after `k` columns**: the exchanges of these columns, one after the other. -/
def rowOrder (states : ℕ → LU n α) : ℕ → Equiv.Perm (Fin n)
  | 0 => 1
  | k + 1 => rowOrder states k * if h : k < n then (states k).exchange ⟨k, h⟩ else 1

theorem rowOrder_succ (states : ℕ → LU n α) (col : Fin n) :
    rowOrder states (col + 1) = rowOrder states col * (states col).exchange col := by
  rw [rowOrder, dif_pos col.isLt]

/-- **The exchanges from column `k` on**, which lead from the rows after `k` columns to those at the end. -/
def later (states : ℕ → LU n α) (k : ℕ) : Equiv.Perm (Fin n) :=
  (rowOrder states k)⁻¹ * rowOrder states n

theorem later_last (states : ℕ → LU n α) : later states n = 1 :=
  inv_mul_cancel _

theorem later_eq (states : ℕ → LU n α) (col : Fin n) :
    later states col = (states col).exchange col * later states (col + 1) := by
  rw [later, later, rowOrder_succ, mul_inv_rev, mul_assoc, mul_inv_cancel_left]

theorem later_apply (states : ℕ → LU n α) (col i : Fin n) :
    later states col i = (states col).exchange col (later states (col + 1) i) := by
  rw [later_eq states col, Equiv.Perm.mul_apply]

/-- Rows that are done are not exchanged later. -/
theorem later_of_lt (states : ℕ → LU n α) {k : ℕ} (hk : k ≤ n) {i : Fin n} (hi : (i : ℕ) < k) :
    later states k i = i := by
  -- from the last column backwards, where nothing is left to exchange
  induction hk using Nat.decreasingInduction with
  | self => rw [later_last, Equiv.Perm.one_apply]
  | of_succ k hk ih =>
    have hlt : i < (⟨k, hk⟩ : Fin n) := hi
    rw [later_apply states ⟨k, hk⟩, ih (hi.trans k.lt_succ_self), exchange_of_lt _ hlt]

/-- The others stay behind them. -/
theorem later_lt_iff (states : ℕ → LU n α) {k : ℕ} (hk : k ≤ n) (i : Fin n) :
    (later states k i : ℕ) < k ↔ (i : ℕ) < k :=
  lt_iff_of_fixed (fun _ => later_of_lt states hk) i

/-! ## One step -/

variable [Zero α] [One α] [Sub α] [Mul α] [Div α] [BEq α]

/-- **The state after one column**, when the pivot is accepted. -/
def advanced (s : LU n α) (col : Fin n) : LU n α :=
  let t := s.swapRows col (s.pivotRow col)
  { t with packed := eliminate t.packed col }

theorem Arranged.advanced {s : LU n α} {σ : Equiv.Perm (Fin n)} (h : Arranged s σ) (col : Fin n) :
    Arranged (s.advanced col) (σ * s.exchange col) :=
  ⟨(h.swapRows col (s.pivotRow col)).row, (h.swapRows col (s.pivotRow col)).sign⟩

/-- **The entries after one column**, in terms of the rows before the exchange. -/
theorem get_advanced (s : LU n α) (col i j : Fin n) :
    (s.advanced col).packed.get i j =
      if i ≤ col ∨ j < col then s.packed.get (s.exchange col i) j
      else if j = col then
        s.packed.get (s.exchange col i) col * (1 / s.packed.get (s.pivotRow col) col)
      else if s.packed.get (s.pivotRow col) j == 0 then s.packed.get (s.exchange col i) j
      else s.packed.get (s.exchange col i) j
        - s.packed.get (s.exchange col i) col * (1 / s.packed.get (s.pivotRow col) col)
          * s.packed.get (s.pivotRow col) j := by
  simp only [LU.advanced, get_eliminate, get_swapRows, exchanged_eq_swap, Equiv.swap_apply_left,
    exchange]

/-- At the diagonal and above, and in the columns that are done, rows are exchanged only. -/
theorem get_advanced_of_done (s : LU n α) {col i j : Fin n} (h : i ≤ col ∨ j < col) :
    (s.advanced col).packed.get i j = s.packed.get (s.exchange col i) j := by
  rw [get_advanced, if_pos h]

/-- **The multipliers** of the column. -/
theorem get_advanced_multiplier (s : LU n α) {col i : Fin n} (h : col < i) :
    (s.advanced col).packed.get i col =
      s.packed.get (s.exchange col i) col * (1 / s.packed.get (s.pivotRow col) col) := by
  rw [get_advanced, if_neg (not_or.mpr ⟨h.not_ge, lt_irrefl col⟩), if_pos rfl]

/-- **What is left of the columns to the right.** -/
theorem get_advanced_rest (s : LU n α) {col i j : Fin n} (hi : col < i) (hj : col < j) :
    (s.advanced col).packed.get i j =
      if s.packed.get (s.pivotRow col) j == 0 then s.packed.get (s.exchange col i) j
      else s.packed.get (s.exchange col i) j
        - (s.advanced col).packed.get i col * s.packed.get (s.pivotRow col) j := by
  rw [get_advanced_multiplier s hi, get_advanced, if_neg (not_or.mpr ⟨hi.not_ge, hj.not_gt⟩),
    if_neg hj.ne']

/-- **When the pivot of a column is accepted.** -/
def Accepts (rule : PivotRule α) (threshold : α) (s : LU n α) (col : Fin n) : Prop :=
  threshold < Magnitude.abs (s.packed.get (s.pivotRow col) col) ∧
    rule.isFinite (Magnitude.abs (s.packed.get (s.pivotRow col) col)) = true

theorem step_eq_ok_iff {rule : PivotRule α} {threshold : α} {s t : LU n α} {col : Fin n} :
    step rule threshold s col = .ok t ↔ Accepts rule threshold s col ∧ t = s.advanced col := by
  unfold step Accepts
  dsimp only
  split_ifs with h
  · rw [Except.ok.injEq, eq_comm, and_iff_right h]
    rfl
  · refine iff_of_false ?_ fun haccepted => h haccepted.1
    rintro ⟨⟩

/-- **A refused step** leaves the state as it stands. -/
theorem step_eq_error_iff {rule : PivotRule α} {threshold : α} {s t : LU n α} {col : Fin n} :
    step rule threshold s col = .error t ↔ ¬Accepts rule threshold s col ∧ t = s := by
  unfold step Accepts
  dsimp only
  split_ifs with h
  · refine iff_of_false ?_ fun hrefused => hrefused.1 h
    rintro ⟨⟩
  · rw [Except.error.injEq, eq_comm, and_iff_right h]

/-! ## Whole runs -/

variable [NatCast α]

/-- **Every state that an elimination ends in** has its rows permuted. -/
theorem factor_arranged (rule : PivotRule α) (a : Grid n n α) :
    (∀ f, factor rule a = .ok f → ∃ σ, Arranged f σ) ∧
      ∀ s, factor rule a = .error s → ∃ σ, Arranged s σ :=
  foldlM_invariant (P := fun _ s => ∃ σ, Arranged s σ) ⟨1, arranged_start a⟩ fun col s hs => by
    refine ⟨fun t ht => ?_, fun t ht => ?_⟩
    · obtain ⟨σ, hσ⟩ := hs
      obtain ⟨-, rfl⟩ := step_eq_ok_iff.mp ht
      exact ⟨_, hσ.advanced col⟩
    · obtain ⟨-, rfl⟩ := step_eq_error_iff.mp ht
      exact hs

/-- **The states of a finished elimination**: `states k` is what it has after `k` columns. -/
structure IsRun (rule : PivotRule α) (a : Grid n n α) (states : ℕ → LU n α) : Prop where
  start : states 0 = start a
  accepts : ∀ col : Fin n, Accepts rule (threshold rule a) (states col) col
  next : ∀ col : Fin n, states (col + 1) = (states col).advanced col

/-- **A grid has factors exactly when a run ends in them.** -/
theorem factor_eq_ok_iff {rule : PivotRule α} {a : Grid n n α} {f : LU n α} :
    factor rule a = .ok f ↔ ∃ states, IsRun rule a states ∧ states n = f := by
  rw [factor, foldlM_eq_ok_iff]
  constructor
  · rintro ⟨states, hstart, hend, hstep⟩
    exact ⟨states, ⟨hstart, fun col => (step_eq_ok_iff.mp (hstep col)).1,
      fun col => (step_eq_ok_iff.mp (hstep col)).2⟩, hend⟩
  · rintro ⟨states, hrun, hend⟩
    exact ⟨states, hrun.start, hend, fun col => step_eq_ok_iff.mpr ⟨hrun.accepts col, hrun.next col⟩⟩

namespace IsRun

variable {rule : PivotRule α} {a : Grid n n α} {states : ℕ → LU n α}

theorem arranged (h : IsRun rule a states) {k : ℕ} (hk : k ≤ n) :
    Arranged (states k) (rowOrder states k) := by
  induction k with
  | zero => exact h.start ▸ arranged_start a
  | succ k ih =>
    have hnext : states (k + 1) = (states k).advanced ⟨k, hk⟩ := h.next ⟨k, hk⟩
    exact hnext ▸ rowOrder_succ states ⟨k, hk⟩ ▸ (ih (Nat.le_of_succ_le hk)).advanced ⟨k, hk⟩

/-- **What is done stays as it is** to the end, with its row: the rows before `k` and the multipliers in
the columns before `k`. -/
theorem get_settled (h : IsRun rule a states) {k : ℕ} (hk : k ≤ n) {i j : Fin n}
    (hdone : (i : ℕ) < k ∨ (j : ℕ) < k) :
    (states n).packed.get i j = (states k).packed.get (later states k i) j := by
  induction hk using Nat.decreasingInduction with
  | self => rw [later_last, Equiv.Perm.one_apply]
  | of_succ k hk ih =>
    let col : Fin n := ⟨k, hk⟩
    -- column `k` only exchanges what is done before it, whichever of the two indices is the reason
    have hdone' : later states (k + 1) i ≤ col ∨ j < col := hdone.imp_left fun hi =>
      Nat.le_of_lt_succ ((later_lt_iff states hk i).mpr (hi.trans k.lt_succ_self))
    rw [ih (hdone.imp (·.trans k.lt_succ_self) (·.trans k.lt_succ_self)), h.next col,
      get_advanced_of_done _ hdone', later_apply states col]

/-- **The upper triangle**: a row ends as the pivot row of its column. -/
theorem get_upper (h : IsRun rule a states) (i j : Fin n) :
    (states n).packed.get i j = (states i).packed.get ((states i).pivotRow i) j := by
  have hlt : (i : ℕ) < i + 1 := Nat.lt_succ_self i
  rw [h.get_settled i.isLt (.inl hlt), later_of_lt states i.isLt hlt, h.next,
    get_advanced_of_done _ (.inl le_rfl), exchange_diagonal]

/-- **The lower triangle**: an entry ends as a multiplier of its column. -/
theorem get_lower (h : IsRun rule a states) {i j : Fin n} (hij : j < i) :
    (states n).packed.get i j
      = (states j).packed.get (later states j i) j * (1 / (states n).packed.get j j) := by
  have hrow : j < later states (j + 1) i := not_le.mp fun h =>
    hij.not_ge (Nat.le_of_lt_succ ((later_lt_iff states j.isLt i).mp (Nat.lt_succ_of_le h)))
  rw [h.get_settled j.isLt (.inr (Nat.lt_succ_self j)), h.next, get_advanced_multiplier _ hrow,
    ← h.get_upper j j, later_apply states j]

end IsRun

end Step

end CertifiedZeros.LU
