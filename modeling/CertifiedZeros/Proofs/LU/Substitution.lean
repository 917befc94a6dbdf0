import CertifiedZeros.LU.Solve
import CertifiedZeros.Proofs.LU.Elimination

/-! # Triangular systems in exact arithmetic

The two sweeps of `CertifiedZeros.LU.Solve` solve the two triangular systems that a packed grid holds.

* **`lower`**, **`upper`** — the two triangles, the first with ones on its diagonal.
* **`lower_mulVec_forward`** — `L y = P b` after the sweep down.
* **`upper_mulVec_backward`** — `U x = y` after the sweep up, when no diagonal entry vanishes. -/

namespace CertifiedZeros.LU

open Matrix

variable {K : Type} [Field K] {n : ℕ}

/-! ## The two triangles -/

/-- **The unit lower triangle** of the factors. -/
def lower (f : LU n K) : Matrix (Fin n) (Fin n) K :=
  .of fun i j => if j < i then f.packed.get i j else if i = j then 1 else 0

/-- **The upper triangle** of the factors. -/
def upper (f : LU n K) : Matrix (Fin n) (Fin n) K :=
  .of fun i j => if j < i then 0 else f.packed.get i j

theorem lowerTo_packed (f : LU n K) : lowerTo n f.packed = f.lower := by
  ext i j
  simp [lowerTo_apply, lower]

theorem remaining_packed (f : LU n K) : remaining n f.packed = f.upper := by
  ext i j
  simp [remaining_apply, upper]

/-! ## Sums over a part of the columns -/

section Sums

variable {R : Type} [AddCommGroup R]

/-- Subtractions in order take away a sum. -/
theorem foldl_sub_eq (c : R) (f : Fin n → R) :
    Fin.foldl n (fun acc i => acc - f i) c = c - ∑ i, f i := by
  induction n with
  | zero => simp
  | succ n ih => rw [Fin.foldl_succ_last, ih, Fin.sum_univ_castSucc, sub_sub]

theorem sum_leftOf (i : Fin n) (g : Fin n → R) :
    ∑ j, g (leftOf i j) = ∑ j ∈ Finset.Iio i, g j := by
  refine Finset.sum_bij (fun j _ => leftOf i j) (fun j _ => ?_) (fun j _ l _ h => ?_)
    (fun j hj => ?_) fun j _ => rfl
  · rw [Finset.mem_Iio, Fin.lt_def]
    exact j.isLt
  · have hval : (leftOf i j : ℕ) = leftOf i l := congrArg Fin.val h
    exact Fin.ext hval
  · exact ⟨⟨j, Fin.lt_def.mp (Finset.mem_Iio.mp hj)⟩, Finset.mem_univ _, rfl⟩

theorem sum_rightOf (i : Fin n) (g : Fin n → R) :
    ∑ t, g (rightOf i t) = ∑ j ∈ Finset.Ioi i, g j := by
  refine Finset.sum_bij (fun t _ => rightOf i t) (fun t _ => ?_) (fun t _ l _ h => ?_)
    (fun j hj => ?_) fun t _ => rfl
  · rw [Finset.mem_Ioi, Fin.lt_def]
    show (i : ℕ) < i + 1 + t
    omega
  · have hval : (i : ℕ) + 1 + t = i + 1 + l := congrArg Fin.val h
    exact Fin.ext (by omega)
  · have hlt : (i : ℕ) < j := Fin.lt_def.mp (Finset.mem_Ioi.mp hj)
    refine ⟨⟨j - (i + 1), by omega⟩, Finset.mem_univ _, Fin.ext ?_⟩
    show (i : ℕ) + 1 + (j - (i + 1)) = j
    omega

/-- A sum over all columns, split at one of them. -/
theorem sum_eq_at (i : Fin n) (g : Fin n → R) :
    ∑ j, g j = ∑ j ∈ Finset.Iio i, g j + (g i + ∑ j ∈ Finset.Ioi i, g j) := by
  have hleft : Finset.univ.filter (· < i) = Finset.Iio i := by
    ext j
    simp
  have hright : Finset.univ.filter (¬· < i) = insert i (Finset.Ioi i) := by
    ext j
    simp [le_iff_eq_or_lt]
  rw [← Finset.sum_filter_add_sum_filter_not Finset.univ (· < i), hleft, hright,
    Finset.sum_insert (by simp)]

end Sums

/-! ## The sweep down -/

/-- **Every coordinate of the sweep down** is what the coordinates before it leave of the right-hand
side. -/
theorem get_forward (a : Grid n n K) (perm : Vector (Fin n) n) (b : Vector K n) (i : Fin n) :
    (forward a perm b).get i
      = b.get (perm.get i) - ∑ j ∈ Finset.Iio i, a.get i j * (forward a perm b).get j := by
  refine foldl_invariant (P := fun k (y : Vector K n) => ∀ i : Fin n, (i : ℕ) < k →
      y.get i = b.get (perm.get i) - ∑ j ∈ Finset.Iio i, a.get i j * y.get j)
    (fun i hi => absurd hi (Nat.not_lt_zero _)) (fun i y ih l hl => ?_) i i.isLt
  have hkept : ∀ c, ∀ j ∈ Finset.Iio l, a.get l j * (y.set i c i.isLt).get j = a.get l j * y.get j := by
    intro c j hj
    have hjl : j < l := Finset.mem_Iio.mp hj
    rw [get_set, if_neg (by omega)]
  rw [Finset.sum_congr rfl (hkept _), get_set]
  split_ifs with hil
  · subst hil
    rw [foldl_sub_eq, sum_leftOf i fun j => a.get i j * y.get j]
  · exact ih l (by omega)

/-- **The sweep down solves the lower system.** -/
theorem lower_mulVec_forward (f : LU n K) (b : Vector K n) :
    f.lower.mulVec (forward f.packed f.perm b).get = fun i => b.get (f.perm.get i) := by
  funext i
  rw [mulVec, dotProduct, sum_eq_at i]
  have hleft : ∀ j ∈ Finset.Iio i, f.lower i j * (forward f.packed f.perm b).get j
      = f.packed.get i j * (forward f.packed f.perm b).get j := fun j hj => by
    rw [lower, of_apply, if_pos (Finset.mem_Iio.mp hj)]
  have hright : ∀ j ∈ Finset.Ioi i, f.lower i j * (forward f.packed f.perm b).get j = 0 :=
    fun j hj => by
      have hij : i < j := Finset.mem_Ioi.mp hj
      rw [lower, of_apply, if_neg hij.not_gt, if_neg hij.ne, zero_mul]
  have hdiagonal : f.lower i i = 1 := by
    rw [lower, of_apply, if_neg (lt_irrefl i), if_pos rfl]
  rw [Finset.sum_congr rfl hleft, Finset.sum_eq_zero hright, hdiagonal, one_mul, add_zero,
    get_forward, add_sub_cancel]

/-! ## The sweep up -/

/-- **Every coordinate of the sweep up** is what the coordinates after it leave of the right-hand side,
divided by the diagonal entry. -/
theorem get_backward (a : Grid n n K) (y : Vector K n) (i : Fin n) :
    (backward a y).get i
      = (y.get i - ∑ j ∈ Finset.Ioi i, a.get i j * (backward a y).get j) / a.get i i := by
  refine (foldr_invariant (P := fun k (x : Vector K n) => (∀ i : Fin n, (i : ℕ) < k → x.get i = y.get i) ∧
      ∀ i : Fin n, k ≤ (i : ℕ) →
        x.get i = (y.get i - ∑ j ∈ Finset.Ioi i, a.get i j * x.get j) / a.get i i)
    ⟨fun _ _ => rfl, fun i hi => absurd i.isLt hi.not_gt⟩ (fun i x ih => ?_)).2 i (Nat.zero_le _)
  obtain ⟨hleft, hdone⟩ := ih
  refine ⟨fun l hl => ?_, fun l hl => ?_⟩
  · rw [get_set, if_neg (by omega)]
    exact hleft l (by omega)
  · have hkept : ∀ c, ∀ j ∈ Finset.Ioi l,
        a.get l j * (x.set i c i.isLt).get j = a.get l j * x.get j := by
      intro c j hj
      have hlj : l < j := Finset.mem_Ioi.mp hj
      rw [get_set, if_neg (by omega)]
    rw [Finset.sum_congr rfl (hkept _), get_set]
    split_ifs with hil
    · subst hil
      rw [foldl_sub_eq, sum_rightOf i fun j => a.get i j * x.get j, hleft i (Nat.lt_succ_self _)]
    · exact hdone l (by omega)

/-- **The sweep up solves the upper system** when no diagonal entry vanishes. -/
theorem upper_mulVec_backward (f : LU n K) (hdiagonal : ∀ i, f.upper i i ≠ 0) (y : Vector K n) :
    f.upper.mulVec (backward f.packed y).get = y.get := by
  funext i
  have hentry : f.upper i i = f.packed.get i i := by rw [upper, of_apply, if_neg (lt_irrefl i)]
  have hleft : ∀ j ∈ Finset.Iio i, f.upper i j * (backward f.packed y).get j = 0 := fun j hj => by
    rw [upper, of_apply, if_pos (Finset.mem_Iio.mp hj), zero_mul]
  have hright : ∀ j ∈ Finset.Ioi i, f.upper i j * (backward f.packed y).get j
      = f.packed.get i j * (backward f.packed y).get j := fun j hj => by
    rw [upper, of_apply, if_neg (Finset.mem_Ioi.mp hj).not_gt]
  rw [mulVec, dotProduct, sum_eq_at i, Finset.sum_eq_zero hleft, Finset.sum_congr rfl hright,
    zero_add, get_backward, hentry, mul_div_cancel₀ _ (hentry ▸ hdiagonal i), sub_add_cancel]

/-! ## Both sweeps -/

/-- **The solution satisfies both systems in turn.** -/
theorem lower_mul_upper_mulVec_solve (f : LU n K) (hdiagonal : ∀ i, f.upper i i ≠ 0)
    (b : Vector K n) :
    (f.lower * f.upper).mulVec (f.solve b).get = fun i => b.get (f.perm.get i) := by
  rw [← mulVec_mulVec, solve, upper_mulVec_backward f hdiagonal, lower_mulVec_forward]

end CertifiedZeros.LU
