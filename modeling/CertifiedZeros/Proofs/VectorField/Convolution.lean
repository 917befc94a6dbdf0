import CertifiedZeros.Proofs.Aggregate
import CertifiedZeros.VectorField.Fisher
import Mathlib

/-! # The convolution of symmetric profiles

A profile has modes `x 0, …, x N`. Read over all integers, with `x (-k) = x k` and nothing beyond
`N`, it is an even sequence, and the square `x ∗ x` of the program is the convolution of that
sequence with itself.

* **`mode x i`** — the mode of any integer index.
* **`convolve x y`** — the convolution of two profiles, by the sums of the program; the square is
  `convolve x x`.
* **`convolve_get`** — its components as convolutions over the integers.
* **`convolve_get_eq_sum`** — the same with the reflected terms gathered at their mode. -/

namespace CertifiedZeros.Fisher

variable {R : Type} {N : ℕ}

/-! ## Profiles as even sequences -/

/-- **The mode of any integer index**: negative ones are reflections, those beyond the truncation
vanish. -/
def mode [Zero R] (x : Vector R (N + 1)) (i : ℤ) : R :=
  if h : i.natAbs ≤ N then x.get ⟨i.natAbs, by omega⟩ else 0

theorem mode_of_le [Zero R] (x : Vector R (N + 1)) {i : ℤ} (h : i.natAbs ≤ N) :
    mode x i = x.get ⟨i.natAbs, by omega⟩ :=
  dif_pos h

theorem mode_of_lt [Zero R] (x : Vector R (N + 1)) {i : ℤ} (h : N < i.natAbs) : mode x i = 0 :=
  dif_neg (by omega)

@[simp] theorem mode_val [Zero R] (x : Vector R (N + 1)) (k : Fin (N + 1)) :
    mode x (k : ℕ) = x.get k := by
  rw [mode_of_le x (by omega)]
  rfl

@[simp] theorem mode_neg [Zero R] (x : Vector R (N + 1)) (i : ℤ) : mode x (-i) = mode x i := by
  simp only [mode, Int.natAbs_neg]

/-- The mode at the difference of two indices. -/
theorem mode_sub [Zero R] (x : Vector R (N + 1)) (k l : Fin (N + 1)) :
    mode x ((k : ℕ) - (l : ℕ)) = x.get (distance k l) :=
  mode_of_le x (by omega)

theorem get_add [Add R] {n : ℕ} (x y : Vector R n) (i : Fin n) :
    (x + y).get i = x.get i + y.get i := by
  simp [get_eq_getElem]

theorem mode_add [AddZeroClass R] (x y : Vector R (N + 1)) (i : ℤ) :
    mode (x + y) i = mode x i + mode y i := by
  unfold mode
  split
  · exact get_add x y _
  · exact (add_zero 0).symm

/-! ## Convolutions as sums over the integers -/

/-- **The convolution of two profiles**, by the terms that the program sums. -/
def convolve [Zero R] [Add R] [Mul R] (x y : Vector R (N + 1)) : Vector R (N + 1) :=
  Vector.ofFn fun k => leftSum fun t => x.get (firstMode k t) * y.get (secondMode k t)

theorem convolution_eq_convolve [Zero R] [Add R] [Mul R] (x : Vector R (N + 1)) :
    convolution x = convolve x x := rfl

variable [CommRing R]

/-- **A component of a convolution** is a sum over all pairs of indices that add up to it. -/
theorem convolve_get (x y : Vector R (N + 1)) (k : Fin (N + 1)) :
    (convolve x y).get k = ∑ j ∈ Finset.Icc (-N : ℤ) N, mode x (k - j) * mode y j := by
  -- Term `t` of the program has `j = N - t`; the indices below `k - N` that it leaves out
  -- contribute nothing, since `k - j` lies beyond the truncation there.
  have hterm : ∀ t : Fin (2 * N + 1 - k), x.get (firstMode k t) * y.get (secondMode k t)
      = mode x (k - (N - t)) * mode y (N - t) := by
    intro t
    rw [mode_of_le x (by omega), mode_of_le y (by omega)]
    congr 2
    exact Fin.ext (by simp only [firstMode]; omega)
  rw [convolve, get_ofFn, leftSum_eq_sum, Finset.sum_congr rfl fun t _ => hterm t]
  refine Finset.sum_of_injOn (fun t => (N : ℤ) - t) ?_ ?_ ?_ fun _ _ => rfl
  · intro s _ t _ hst
    exact Fin.ext (by simp only at hst; omega)
  · intro t _
    simp only [Finset.coe_Icc, Set.mem_Icc]
    omega
  · intro j hj hnot
    rw [Finset.mem_Icc] at hj
    rw [mode_of_lt x, zero_mul]
    by_contra hle
    refine hnot ⟨⟨(N - j).toNat, by omega⟩, Finset.mem_coe.mpr (Finset.mem_univ _), ?_⟩
    simp only
    omega

/-- The modes of a convolution, at negative indices too. -/
theorem mode_convolve (x y : Vector R (N + 1)) {k : ℤ} (hk : k.natAbs ≤ N) :
    mode (convolve x y) k = ∑ j ∈ Finset.Icc (-N : ℤ) N, mode x (k - j) * mode y j := by
  obtain ⟨n, rfl | rfl⟩ := k.eq_nat_or_neg
  · rw [mode_of_le _ hk, convolve_get]
    simp only [Int.natAbs_natCast]
  · -- reflecting the index of summation reflects both factors
    rw [mode_neg, mode_of_le _ (by omega), convolve_get]
    refine Finset.sum_equiv (Equiv.neg ℤ) (fun j => ?_) fun j _ => ?_
    · simp only [Finset.mem_Icc, Equiv.neg_apply]
      omega
    · rw [Equiv.neg_apply, mode_neg, ← mode_neg x]
      congr 2
      simp only [Int.natAbs_natCast]
      omega

theorem convolve_comm (x y : Vector R (N + 1)) : convolve x y = convolve y x := by
  refine ext_get fun k => ?_
  rw [convolve, convolve, get_ofFn, get_ofFn, leftSum_eq_sum, leftSum_eq_sum]
  -- the order of the terms is reversed, which exchanges the two factors
  refine Fintype.sum_equiv Fin.revPerm _ _ fun t => ?_
  have hfirst : firstMode k t = secondMode k t.rev :=
    Fin.ext (by simp only [firstMode, secondMode, Fin.val_rev]; omega)
  have hsecond : secondMode k t = firstMode k t.rev :=
    Fin.ext (by simp only [firstMode, secondMode, Fin.val_rev]; omega)
  rw [Fin.revPerm_apply, ← hfirst, ← hsecond, mul_comm]

theorem convolve_add (x y z : Vector R (N + 1)) (k : Fin (N + 1)) :
    (convolve x (y + z)).get k = (convolve x y).get k + (convolve x z).get k := by
  simp only [convolve_get, mode_add, mul_add, Finset.sum_add_distrib]

/-- **The square of a sum.** -/
theorem convolution_add (x h : Vector R (N + 1)) (k : Fin (N + 1)) :
    (convolution (x + h)).get k
      = (convolution x).get k + 2 * (convolve x h).get k + (convolution h).get k := by
  simp only [convolution_eq_convolve]
  rw [convolve_add, convolve_comm (x + h) x, convolve_comm (x + h) h, convolve_add, convolve_add,
    convolve_comm h x]
  ring

/-! ## Gathering reflected terms -/

/-- **A sum over the integers from `-N` to `N`**, each term with its reflection. -/
theorem sum_symmetric {M : Type*} [AddCommMonoid M] (F : ℤ → M) (N : ℕ) :
    ∑ j ∈ Finset.Icc (-N : ℤ) N, F j
      = ∑ l : Fin (N + 1), (F (l : ℕ) + if (l : ℕ) = 0 then 0 else F (-(l : ℕ))) := by
  induction N with
  | zero => simp
  | succ N ih =>
    have hends : Finset.Icc (-(N + 1 : ℕ) : ℤ) (N + 1 : ℕ)
        = insert (-(N + 1 : ℕ) : ℤ) (insert ((N + 1 : ℕ) : ℤ) (Finset.Icc (-N : ℤ) N)) := by
      ext j
      simp only [Finset.mem_Icc, Finset.mem_insert]
      omega
    rw [hends, Finset.sum_insert, Finset.sum_insert, ih, Fin.sum_univ_castSucc (n := N + 1)]
    · simp only [Fin.val_castSucc, Fin.val_last, Nat.succ_ne_zero, if_false]
      rw [← add_assoc, add_comm, add_comm (F _) (F _)]
    · simp
    · simp only [Finset.mem_insert, Finset.mem_Icc]
      omega

/-- **How mode `l` of `y` enters component `k` of `x ∗ y`**: through itself, and through its
reflection when it has one. -/
theorem convolve_get_eq_sum (x y : Vector R (N + 1)) (k : Fin (N + 1)) :
    (convolve x y).get k = ∑ l : Fin (N + 1),
      (mode x (k - (l : ℕ)) + if (l : ℕ) = 0 then 0 else mode x (k + (l : ℕ))) * y.get l := by
  rw [convolve_get, sum_symmetric]
  refine Finset.sum_congr rfl fun l _ => ?_
  rw [mode_neg, mode_val, sub_neg_eq_add, add_mul, ite_mul, zero_mul]

/-! ## Squares of particular profiles -/

/-- The profile of mode `l` alone. -/
def single (l : Fin (N + 1)) : Vector R (N + 1) := Vector.ofFn fun i => if i = l then 1 else 0

theorem mode_single (l : Fin (N + 1)) (i : ℤ) :
    mode (single l : Vector R (N + 1)) i = if i.natAbs = l then 1 else 0 := by
  unfold mode
  split_ifs with hle hl hl
  · rw [single, get_ofFn, if_pos (Fin.ext hl)]
  · rw [single, get_ofFn, if_neg fun h => hl (Fin.val_eq_of_eq h)]
  · omega
  · rfl

/-- **The square of a single mode** other than the constant one: twice the constant mode, and the
mode of double index. -/
theorem convolution_single {l : Fin (N + 1)} (hl : (l : ℕ) ≠ 0) (k : Fin (N + 1)) :
    (convolution (single l : Vector R (N + 1))).get k
      = if (k : ℕ) = 0 then 2 else if (k : ℕ) = 2 * l then 1 else 0 := by
  rw [convolution_eq_convolve, convolve_get_eq_sum, Finset.sum_eq_single l]
  · rw [if_neg hl, mode_single, mode_single, single, get_ofFn, if_pos rfl, mul_one]
    split_ifs <;> first | omega | norm_num
  · intro i _ hi
    rw [single, get_ofFn, if_neg hi, mul_zero]
  · exact fun h => absurd (Finset.mem_univ l) h

/-- The constant mode of the square of the profile of ones. -/
theorem convolution_ones :
    (convolution (Vector.replicate (N + 1) (1 : R))).get 0 = 2 * N + 1 := by
  have hone : ∀ j ∈ Finset.Icc (-N : ℤ) N,
      mode (Vector.replicate (N + 1) (1 : R)) (((0 : Fin (N + 1)) : ℕ) - j)
        * mode (Vector.replicate (N + 1) (1 : R)) j = 1 := by
    intro j hj
    rw [Finset.mem_Icc] at hj
    rw [mode_of_le _ (by simp; omega), mode_of_le _ (by omega), get_replicate, get_replicate,
      mul_one]
  rw [convolution_eq_convolve, convolve_get, Finset.sum_congr rfl hone, Finset.sum_const,
    Int.card_Icc, nsmul_one, show ((N : ℤ) + 1 - -N).toNat = 2 * N + 1 by omega]
  push_cast
  ring

end CertifiedZeros.Fisher
