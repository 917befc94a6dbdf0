import CertifiedZeros.Aggregate
import CertifiedZeros.Proofs.Numerals
import Mathlib.Algebra.BigOperators.Fin
import Mathlib.Algebra.Order.Group.Abs

/-! # Properties of sums and maxima in order

Where addition is associative and commutative the order of a sum does not matter, and in an ordered
group the running maximum is the least upper bound of zero and the values.

* **`leftSum_eq_sum`** — the ordered sum is the sum over all indices.
* **`leftMax_le_iff`** — the ordered maximum, by its upper bounds; **`exists_eq_leftMax`** — where it is
  attained.

Over any kind of number, **`leftSum_induction`**, **`leftMax_induction`**, **`leftSum_of_exists`** and
**`leftMax_of_exists`** carry a property from the terms to the whole. -/

namespace CertifiedZeros

/-- **In exact arithmetic an ordered sum is a sum.** -/
theorem leftSum_eq_sum {α : Type} [AddCommMonoid α] {n : ℕ} (f : Fin n → α) :
    leftSum f = ∑ i, f i := by
  induction n with
  | zero => rw [leftSum_zero, Fin.sum_univ_zero]
  | succ n ih => rw [leftSum_succ_last, ih, Fin.sum_univ_castSucc]

section Induction

variable {α : Type} [Zero α] {n : ℕ} {f : Fin n → α} {P Q : α → Prop}

/-- What holds of zero and of sums holds of an ordered sum. -/
theorem leftSum_induction [Add α] (hzero : P 0) (hadd : ∀ {a b}, P a → P b → P (a + b))
    (h : ∀ i, P (f i)) : P (leftSum f) := by
  induction n with
  | zero => rwa [leftSum_zero]
  | succ n ih =>
    rw [leftSum_succ_last]
    exact hadd (ih fun i => h i.castSucc) (h (Fin.last n))

/-- **What one term brings into an ordered sum**, when terms of the other kind do not take it out. -/
theorem leftSum_of_exists [Add α] (hzero : Q 0) (hadd : ∀ {a b}, Q a → Q b → Q (a + b))
    (hleft : ∀ {a b}, P a → Q b → P (a + b)) (hright : ∀ {a b}, Q a → P b → P (a + b))
    (hQ : ∀ i, Q (f i)) (hP : ∃ i, P (f i)) : P (leftSum f) := by
  obtain ⟨i, hi⟩ := hP
  induction n with
  | zero => exact i.elim0
  | succ n ih =>
    rw [leftSum_succ_last]
    induction i using Fin.lastCases with
    | last => exact hright (leftSum_induction hzero hadd fun i => hQ i.castSucc) hi
    | cast i => exact hleft (ih (fun i => hQ i.castSucc) i hi) (hQ (Fin.last n))

/-- What holds of zero and of maxima holds of an ordered maximum. -/
theorem leftMax_induction [Magnitude α] (hzero : P 0)
    (hlarger : ∀ {a b}, P a → P b → P (Magnitude.larger a b)) (h : ∀ i, P (f i)) :
    P (leftMax f) := by
  induction n with
  | zero => rwa [leftMax_zero]
  | succ n ih =>
    rw [leftMax_succ_last]
    exact hlarger (ih fun i => h i.castSucc) (h (Fin.last n))

/-- **What one value brings into an ordered maximum**, when no other value takes it out. -/
theorem leftMax_of_exists [Magnitude α] (hleft : ∀ {a b}, P a → P (Magnitude.larger a b))
    (hright : ∀ {a b}, P b → P (Magnitude.larger a b)) (hP : ∃ i, P (f i)) : P (leftMax f) := by
  obtain ⟨i, hi⟩ := hP
  induction n with
  | zero => exact i.elim0
  | succ n ih =>
    rw [leftMax_succ_last]
    induction i using Fin.lastCases with
    | last => exact hright hi
    | cast i => exact hleft (ih i hi)

end Induction

/-- Absolute value and maximum in an ordered group. -/
instance {K : Type} [AddCommGroup K] [LinearOrder K] : Magnitude K where
  abs x := |x|
  larger := max

section Maximum

variable {K : Type} [AddCommGroup K] [LinearOrder K] {n : ℕ} {f : Fin n → K} {b : K}

theorem magnitude_abs (x : K) : Magnitude.abs x = |x| := rfl

/-- **The upper bounds of an ordered maximum.** -/
theorem leftMax_le_iff : leftMax f ≤ b ↔ 0 ≤ b ∧ ∀ i, f i ≤ b := by
  induction n with
  | zero => simp
  | succ n ih =>
    rw [leftMax_succ_last, Fin.forall_fin_succ', ← and_assoc, ← ih]
    exact max_le_iff

theorem leftMax_nonneg : 0 ≤ leftMax f :=
  (leftMax_le_iff.mp le_rfl).1

theorem le_leftMax (i : Fin n) : f i ≤ leftMax f :=
  (leftMax_le_iff.mp le_rfl).2 i

/-- **A maximum of values that are not negative** is one of them. -/
theorem exists_eq_leftMax (hn : 0 < n) (h : ∀ i, 0 ≤ f i) : ∃ i, f i = leftMax f := by
  have : Nonempty (Fin n) := ⟨⟨0, hn⟩⟩
  obtain ⟨i, -, hi⟩ := Finset.exists_max_image Finset.univ f Finset.univ_nonempty
  exact ⟨i, (le_leftMax i).antisymm (leftMax_le_iff.mpr ⟨h i, fun j => hi j (Finset.mem_univ j)⟩)⟩

end Maximum

end CertifiedZeros
