import CertifiedZeros.Proofs.Interval.Orderly
import CertifiedZeros.VectorField.Fisher

/-! # NaN in the Fisher field

Every coordinate of the point meets every other one in the convolution, and every diagonal entry of the
derivative has the coefficient as a summand. So a NaN goes far, unless it is multiplied by an interval
with a zero end.

* **`slope`** — what one mode of the point contributes to the derivative; **`get_derivative`** —
  the derivative by its slopes.
* **`zero_mem_column_of_row`** — the derivative is almost symmetric, so that a row of zero ends stands
  beside a column that holds zero.
* **`zero_mem_column_of_nan`** — a NaN of the point makes a component of the field NaN, or leaves the
  derivative of that component around zero. -/

namespace CertifiedZeros

open Binary64 CertifiedZeros.Interval

namespace Fisher

variable {p : Fisher Interval} {x : Vector Float (p.order + 1)}

/-- What mode `m` of the point contributes to the derivative. -/
def slope (p : Fisher Interval) (x : Vector Float (p.order + 1)) (m : Fin (p.order + 1)) : Interval :=
  ((2 : ℕ) : Interval) * p.coefficient * point (x.get m)

/-- **An entry of the derivative**, by the slopes of the modes that it stands for. -/
theorem get_derivative (k l : Fin (p.order + 1)) :
    (p.derivative (x.map point)).get k l =
      let direct := -(p.slope x (distance k l))
      let reflected := if h : 0 < l.val ∧ k.val + l.val ≤ p.order then
        direct - p.slope x ⟨k + l, by omega⟩ else direct
      if k = l then reflected + p.linear k else reflected := by
  simp only [derivative, Grid.get_ofFn, get_map]
  rfl

theorem derivative_orderly (hp : p.coefficient.Orderly) (k l : Fin (p.order + 1)) :
    ((p.derivative (x.map point)).get k l).Orderly := by
  have hslope : ∀ m, (p.slope x m).Orderly := fun m => orderly_mul _ _
  have hlinear : (p.linear k).Orderly := hp.sub (orderly_point _)
  rw [get_derivative]
  dsimp only
  split_ifs
  · exact ((hslope _).neg.sub (hslope _)).add hlinear
  · exact (hslope _).neg.add hlinear
  · exact (hslope _).neg.sub (hslope _)
  · exact (hslope _).neg

/-- A NaN coefficient shows on the diagonal. -/
theorem derivative_diagonal_isNaN (hp : p.coefficient.IsNaN) (k : Fin (p.order + 1)) :
    ((p.derivative (x.map point)).get k k).IsNaN := by
  rw [get_derivative]
  dsimp only
  rw [if_pos rfl]
  exact IsNaN.add (.inr (IsNaN.sub (.inl hp)))

/-- Mode zero enters a component once: it has no reflection of its own. -/
theorem get_derivative_zero_right {l : Fin (p.order + 1)} (hl : l ≠ 0) :
    (p.derivative (x.map point)).get l 0 = -p.slope x l := by
  have hdist : distance l 0 = l := Fin.ext (by simp [distance])
  rw [get_derivative]
  dsimp only
  rw [if_neg hl, dif_neg (by simp), hdist]

/-- In component zero every other mode meets its reflection. -/
theorem get_derivative_zero_left {l : Fin (p.order + 1)} (hl : l ≠ 0) :
    (p.derivative (x.map point)).get 0 l = -p.slope x l - p.slope x l := by
  have hdist : distance 0 l = l := Fin.ext (by simp [distance])
  have hpos : 0 < l.val := Nat.pos_of_ne_zero fun h => hl (Fin.ext h)
  have hle : (0 : Fin (p.order + 1)).val + l.val ≤ p.order := by
    rw [Fin.val_zero, Nat.zero_add]
    exact Nat.le_of_lt_succ l.isLt
  have hreflected : (⟨(0 : Fin (p.order + 1)).val + l.val, Nat.lt_succ_of_le hle⟩
      : Fin (p.order + 1)) = l := Fin.ext (Nat.zero_add _)
  rw [get_derivative]
  dsimp only
  rw [if_neg (Ne.symm hl), dif_pos ⟨hpos, hle⟩, hdist, hreflected]

/-- Between the other modes the derivative is symmetric. -/
theorem get_derivative_comm {k l : Fin (p.order + 1)} (hk : k ≠ 0) (hl : l ≠ 0) (hkl : k ≠ l) :
    (p.derivative (x.map point)).get k l = (p.derivative (x.map point)).get l k := by
  have hdist : distance k l = distance l k := Fin.ext (by simp only [distance]; omega)
  have hkpos : 0 < k.val := Nat.pos_of_ne_zero fun h => hk (Fin.ext h)
  have hlpos : 0 < l.val := Nat.pos_of_ne_zero fun h => hl (Fin.ext h)
  rw [get_derivative, get_derivative]
  dsimp only
  rw [if_neg hkl, if_neg (Ne.symm hkl), hdist]
  by_cases hle : k.val + l.val ≤ p.order
  · have hswap : (⟨k.val + l.val, by omega⟩ : Fin (p.order + 1)) = ⟨l.val + k.val, by omega⟩ :=
      Fin.ext (Nat.add_comm _ _)
    rw [dif_pos ⟨hlpos, hle⟩, dif_pos ⟨hkpos, by omega⟩, hswap]
  · rw [dif_neg fun h => hle h.2, dif_neg fun h => hle (by omega)]

/-- **A row of zero ends stands beside a column that holds zero**: the derivative is almost symmetric. -/
theorem zero_mem_column_of_row (hp : p.coefficient.Orderly) {q : Fin (p.order + 1)}
    (hrow : ∀ l, ((p.derivative (x.map point)).get q l).HasZeroEnd) (l : Fin (p.order + 1)) :
    (0 : ℝ) ∈ (p.derivative (x.map point)).get l q := by
  have hzero : ∀ l, (0 : ℝ) ∈ (p.derivative (x.map point)).get q l := fun l =>
    (derivative_orderly hp q l).zero_mem (hrow l)
  by_cases hlq : l = q
  · rw [hlq]
    exact hzero q
  by_cases hq : q = 0
  · subst hq
    have hdouble := hrow l
    rw [get_derivative_zero_left hlq, sub_eq_add] at hdouble
    rw [get_derivative_zero_right hlq]
    exact (orderly_mul _ _).neg.zero_mem (hasZeroEnd_of_double hdouble)
  · by_cases hl : l = 0
    · subst hl
      have hmem := hzero 0
      rw [get_derivative_zero_right hq] at hmem
      rw [get_derivative_zero_left hq, sub_eq_add]
      exact mem_add_of_zero_mem hmem hmem
    · rw [get_derivative_comm hl hq hlq]
      exact hzero l

/-- **A NaN of the point shows in a component of the convolution** unless it meets a zero there: in
component `k` coordinate `j` meets the ones at `|k - j|` and at `k + j`. -/
theorem convolution_isNaN {j m : Fin (p.order + 1)} (hj : ¬IsNumber (x.get j))
    (hm : ¬(x.get m == 0) = true) (k : Fin (p.order + 1))
    (h : m = distance k j ∨ m.val = k.val + j.val) :
    ((convolution (x.map point)).get k).IsNaN := by
  have hprod : ∀ {a b : Fin (p.order + 1)}, a = j → b = m →
      (point (x.get a) * point (x.get b)).IsNaN := by
    rintro _ _ rfl rfl
    exact isNaN_mul (.inl ⟨isNaN_point hj, fun h0 => hm (beq_zero_of_point h0)⟩)
  have hmode : ∃ t : Fin (2 * p.order + 1 - k), firstMode k t = j ∧ secondMode k t = m := by
    have hjle := Nat.le_of_lt_succ j.isLt
    have hkle := Nat.le_of_lt_succ k.isLt
    have hmle := Nat.le_of_lt_succ m.isLt
    rcases h with h | h
    · have hval : m.val = ((k : Int) - j).natAbs := congrArg Fin.val h
      refine ⟨⟨p.order + j - k, by omega⟩, Fin.ext ?_, Fin.ext ?_⟩
      · simp only [firstMode]
        omega
      · simp only [secondMode]
        omega
    · refine ⟨⟨p.order - j - k, by omega⟩, Fin.ext ?_, Fin.ext ?_⟩
      · simp only [firstMode]
        omega
      · simp only [secondMode]
        omega
  obtain ⟨t, hfirst, hsecond⟩ := hmode
  rw [convolution, get_ofFn]
  refine isNaN_leftSum ⟨t, ?_⟩
  rw [get_map, get_map]
  exact hprod hfirst hsecond

/-- A component of the field is NaN when one of its two terms is. -/
theorem value_isNaN {k : Fin (p.order + 1)} (h : (p.linear k * point (x.get k)).IsNaN ∨
    (p.coefficient * (convolution (x.map point)).get k).IsNaN) :
    ((p.value (x.map point)).get k).IsNaN := by
  have hget : (p.value (x.map point)).get k
      = p.linear k * point (x.get k) - p.coefficient * (convolution (x.map point)).get k := by
    simp only [value, get_ofFn, get_map]
  rw [hget]
  exact IsNaN.sub h

/-- **With a zero end of the coefficient column zero of the derivative holds zero.** -/
theorem zero_mem_column_of_zeroEnd (hp : p.coefficient.Orderly) (h0 : p.coefficient.HasZeroEnd)
    (l : Fin (p.order + 1)) : (0 : ℝ) ∈ (p.derivative (x.map point)).get l 0 := by
  have hmem := hp.zero_mem h0
  have hslope : ∀ m, (0 : ℝ) ∈ p.slope x m := fun m =>
    zero_mem_mul_of_zeroEnd (.inl (two_isWeight.mul_hasZeroEnd (le_of_mem hmem) h0))
  by_cases hl : l = 0
  · subst hl
    have hlinear : (0 : ℝ) ∈ p.linear (0 : Fin (p.order + 1)).val := by
      have hsquare := count_mem (n := 0 * 0) (by norm_num)
      rw [zero_mul, Nat.cast_zero] at hsquare
      exact mem_sub_of_zero_mem hmem hsquare
    rw [get_derivative]
    dsimp only
    rw [if_pos rfl, dif_neg fun h => absurd h.1 (Nat.lt_irrefl 0)]
    exact mem_add_of_zero_mem (zero_mem_neg (hslope _)) hlinear
  · rw [get_derivative_zero_right hl]
    exact zero_mem_neg (hslope l)

/-- **A NaN of the point makes a component of the field NaN or leaves its row of the derivative around
zero**, in the column of the NaN. -/
theorem zero_mem_column_of_nan (hp : p.coefficient.Orderly) (h0 : ¬p.coefficient.HasZeroEnd)
    {j : Fin (p.order + 1)} (hj : ¬IsNumber (x.get j)) {l : Fin (p.order + 1)}
    (hl : ¬((p.value (x.map point)).get l).IsNaN) :
    (0 : ℝ) ∈ (p.derivative (x.map point)).get l j := by
  have hmeets : ∀ m, m = distance l j ∨ m.val = l.val + j.val → (0 : ℝ) ∈ p.slope x m := by
    intro m hm
    have hzero : (x.get m == 0) = true := by
      by_contra hne
      exact hl (value_isNaN (.inr (isNaN_mul (.inr ⟨h0, convolution_isNaN hj hne l hm⟩))))
    exact zero_mem_mul_of_zeroEnd (.inr (hasZeroEnd_point hzero))
  have hdirect : (0 : ℝ) ∈ -p.slope x (distance l j) := zero_mem_neg (hmeets _ (.inl rfl))
  have hreflected : ∀ h : l.val + j.val ≤ p.order,
      (0 : ℝ) ∈ -p.slope x (distance l j) - p.slope x ⟨l + j, by omega⟩ :=
    fun h => mem_sub_of_zero_mem hdirect (hmeets _ (.inr rfl))
  have hlinear : l = j → (0 : ℝ) ∈ p.linear l := by
    rintro rfl
    refine (hp.sub (orderly_point _)).zero_mem (by_contra fun hne => hl (value_isNaN (.inl ?_)))
    exact isNaN_mul (.inr ⟨hne, isNaN_point hj⟩)
  rw [get_derivative]
  dsimp only
  split_ifs with heq hle hle
  · exact mem_add_of_zero_mem (hreflected hle.2) (hlinear heq)
  · exact mem_add_of_zero_mem hdirect (hlinear heq)
  · exact hreflected hle.2
  · exact hdirect

end Fisher

end CertifiedZeros
