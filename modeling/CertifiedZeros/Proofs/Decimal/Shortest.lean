import CertifiedZeros.Decimal.Shortest
import CertifiedZeros.Proofs.Binary64.Word

/-! # The shortest numeral reads back

A rounding interval is worked with in whole numbers. Here it is a set of reals, and the numeral that
is found for a float is shown to lie in the interval of that float:

* **`readsBack_iff`** — the test in whole numbers is membership in the set of reals.
* **`exists_onGrid`** — a grid that is finer than the interval is wide has a hit.
* **`shortest_spec`** — seventeen digits are enough, so the search ends with a hit.
* **`eq_of_mem_ofWord`** — the intervals of different floats are disjoint: neighbours share an end,
  but only one of them includes it.
* **`shortest_inj`** — so different floats have numerals of different value. -/

namespace CertifiedZeros

/-- **The number that a numeral stands for.** -/
noncomputable def Decimal.value (d : Decimal) : ℝ := d.digits * (10 : ℝ) ^ d.exponent

namespace RoundingInterval

open Binary64

variable {v : RoundingInterval} {k : ℤ} {c : ℕ} {r : ℝ}

/-! ## The interval as a set of reals -/

/-- **The reals of a rounding interval.** -/
noncomputable def reals (v : RoundingInterval) : Set ℝ :=
  if v.endsIncluded then Set.Icc (v.low * (2 : ℝ) ^ v.exponent) (v.high * (2 : ℝ) ^ v.exponent)
  else Set.Ioo (v.low * (2 : ℝ) ^ v.exponent) (v.high * (2 : ℝ) ^ v.exponent)

theorem mem_reals_iff : r ∈ v.reals ↔
    (v.low * (2 : ℝ) ^ v.exponent ≤ r ∧ r ≤ v.high * (2 : ℝ) ^ v.exponent) ∧
      (v.endsIncluded = false →
        v.low * (2 : ℝ) ^ v.exponent < r ∧ r < v.high * (2 : ℝ) ^ v.exponent) := by
  unfold reals
  split_ifs with h
  · simp [h]
  · simp only [h, Set.mem_Ioo, forall_const]
    exact ⟨fun h => ⟨⟨h.1.le, h.2.le⟩, h⟩, fun h => h.2⟩

/-- By how much the whole numbers that are compared exceed the reals that they stand for. -/
def measure (v : RoundingInterval) (k : ℤ) : ℕ := 10 ^ (-k).toNat * 2 ^ (-v.exponent).toNat

theorem measure_pos (v : RoundingInterval) (k : ℤ) : 0 < (v.measure k : ℝ) := by
  unfold measure
  positivity

theorem pow_toNat_eq {b : ℝ} (hb : b ≠ 0) (k : ℤ) : b ^ k.toNat = b ^ k * b ^ (-k).toNat := by
  rw [← zpow_natCast, ← zpow_natCast, ← zpow_add₀ hb]
  congr 1
  omega

theorem cast_unit (v : RoundingInterval) (k : ℤ) :
    (v.unit k : ℝ) = (10 : ℝ) ^ k * v.measure k := by
  rw [unit, Nat.shiftLeft_eq, measure, Nat.pow_eq]
  push_cast
  rw [pow_toNat_eq (by norm_num) k]
  ring

theorem cast_scale (v : RoundingInterval) (k : ℤ) :
    (v.scale k : ℝ) = (2 : ℝ) ^ v.exponent * v.measure k := by
  rw [scale, Nat.shiftLeft_eq, measure, Nat.pow_eq]
  push_cast
  rw [pow_toNat_eq two_ne_zero v.exponent]
  ring

/-- **Whole numbers are compared as the reals that they stand for.** -/
theorem measured_le_iff (a c : ℕ) :
    (a * v.scale k ≤ c * v.unit k ↔ a * (2 : ℝ) ^ v.exponent ≤ c * (10 : ℝ) ^ k) ∧
      (c * v.unit k ≤ a * v.scale k ↔ c * (10 : ℝ) ^ k ≤ a * (2 : ℝ) ^ v.exponent) := by
  constructor <;>
    rw [← Nat.cast_le (α := ℝ), Nat.cast_mul, Nat.cast_mul, cast_unit, cast_scale, ← mul_assoc,
      ← mul_assoc, mul_le_mul_iff_left₀ (measure_pos v k)]

/-- **Reading back is membership.** -/
theorem readsBack_iff : v.readsBack k c = true ↔ c * (10 : ℝ) ^ k ∈ v.reals := by
  unfold readsBack reals
  split_ifs
  · simp only [Bool.and_eq_true, decide_eq_true_eq, Set.mem_Icc, measured_le_iff]
  · simp only [Bool.and_eq_true, decide_eq_true_eq, Set.mem_Ioo, ← not_le, measured_le_iff]

/-! ## Hits -/

/-- **A hit reads back.** -/
theorem mem_of_onGrid? (h : v.onGrid? k = some c) : c * (10 : ℝ) ^ k ∈ v.reals := by
  rw [← readsBack_iff]
  simp only [onGrid?] at h
  split at h
  · split_ifs at h <;> rwa [← Option.some.inj h]
  · rwa [← Option.some.inj h]
  · rwa [← Option.some.inj h]
  · exact absurd h (by simp)

/-- Strictly between the ends everything reads back. -/
theorem readsBack_of_lt (hlow : v.low * v.scale k < c * v.unit k)
    (hhigh : c * v.unit k < v.high * v.scale k) : v.readsBack k c = true := by
  unfold readsBack
  split_ifs
  · simp [hlow.le, hhigh.le]
  · simp [hlow, hhigh]

/-- **A grid finer than the interval has a hit**: the two multiples around the float cannot both lie
outside. -/
theorem exists_onGrid (hlow : v.low < v.middle) (hhigh : v.middle < v.high)
    (hk : (10 : ℝ) ^ k < (v.high - v.low) * (2 : ℝ) ^ v.exponent) : ∃ c, v.onGrid? k = some c := by
  by_contra hnone
  have hunit : 0 < v.unit k := by
    rw [← Nat.cast_pos (α := ℝ), cast_unit]
    exact mul_pos (by positivity) (measure_pos v k)
  have hscale : 0 < v.scale k := by
    rw [← Nat.cast_pos (α := ℝ), cast_scale]
    exact mul_pos (by positivity) (measure_pos v k)
  obtain ⟨hmiss, hmiss'⟩ : v.readsBack k (v.middle * v.scale k / v.unit k) ≠ true ∧
      v.readsBack k (v.middle * v.scale k / v.unit k + 1) ≠ true := by
    simp only [onGrid?] at hnone
    split at hnone <;> simp_all
  have hfloor : v.middle * v.scale k / v.unit k * v.unit k ≤ v.middle * v.scale k :=
    Nat.div_mul_le_self ..
  have hceil : v.middle * v.scale k < (v.middle * v.scale k / v.unit k + 1) * v.unit k :=
    Nat.lt_mul_of_div_lt (Nat.lt_succ_self _) hunit
  have hlow' := Nat.mul_lt_mul_of_pos_right hlow hscale
  have hhigh' := Nat.mul_lt_mul_of_pos_right hhigh hscale
  have hbelow : v.middle * v.scale k / v.unit k * v.unit k ≤ v.low * v.scale k :=
    not_lt.mp fun h => hmiss (readsBack_of_lt h (hfloor.trans_lt hhigh'))
  have habove : v.high * v.scale k ≤ (v.middle * v.scale k / v.unit k + 1) * v.unit k :=
    not_lt.mp fun h => hmiss' (readsBack_of_lt (hlow'.trans hceil) h)
  -- with both multiples outside, the interval fits between them
  have hwide : v.high * v.scale k ≤ v.low * v.scale k + v.unit k := by
    rw [Nat.succ_mul] at habove
    omega
  have hwide' : (v.high * v.scale k : ℝ) ≤ v.low * v.scale k + v.unit k := by exact_mod_cast hwide
  rw [cast_unit, cast_scale] at hwide'
  nlinarith [mul_lt_mul_of_pos_right hk (measure_pos v k)]

/-! ## The leading digit -/

theorem lt_pow_digitCount (n : ℕ) : n < 10 ^ digitCount n := by
  induction n using digitCount.induct with
  | case1 => simp
  | case2 n hn ih =>
    rw [digitCount, if_neg hn, pow_succ]
    omega

theorem pow_digitCount_le {n : ℕ} (h : n ≠ 0) : 10 ^ digitCount n ≤ 10 * n := by
  induction n using digitCount.induct with
  | case1 => exact absurd rfl h
  | case2 n hn ih =>
    rw [digitCount, if_neg hn, pow_succ]
    by_cases h0 : n / 10 = 0
    · rw [h0, digitCount, if_pos rfl]
      omega
    · have := ih h0
      omega

/-- **The leading digit is not above the float.** -/
theorem zpow_leadingExponent_le (h : 0 < v.middle) :
    (10 : ℝ) ^ v.leadingExponent ≤ v.middle * (2 : ℝ) ^ v.exponent := by
  have hnum : 0 < v.middle <<< v.exponent.toNat := by
    rw [Nat.shiftLeft_eq]
    positivity
  have hden : 0 < 1 <<< (-v.exponent).toNat := by
    rw [Nat.shiftLeft_eq]
    positivity
  have hvalue : v.middle * (2 : ℝ) ^ v.exponent
      = ((v.middle <<< v.exponent.toNat : ℕ) : ℝ) / ((1 <<< (-v.exponent).toNat : ℕ) : ℝ) := by
    rw [eq_div_iff (by exact_mod_cast hden.ne'), Nat.shiftLeft_eq, Nat.shiftLeft_eq]
    push_cast
    rw [pow_toNat_eq two_ne_zero v.exponent]
    ring
  rw [hvalue]
  simp only [leadingExponent]
  generalize v.middle <<< v.exponent.toNat = num at hnum ⊢
  generalize 1 <<< (-v.exponent).toNat = den at hden ⊢
  split_ifs with hle
  · have hquotient : num / den ≠ 0 := (Nat.div_pos hle hden).ne'
    have hpow : (10 : ℝ) ^ digitCount (num / den) ≤ 10 * (num / den : ℕ) := by
      exact_mod_cast pow_digitCount_le hquotient
    have hfloor : ((num / den : ℕ) : ℝ) ≤ num / den := Nat.cast_div_le
    rw [zpow_sub_one₀ (by norm_num), zpow_natCast]
    linarith
  · have hceil : den - 1 < 10 ^ digitCount ((den - 1) / num) * num :=
      (Nat.div_lt_iff_lt_mul hnum).mp (lt_pow_digitCount _)
    have hden' : (den : ℝ) ≤ (10 : ℝ) ^ digitCount ((den - 1) / num) * num := by
      exact_mod_cast (by omega : den ≤ 10 ^ digitCount ((den - 1) / num) * num)
    rw [zpow_neg, zpow_natCast, le_div_iff₀ (by exact_mod_cast hden), inv_mul_le_iff₀ (by positivity)]
    exact hden'

/-! ## The numeral of a float -/

section Parts

variable {m : ℕ} {e : ℤ}

/-- How far the lower end lies below the float, in quarters of the last place. -/
theorem low_ofParts (hm : 0 < m) :
    (m = 2 ^ 52 ∧ e ≠ -1074) ∧ (ofParts m e).low + 1 = 4 * m ∨
      ¬(m = 2 ^ 52 ∧ e ≠ -1074) ∧ (ofParts m e).low + 2 = 4 * m := by
  by_cases h : m = leastNormalSignificand ∧ e ≠ -1074
  · refine .inl ⟨h, ?_⟩
    rw [ofParts, if_pos h]
    exact Nat.sub_add_cancel (by omega)
  · refine .inr ⟨h, ?_⟩
    rw [ofParts, if_neg h]
    exact Nat.sub_add_cancel (by omega)

theorem middle_ofParts : (ofParts m e).middle = 4 * m := rfl

theorem high_ofParts : (ofParts m e).high = 4 * m + 2 := rfl

theorem exponent_ofParts : (ofParts m e).exponent = e - 2 := rfl

theorem endsIncluded_ofParts : (ofParts m e).endsIncluded = decide (m % 2 = 0) := rfl

/-- **The float lies inside its interval.** -/
theorem ofParts_lt (hm : 0 < m) :
    (ofParts m e).low < (ofParts m e).middle ∧ (ofParts m e).middle < (ofParts m e).high := by
  rw [middle_ofParts, high_ofParts]
  rcases low_ofParts (e := e) hm with ⟨-, h⟩ | ⟨-, h⟩ <;> omega

/-- Seventeen digits are finer than the interval: the float has fewer than `10 ^ 16` times as many
quarters of its last place as the interval is wide. -/
theorem middle_lt_width (hm : 0 < m) (hlt : m < 2 ^ 53) :
    ((ofParts m e).middle : ℝ) < 10 ^ 16 * ((ofParts m e).high - (ofParts m e).low) := by
  have hwidth : (ofParts m e).middle + 10 ^ 16 * (ofParts m e).low
      < 10 ^ 16 * (ofParts m e).high := by
    rw [middle_ofParts, high_ofParts]
    rcases low_ofParts (e := e) hm with ⟨⟨hleast, -⟩, h⟩ | ⟨-, h⟩ <;> omega
  have hwidth' : ((ofParts m e).middle : ℝ) + 10 ^ 16 * (ofParts m e).low
      < 10 ^ 16 * (ofParts m e).high := by exact_mod_cast hwidth
  linarith

/-- **The shortest numeral reads back**, and is not zero. -/
theorem shortest_spec (hm : 0 < m) (hlt : m < 2 ^ 53) :
    (ofParts m e).shortest.value ∈ (ofParts m e).reals ∧ 0 < (ofParts m e).shortest.digits := by
  obtain ⟨hlow, hhigh⟩ := ofParts_lt (e := e) hm
  have hlead := zpow_leadingExponent_le ((Nat.zero_le _).trans_lt hlow)
  have hwidth := middle_lt_width (e := e) hm hlt
  have hpos : 0 < (ofParts m e).low := by
    rcases low_ofParts (e := e) hm with ⟨-, h⟩ | ⟨-, h⟩ <;> omega
  generalize ofParts m e = v at *
  -- the grid of seventeen digits has a hit, so the search has one
  obtain ⟨c, hc⟩ : ∃ c, v.onGrid? (v.leadingExponent - (16 : ℕ)) = some c := by
    refine exists_onGrid hlow hhigh ?_
    have hunit : (0 : ℝ) < (2 : ℝ) ^ v.exponent := by positivity
    rw [zpow_sub₀ (by norm_num), zpow_natCast, div_lt_iff₀ (by positivity)]
    nlinarith [mul_lt_mul_of_pos_right hwidth hunit]
  obtain ⟨d, hd⟩ : ∃ d, (List.range 17).findSome? (fun places : ℕ =>
      (v.onGrid? (v.leadingExponent - places)).map fun digits =>
        (⟨digits, v.leadingExponent - places⟩ : Decimal)) = some d := by
    rw [← Option.isSome_iff_exists, List.findSome?_isSome_iff]
    exact ⟨16, List.mem_range.mpr (by norm_num), by rw [hc]; rfl⟩
  obtain ⟨places, -, hplaces⟩ := List.exists_of_findSome?_eq_some hd
  obtain ⟨digits, hdigits, rfl⟩ := Option.map_eq_some_iff.mp hplaces
  have hmem := mem_of_onGrid? hdigits
  have hshortest : v.shortest = ⟨digits, v.leadingExponent - places⟩ := by
    simp only [shortest]
    rw [hd, Option.getD_some]
  rw [hshortest]
  refine ⟨hmem, Nat.pos_of_ne_zero ?_⟩
  rintro rfl
  have hge := (mem_reals_iff.mp hmem).1.1
  rw [Nat.cast_zero, zero_mul] at hge
  exact absurd hge (not_le.mpr (by positivity))

end Parts

/-! ## Different floats -/

/-- **The rounding interval of a word.** -/
def ofWord (w : ℕ) : RoundingInterval := ofParts (wordSignificand w) (wordExponent w)

/-- **Where a word and the next one meet.** -/
noncomputable def boundary (w : ℕ) : ℝ := (magnitude w + magnitude (w + 1)) / 2

theorem boundary_strictMono : StrictMono boundary := by
  intro a b h
  have hlt := magnitude_strictMono h
  have hlt' := magnitude_strictMono (Nat.succ_lt_succ h)
  unfold boundary
  linarith

theorem quarter_zpow (e : ℤ) : (2 : ℝ) ^ (e - 2) = (2 : ℝ) ^ e / 4 := by
  rw [zpow_sub₀ two_ne_zero]
  norm_num

theorem high_ofWord (w : ℕ) : (ofWord w).high * (2 : ℝ) ^ (ofWord w).exponent = boundary w := by
  rw [boundary, magnitude_succ, magnitude, ofWord, high_ofParts, exponent_ofParts, quarter_zpow]
  push_cast
  ring

/-- The interval of the next word begins where that of a word ends: the gap below the next word is
the gap above the word itself. -/
theorem low_ofWord_succ (w : ℕ) :
    (ofWord (w + 1)).low * (2 : ℝ) ^ (ofWord (w + 1)).exponent = boundary w := by
  have hgap := magnitude_succ w
  have hmag : magnitude (w + 1)
      = wordSignificand (w + 1) * (2 : ℝ) ^ wordExponent (w + 1) := rfl
  rw [boundary, ofWord, exponent_ofParts, quarter_zpow]
  rcases low_ofParts (e := wordExponent (w + 1)) (wordSignificand_pos w.succ_ne_zero) with
    ⟨hleast, hlow⟩ | ⟨hleast, hlow⟩
  -- below the least significand of an exponent the gap is half as wide
  · have hexp : wordExponent w = wordExponent (w + 1) - 1 := by
      unfold wordSignificand wordExponent at *
      split_ifs at * <;> omega
    have hlow' : ((ofParts (wordSignificand (w + 1)) (wordExponent (w + 1))).low : ℝ) + 1
        = 4 * wordSignificand (w + 1) := by exact_mod_cast hlow
    rw [hexp, zpow_sub_one₀ two_ne_zero] at hgap
    rw [eq_sub_of_add_eq hlow']
    linarith
  · have hexp : wordExponent w = wordExponent (w + 1) := by
      unfold wordSignificand wordExponent at *
      split_ifs at * <;> omega
    have hlow' : ((ofParts (wordSignificand (w + 1)) (wordExponent (w + 1))).low : ℝ) + 2
        = 4 * wordSignificand (w + 1) := by exact_mod_cast hlow
    rw [hexp] at hgap
    rw [eq_sub_of_add_eq hlow']
    linarith

/-- Neighbouring words do not both include their common end: one of them is odd. -/
theorem not_endsIncluded_succ (w : ℕ) :
    (ofWord w).endsIncluded = false ∨ (ofWord (w + 1)).endsIncluded = false := by
  rw [ofWord, ofWord, endsIncluded_ofParts, endsIncluded_ofParts, decide_eq_false_iff_not,
    decide_eq_false_iff_not]
  unfold wordSignificand
  split_ifs <;> omega

theorem not_mem_of_lt {w w' : ℕ} (h : w < w') (hr : r ∈ (ofWord w).reals) :
    r ∉ (ofWord w').reals := by
  intro hr'
  obtain ⟨u, rfl⟩ : ∃ u, w' = u + 1 := ⟨w' - 1, by omega⟩
  rw [mem_reals_iff, high_ofWord] at hr
  rw [mem_reals_iff, low_ofWord_succ] at hr'
  rcases (Nat.lt_succ_iff.mp h).eq_or_lt with rfl | hlt
  · rcases not_endsIncluded_succ w with hodd | hodd
    · exact absurd ((hr.2 hodd).2.trans_le hr'.1.1) (lt_irrefl _)
    · exact absurd ((hr'.2 hodd).1.trans_le hr.1.2) (lt_irrefl _)
  · exact absurd ((boundary_strictMono hlt).trans_le (hr'.1.1.trans hr.1.2)) (lt_irrefl _)

/-- **The rounding intervals of different words are disjoint.** -/
theorem eq_of_mem_ofWord {w w' : ℕ} (hr : r ∈ (ofWord w).reals) (hr' : r ∈ (ofWord w').reals) :
    w = w' := by
  rcases lt_trichotomy w w' with h | h | h
  · exact absurd hr' (not_mem_of_lt h hr)
  · exact h
  · exact absurd hr (not_mem_of_lt h hr')

/-- **The numeral of a positive word reads back**, and is not zero. -/
theorem shortest_ofWord_spec {w : ℕ} (hw : w ≠ 0) :
    (ofWord w).shortest.value ∈ (ofWord w).reals ∧ 0 < (ofWord w).shortest.digits := by
  refine shortest_spec (wordSignificand_pos hw) ?_
  unfold wordSignificand
  split_ifs <;> omega

/-- **Words whose numerals have one value are equal.** -/
theorem shortest_inj {w w' : ℕ} (hw : w ≠ 0) (hw' : w' ≠ 0)
    (h : (ofWord w).shortest.value = (ofWord w').shortest.value) : w = w' :=
  eq_of_mem_ofWord (shortest_ofWord_spec hw).1 (h ▸ (shortest_ofWord_spec hw').1)

end RoundingInterval

end CertifiedZeros
