import CertifiedZeros.Proofs.Binary64.Representable

/-! # Rounding to nearest

Rounding a real number to the format takes the nearest multiple of its last place, a tie going to
the even significand. Only three facts about it carry the proofs about floats:

* **`abs_sub_rounded_le_of_representable`** — no representable number is closer to `x` than
  `rounded x` is.
* **`rounded_mono`** — rounding is monotone; it follows from the first fact.
* **`rounded_eq`** — a representable number is rounded to itself, so that rounding never carries a
  number across a representable one (`le_rounded`, `rounded_le`).

**`clamp`** adds the largest exponent: a rounded number beyond the finite floats is infinite, and
**`clamp_rounded_eq_top_iff`** says from where on. -/

namespace CertifiedZeros.Binary64

/-! ## The nearest integer -/

/-- **The integer nearest to `x`**, an even one at a tie. -/
noncomputable def nearestInteger (x : ℝ) : ℤ :=
  if x - ⌊x⌋ < 1 / 2 then ⌊x⌋
  else if 1 / 2 < x - ⌊x⌋ then ⌊x⌋ + 1
  else if Even ⌊x⌋ then ⌊x⌋
  else ⌊x⌋ + 1

theorem abs_sub_nearestInteger_le (x : ℝ) : |x - nearestInteger x| ≤ 1 / 2 := by
  have h0 := Int.floor_le x
  have h1 := Int.lt_floor_add_one x
  unfold nearestInteger
  split_ifs <;> rw [abs_le] <;> push_cast <;> constructor <;> linarith

/-- **An integer within half a unit is the nearest one**, if it is even whenever the distance is
exactly a half. -/
theorem nearestInteger_eq {x : ℝ} {n : ℤ} (h : |x - n| ≤ 1 / 2)
    (tie : |x - n| = 1 / 2 → Even n) : nearestInteger x = n := by
  obtain ⟨hlo, hhi⟩ := abs_le.mp h
  rcases lt_or_ge x n with hx | hx
  · have hfloor : ⌊x⌋ = n - 1 := by
      rw [Int.floor_eq_iff]
      push_cast
      constructor <;> linarith
    have hcast : ((⌊x⌋ : ℤ) : ℝ) = n - 1 := by rw [hfloor]; push_cast; ring
    unfold nearestInteger
    rw [if_neg (by rw [hcast]; linarith)]
    rcases hlo.lt_or_eq with hlt | heq
    · rw [if_pos (by rw [hcast]; linarith), hfloor]
      omega
    · have heven := tie (by rw [← heq, abs_neg, abs_of_pos (by norm_num)])
      rw [if_neg (by rw [hcast]; linarith), if_neg, hfloor]
      · omega
      · rw [hfloor, Int.not_even_iff_odd]
        exact heven.sub_odd odd_one
  · have hfloor : ⌊x⌋ = n := by
      rw [Int.floor_eq_iff]
      constructor <;> linarith
    unfold nearestInteger
    rw [hfloor]
    rcases hhi.lt_or_eq with hlt | heq
    · rw [if_pos hlt]
    · have heven := tie (by rw [heq, abs_of_pos (by norm_num)])
      rw [if_neg (by linarith), if_neg (by linarith), if_pos heven]

/-- At a tie the nearest integer is even. -/
theorem even_nearestInteger {x : ℝ} (h : |x - nearestInteger x| = 1 / 2) :
    Even (nearestInteger x) := by
  have h0 := Int.floor_le x
  have h1 := Int.lt_floor_add_one x
  unfold nearestInteger at h ⊢
  split_ifs at h ⊢ with hlt hgt heven
  · rw [abs_of_nonneg (by linarith)] at h
    linarith
  · rw [abs_of_nonpos (by push_cast; linarith)] at h
    push_cast at h
    linarith
  · exact heven
  · exact Int.even_add_one.mpr heven

@[simp] theorem nearestInteger_intCast (n : ℤ) : nearestInteger n = n :=
  nearestInteger_eq (by simp) (by norm_num)

/-- Rounding to integers is symmetric about zero. -/
theorem nearestInteger_neg (x : ℝ) : nearestInteger (-x) = -nearestInteger x := by
  have hdist : |-x - ((-nearestInteger x : ℤ) : ℝ)| = |x - nearestInteger x| := by
    rw [← abs_neg]
    congr 1
    push_cast
    ring
  refine nearestInteger_eq ?_ fun h => ?_
  · rw [hdist]
    exact abs_sub_nearestInteger_le x
  · rw [hdist] at h
    exact (even_nearestInteger h).neg

/-- No integer is closer to `x` than the nearest one. -/
theorem abs_sub_nearestInteger_le_abs_sub (x : ℝ) (n : ℤ) :
    |x - nearestInteger x| ≤ |x - n| := by
  have hhalf := abs_sub_nearestInteger_le x
  by_cases h : nearestInteger x = n
  · rw [h]
  · -- two different integers are a unit apart, so one of them is half a unit away
    have hone : (1 : ℝ) ≤ |(nearestInteger x : ℝ) - n| := by
      exact_mod_cast Int.one_le_abs (sub_ne_zero.mpr h)
    have htri := abs_sub_le (nearestInteger x : ℝ) x n
    rw [abs_sub_comm (nearestInteger x : ℝ) x] at htri
    linarith

/-! ## Rounding to the format -/

/-- **The representable number nearest to `x`**, a tie going to the even significand. -/
noncomputable def rounded (x : ℝ) : ℝ :=
  nearestInteger (x / (2 : ℝ) ^ unitExponent x) * (2 : ℝ) ^ unitExponent x

/-- The error of rounding, in units of the last place. -/
theorem abs_sub_rounded_eq (x : ℝ) :
    |x - rounded x| = |x / (2 : ℝ) ^ unitExponent x
      - nearestInteger (x / (2 : ℝ) ^ unitExponent x)| * (2 : ℝ) ^ unitExponent x := by
  have hpos := zpow_two_pos (unitExponent x)
  rw [← abs_of_pos hpos, ← abs_mul, abs_of_pos hpos, sub_mul, div_mul_cancel₀ _ hpos.ne', rounded]

/-- **Rounding errs by at most half a unit in the last place.** -/
theorem abs_sub_rounded_le (x : ℝ) : |x - rounded x| ≤ (2 : ℝ) ^ unitExponent x / 2 := by
  have hpos := zpow_two_pos (unitExponent x)
  rw [abs_sub_rounded_eq]
  nlinarith [abs_sub_nearestInteger_le (x / (2 : ℝ) ^ unitExponent x)]

theorem rounded_neg (x : ℝ) : rounded (-x) = -rounded x := by
  unfold rounded
  rw [unitExponent_neg, neg_div, nearestInteger_neg]
  push_cast
  ring

/-- The rounded number is a multiple of the last place of the exact one. -/
theorem onGrid_rounded (x : ℝ) : OnGrid (unitExponent x) (rounded x) := ⟨_, rfl⟩

/-- No multiple of the last place is closer. -/
theorem abs_sub_rounded_le_of_onGrid {x g : ℝ} (hg : OnGrid (unitExponent x) g) :
    |x - rounded x| ≤ |x - g| := by
  obtain ⟨n, rfl⟩ := hg
  have hpos := zpow_two_pos (unitExponent x)
  have hother : |x - n * (2 : ℝ) ^ unitExponent x|
      = |x / (2 : ℝ) ^ unitExponent x - n| * (2 : ℝ) ^ unitExponent x := by
    rw [← abs_of_pos hpos, ← abs_mul, abs_of_pos hpos, sub_mul, div_mul_cancel₀ _ hpos.ne']
  rw [abs_sub_rounded_eq, hother]
  exact mul_le_mul_of_nonneg_right (abs_sub_nearestInteger_le_abs_sub _ n) hpos.le

theorem rounded_zero : rounded 0 = 0 := by
  have h := nearestInteger_intCast 0
  rw [Int.cast_zero] at h
  simp [rounded, h]

/-- **No representable number is closer to `x` than `rounded x`.** One that is off the grid of `x`
is so small that a power of two lies between it and `x`. -/
theorem abs_sub_rounded_le_of_representable {x g : ℝ} (hg : Representable g) :
    |x - rounded x| ≤ |x - g| := by
  rcases le_or_gt (unitExponent x) (unitExponent g) with hle | hlt
  · exact abs_sub_rounded_le_of_onGrid (hg.onGrid hle)
  · have hnormal := zpow_le_abs_of_normal (x := x) (by have := le_unitExponent g; omega)
    have hsmall : |g| < (2 : ℝ) ^ (unitExponent x + 52) :=
      lt_of_lt_of_le (abs_lt_zpow g) (zpow_two_le (by omega))
    have hpow : OnGrid (unitExponent x) ((2 : ℝ) ^ (unitExponent x + 52)) :=
      ⟨2 ^ 52, by
        rw [show unitExponent x + 52 = unitExponent x + (52 : ℕ) by norm_num, zpow_two_add]
        norm_num⟩
    have hfar : |x| - |g| ≤ |x - g| := abs_sub_abs_le_abs_sub x g
    rcases abs_choice x with h | h <;> rw [h] at hnormal hfar
    · have hnear := abs_sub_rounded_le_of_onGrid (x := x) hpow
      rw [abs_of_nonneg (by linarith : 0 ≤ x - (2 : ℝ) ^ (unitExponent x + 52))] at hnear
      linarith
    · have hnear := abs_sub_rounded_le_of_onGrid (x := x) hpow.neg
      rw [abs_of_nonpos (by linarith : x - -(2 : ℝ) ^ (unitExponent x + 52) ≤ 0)] at hnear
      linarith

/-- **Rounding gives a representable number.** -/
theorem representable_rounded (x : ℝ) : Representable (rounded x) := by
  have hpos := zpow_two_pos (unitExponent x)
  refine representable_of_onGrid (le_unitExponent x) (onGrid_rounded x) ?_
  have hpow : (2 : ℝ) ^ (unitExponent x + 53) = 2 ^ 53 * (2 : ℝ) ^ unitExponent x := by
    exact_mod_cast zpow_two_add (unitExponent x) 53
  have hx : |x / (2 : ℝ) ^ unitExponent x| < 2 ^ 53 := by
    rw [abs_div, abs_of_pos hpos, div_lt_iff₀ hpos, ← hpow]
    exact abs_lt_zpow x
  have herr := abs_sub_nearestInteger_le (x / (2 : ℝ) ^ unitExponent x)
  have hint : |nearestInteger (x / (2 : ℝ) ^ unitExponent x)| ≤ 2 ^ 53 := by
    have htri := abs_sub_abs_le_abs_sub (nearestInteger (x / (2 : ℝ) ^ unitExponent x) : ℝ)
      (x / (2 : ℝ) ^ unitExponent x)
    rw [abs_sub_comm] at herr
    have : |(nearestInteger (x / (2 : ℝ) ^ unitExponent x) : ℝ)| < 2 ^ 53 + 1 := by linarith
    have : |nearestInteger (x / (2 : ℝ) ^ unitExponent x)| < 2 ^ 53 + 1 := by exact_mod_cast this
    omega
  rw [rounded, abs_mul, abs_of_pos hpos, hpow]
  exact mul_le_mul_of_nonneg_right (by exact_mod_cast hint) hpos.le

/-- **A representable number is rounded to itself.** -/
theorem rounded_eq {x : ℝ} (h : Representable x) : rounded x = x := by
  have hnear := abs_sub_rounded_le_of_representable (x := x) h
  rw [sub_self, abs_zero] at hnear
  linarith [abs_nonpos_iff.mp hnear]

/-- **Rounding is monotone.** Of two numbers in order each is at least as close to its own rounded
number as to the other's, so these cannot be in the opposite order. -/
theorem rounded_mono {x y : ℝ} (h : x ≤ y) : rounded x ≤ rounded y := by
  rcases h.eq_or_lt with rfl | hlt
  · exact le_rfl
  by_contra hgt
  have hx := abs_sub_rounded_le_of_representable (x := x) (representable_rounded y)
  have hy := abs_sub_rounded_le_of_representable (x := y) (representable_rounded x)
  rw [not_le] at hgt
  have hx' := sq_le_sq.mpr hx
  have hy' := sq_le_sq.mpr hy
  nlinarith [mul_pos (sub_pos.mpr hlt) (sub_pos.mpr hgt)]

/-- Rounding does not carry a number below a representable one. -/
theorem le_rounded {g x : ℝ} (hg : Representable g) (h : g ≤ x) : g ≤ rounded x :=
  rounded_eq hg ▸ rounded_mono h

/-- Rounding does not carry a number above a representable one. -/
theorem rounded_le {g x : ℝ} (hg : Representable g) (h : x ≤ g) : rounded x ≤ g :=
  rounded_eq hg ▸ rounded_mono h

/-- A number that is rounded above a representable one lies above it. -/
theorem lt_of_lt_rounded {g x : ℝ} (hg : Representable g) (h : g < rounded x) : g < x :=
  not_le.mp fun hle => absurd (rounded_le hg hle) (not_le.mpr h)

/-- A number that is rounded below a representable one lies below it. -/
theorem lt_of_rounded_lt {g x : ℝ} (hg : Representable g) (h : rounded x < g) : x < g :=
  not_le.mp fun hle => absurd (le_rounded hg hle) (not_le.mpr h)

theorem abs_rounded (x : ℝ) : |rounded x| = rounded |x| := by
  rcases le_total 0 x with h | h
  · rw [abs_of_nonneg h, abs_of_nonneg (le_rounded representable_zero h)]
  · rw [abs_of_nonpos h, abs_of_nonpos (rounded_le representable_zero h), rounded_neg]

/-- **Rounding stays on a grid** of the format: if the grid is coarser than the last place, its
points are representable, and otherwise the rounded number is a multiple of the last place. -/
theorem OnGrid.rounded {e : ℤ} {x : ℝ} (he : -1074 ≤ e) (h : OnGrid e x) :
    OnGrid e (rounded x) := by
  rcases le_or_gt e (unitExponent x) with hle | hlt
  · exact (onGrid_rounded x).mono hle
  · rw [rounded_eq (representable_of_onGrid he h
      ((abs_lt_zpow x).le.trans (zpow_two_le (by omega))))]
    exact h

/-- **No multiple of the smallest positive number vanishes** in rounding; its sign remains. -/
theorem rounded_pos_iff {e : ℤ} {x : ℝ} (he : -1074 ≤ e) (h : OnGrid e x) :
    0 < rounded x ↔ 0 < x := by
  refine ⟨lt_of_lt_rounded representable_zero, fun hx => ?_⟩
  have hstep := h.zpow_le_abs hx.ne'
  rw [abs_of_pos hx] at hstep
  exact lt_of_lt_of_le (zpow_two_pos e) (le_rounded (representable_zpow he) hstep)

/-- **An even multiple of the last place** within half of it is the rounded number, also at a tie. -/
theorem rounded_eq_of_even {x : ℝ} {n : ℤ} (heven : Even n)
    (h : |x - n * (2 : ℝ) ^ unitExponent x| ≤ (2 : ℝ) ^ unitExponent x / 2) :
    rounded x = n * (2 : ℝ) ^ unitExponent x := by
  have hpos := zpow_two_pos (unitExponent x)
  have hscaled : |x / (2 : ℝ) ^ unitExponent x - n| ≤ 1 / 2 := by
    rw [← mul_le_mul_iff_left₀ hpos, ← abs_of_pos hpos, ← abs_mul, abs_of_pos hpos, sub_mul,
      div_mul_cancel₀ _ hpos.ne']
    linarith
  rw [rounded, nearestInteger_eq hscaled fun _ => heven]

/-! ## The largest exponent -/

/-- The least power of two beyond the finite floats. -/
noncomputable def limit : ℝ := (2 : ℝ) ^ (1024 : ℤ)

theorem limit_pos : 0 < limit := zpow_two_pos 1024

/-- The last place of the largest finite floats. -/
noncomputable def topUnit : ℝ := (2 : ℝ) ^ (971 : ℤ)

theorem topUnit_pos : 0 < topUnit := zpow_two_pos 971

theorem limit_eq : limit = 2 ^ 53 * topUnit := by
  rw [limit, topUnit, show (1024 : ℤ) = 971 + (53 : ℕ) by norm_num, zpow_two_add]

theorem representable_limit : Representable limit := representable_zpow (by norm_num)

theorem unitExponent_le_of_lt_limit {x : ℝ} (h : |x| < limit) : unitExponent x ≤ 971 :=
  unitExponent_le (by norm_num) (by rw [show (971 : ℤ) + 53 = 1024 by norm_num]; exact h)

/-- The largest finite float is representable. -/
theorem representable_limit_sub : Representable (limit - topUnit) := by
  have hpos := topUnit_pos
  have hlimit := limit_eq
  refine representable_of_onGrid (e := 971) (by norm_num) ⟨2 ^ 53 - 1, ?_⟩ ?_
  · rw [← topUnit, hlimit]
    push_cast
    ring
  · rw [show (971 : ℤ) + 53 = 1024 by norm_num, ← limit, abs_of_nonneg] <;> linarith

/-- **The largest finite float is one unit below the limit.** -/
theorem Representable.abs_le_of_lt_limit {x : ℝ} (hx : Representable x) (h : |x| < limit) :
    |x| ≤ limit - topUnit := by
  have hbound := hx.abs_le
  have hunit : (2 : ℝ) ^ unitExponent x ≤ topUnit := zpow_two_le (unitExponent_le_of_lt_limit h)
  have hpow : (2 : ℝ) ^ (unitExponent x + 53) = 2 ^ 53 * (2 : ℝ) ^ unitExponent x := by
    exact_mod_cast zpow_two_add (unitExponent x) 53
  rw [hpow] at hbound
  rw [limit_eq]
  linarith

/-- Finite numbers are rounded with an error of at most half the last place of the largest. -/
theorem abs_sub_rounded_le_topUnit {x : ℝ} (h : |rounded x| < limit) :
    |x - rounded x| ≤ topUnit / 2 := by
  have hx : |x| < limit := by
    rw [abs_rounded] at h
    exact lt_of_rounded_lt representable_limit h
  have hunit : (2 : ℝ) ^ unitExponent x ≤ topUnit := zpow_two_le (unitExponent_le_of_lt_limit hx)
  linarith [abs_sub_rounded_le x]

/-- **A rounded number as an extended real**: beyond the finite floats it is an infinity. -/
noncomputable def clamp (x : ℝ) : EReal :=
  if limit ≤ x then ⊤ else if x ≤ -limit then ⊥ else (x : EReal)

theorem clamp_of_lt {x : ℝ} (h : |x| < limit) : clamp x = (x : EReal) := by
  obtain ⟨hlo, hhi⟩ := abs_lt.mp h
  rw [clamp, if_neg (not_le.mpr hhi), if_neg (not_le.mpr hlo)]

theorem clamp_of_le {x : ℝ} (h : limit ≤ x) : clamp x = ⊤ := if_pos h

theorem clamp_neg (x : ℝ) : clamp (-x) = -clamp x := by
  have hpos := limit_pos
  unfold clamp
  rcases le_or_gt limit x with h | h
  · rw [if_neg (by linarith), if_pos (by linarith), if_pos h, EReal.neg_top]
  · rcases le_or_gt x (-limit) with h' | h'
    · rw [if_pos (by linarith), if_neg (by linarith), if_pos h', EReal.neg_bot]
    · rw [if_neg (by linarith), if_neg (by linarith), if_neg (by linarith), if_neg (by linarith),
        EReal.coe_neg]

theorem clamp_mono {x y : ℝ} (h : x ≤ y) : clamp x ≤ clamp y := by
  unfold clamp
  split_ifs <;> first | exact le_top | exact bot_le | skip
  all_goals first | linarith | exact_mod_cast h

/-- Where `clamp` gives a real number, it gives the number itself. -/
theorem clamp_eq_coe {x y : ℝ} (h : clamp x = (y : EReal)) : x = y := by
  unfold clamp at h
  split_ifs at h with h₁ h₂
  · exact absurd h.symm (EReal.coe_ne_top y)
  · exact absurd h.symm (EReal.coe_ne_bot y)
  · exact_mod_cast h

theorem clamp_pos_iff {x : ℝ} : 0 < clamp x ↔ 0 < x := by
  have hpos := limit_pos
  unfold clamp
  split_ifs with h₁ h₂
  · simpa using lt_of_lt_of_le hpos h₁
  · simpa using h₂.trans (by linarith)
  · exact_mod_cast Iff.rfl

theorem clamp_neg_iff {x : ℝ} : clamp x < 0 ↔ x < 0 := by
  rw [← EReal.neg_pos, ← clamp_neg, clamp_pos_iff, neg_pos]

/-- **A number that overflows** is at least half a unit above the largest finite float. -/
theorem le_of_clamp_rounded_eq_top {x : ℝ} (h : clamp (rounded x) = ⊤) :
    limit - topUnit / 2 ≤ x := by
  by_contra hlt
  rw [not_le] at hlt
  have hpos := topUnit_pos
  have hlimit := limit_eq
  have hfinite : rounded x < limit := by
    rcases le_or_gt x (limit - topUnit) with hle | hgt
    · linarith [rounded_le representable_limit_sub hle]
    · -- the largest finite float is closer than the limit
      have hnear := abs_sub_rounded_le_of_representable (x := x) representable_limit_sub
      rw [abs_of_pos (by linarith : 0 < x - (limit - topUnit))] at hnear
      linarith [(abs_le.mp hnear).1]
  rw [clamp, if_neg (not_le.mpr hfinite)] at h
  split_ifs at h
  · exact absurd h bot_ne_top
  · exact EReal.coe_ne_top _ h

/-- **From half a unit above the largest finite float on** everything overflows: the tie goes to the
limit, whose significand is even. -/
theorem clamp_rounded_eq_top_iff {x : ℝ} : clamp (rounded x) = ⊤ ↔ limit - topUnit / 2 ≤ x := by
  refine ⟨le_of_clamp_rounded_eq_top, fun h => clamp_of_le ?_⟩
  have hpos := topUnit_pos
  have hlimit := limit_eq
  have habs : |limit - topUnit / 2| = limit - topUnit / 2 := abs_of_nonneg (by linarith)
  have hunit : unitExponent (limit - topUnit / 2) = 971 := by
    refine le_antisymm (unitExponent_le_of_lt_limit ?_) (le_unitExponent_of_le ?_)
    · rw [habs]
      linarith
    · rw [habs, show (971 : ℤ) + 52 = 971 + (52 : ℕ) by norm_num, zpow_two_add, ← topUnit]
      linarith
  have htie := rounded_eq_of_even (x := limit - topUnit / 2) (n := 2 ^ 53) (by decide) (by
    rw [hunit, ← topUnit, abs_of_nonpos] <;> push_cast <;> linarith)
  have hlast : rounded (limit - topUnit / 2) = limit := by
    rw [htie, hunit, ← topUnit, hlimit]
    norm_num
  exact hlast ▸ rounded_mono h

theorem le_of_clamp_rounded_eq_bot {x : ℝ} (h : clamp (rounded x) = ⊥) :
    x ≤ -(limit - topUnit / 2) := by
  have hneg : clamp (rounded (-x)) = ⊤ := by rw [rounded_neg, clamp_neg, h, EReal.neg_bot]
  linarith [le_of_clamp_rounded_eq_top hneg]

end CertifiedZeros.Binary64
