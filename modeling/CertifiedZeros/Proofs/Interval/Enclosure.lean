import CertifiedZeros.Proofs.Interval.Division
import CertifiedZeros.Proofs.Interval.Power

/-! # When interval arithmetic encloses

The two statements that computations with intervals rest upon. Most operations enclose without a
condition. Sums and differences do unless a rounding error is lost against the largest float, and
quotients do unless a remainder underflows at an extreme corner; both conditions are exact, and
for both an input is given where they fail. -/

namespace CertifiedZeros.Interval

open Binary64

variable {X Y : Interval}

/-! ## All operations but division -/

/-- **What every operation but division encloses.** A sum is enclosed exactly when the error of
neither end is lost on its outer side, a difference likewise with the negated operand, and all
other operations always. -/
theorem operations_enclose (hX : X.lo ≤ X.hi) (hY : Y.lo ≤ Y.hi) :
    ((∀ x ∈ X, ∀ y ∈ Y, x + y ∈ X + Y)
        ↔ sumAbove X.lo Y.lo = false ∧ sumBelow X.hi Y.hi = false) ∧
      ((∀ x ∈ X, ∀ y ∈ Y, x - y ∈ X - Y)
        ↔ sumAbove X.lo (-Y.hi) = false ∧ sumBelow X.hi (-Y.lo) = false) ∧
      ∀ x ∈ X, ∀ y ∈ Y, x * y ∈ X * Y ∧ -x ∈ -X ∧ |x| ∈ X.abs ∧ max x y ∈ X.larger Y ∧
        x ∈ X.hull Y ∧ y ∈ X.hull Y ∧ ∀ n : ℕ, x ^ n ∈ X.integerPower n := by
  refine ⟨add_mem_iff hX hY, sub_mem_iff hX hY, fun x hx y hy => ?_⟩
  refine ⟨mul_mem hx hy, neg_mem hx, abs_mem hx, larger_mem hx hy,
    mem_hull_left hx (Brackets.hasNumbers hy), mem_hull_right (Brackets.hasNumbers hx) hy,
    fun n => ?_⟩
  rw [integerPower_natCast]
  exact power_mem hx n

/-- The intervals `[-2, 3]` and `[1, ∞]` have all their sums, differences and products enclosed. -/
theorem operations_enclose_unbounded :
    (∀ x ∈ Interval.mk (-2) 3, ∀ y ∈ Interval.mk 1 infinity,
        x + y ∈ Interval.mk (-2) 3 + Interval.mk 1 infinity) ∧
      (∀ x ∈ Interval.mk (-2) 3, ∀ y ∈ Interval.mk 1 infinity,
        x - y ∈ Interval.mk (-2) 3 - Interval.mk 1 infinity) ∧
      ∀ x ∈ Interval.mk (-2) 3, ∀ y ∈ Interval.mk 1 infinity,
        x * y ∈ Interval.mk (-2) 3 * Interval.mk 1 infinity := by
  have h := operations_enclose (X := ⟨-2, 3⟩) (Y := ⟨1, infinity⟩) (by decide +kernel)
    (by decide +kernel)
  exact ⟨h.1.mpr (by decide +kernel), h.2.1.mpr (by decide +kernel),
    fun x hx y hy => (h.2.2 x hx y hy).1⟩

/-- **A sum that is not enclosed**: `-3 · 2 ^ 970` and the largest float. -/
theorem add_misses :
    ¬∀ x ∈ point (.ofBits 0xFCA8000000000000), ∀ y ∈ point largest,
      x + y ∈ point (.ofBits 0xFCA8000000000000) + point largest := by
  rw [add_mem_iff (by decide +kernel) (by decide +kernel)]
  decide +kernel

/-! ## Division -/

/-- **When quotients are enclosed**, for finite endpoints of any size: always when the divisor
holds zero, and otherwise exactly when a remainder is lost at no extreme corner. -/
theorem div_encloses_iff (hX : X.lo ≤ X.hi) (hY : Y.lo ≤ Y.hi) (hXl : X.lo.isFinite = true)
    (hXh : X.hi.isFinite = true) (hYl : Y.lo.isFinite = true) (hYh : Y.hi.isFinite = true) :
    (∀ x ∈ X, ∀ y ∈ Y, y ≠ 0 → x / y ∈ X / Y) ↔ (0 : ℝ) ∈ Y ∨ LossIsInner X Y := by
  have hnum : Y.HasNumbers := ⟨(le_iff.mp hY).1, (le_iff.mp hY).2.1⟩
  have hdef : X / Y = if (Y.lo ≤ 0 && Y.hi ≥ 0 : Bool) then entire else corners ofQuotient X Y := rfl
  by_cases h0 : (0 : ℝ) ∈ Y
  · rw [hdef, if_pos ((zero_mem_iff hnum).mp h0)]
    exact iff_of_true (fun x _ y _ _ => mem_entire (x / y)) (.inl h0)
  · rw [hdef, if_neg fun h => h0 ((zero_mem_iff hnum).mpr h), or_iff_right h0]
    refine ⟨fun h => inner_of_div_mem hXl hXh hYl hYh h0 hX hY fun x hx y hy => ?_,
      fun h x hx y hy _ => div_mem_of_inner hXl hXh hYl hYh h0 hY h hx hy⟩
    refine h x hx y hy ?_
    rintro rfl
    exact h0 hy

/-- All quotients of `[5, 7]` by `[3, 11]` are enclosed: no corner divides without a remainder. -/
theorem div_encloses_without_loss :
    LossIsInner (.mk 5 7) (.mk 3 11) ∧ ∀ x ∈ Interval.mk 5 7, ∀ y ∈ Interval.mk 3 11, y ≠ 0 →
      x / y ∈ Interval.mk 5 7 / Interval.mk 3 11 := by
  have hkept : ∀ a ∈ [(5 : Float), 7], ∀ b ∈ [(3 : Float), 11], remainderVanishes a b = false := by
    decide +kernel
  have hinner : LossIsInner (.mk 5 7) (.mk 3 11) := by
    intro a ha b hb
    have h := hkept a ha b hb
    exact ⟨fun hlost => absurd hlost.1 (by simp [h]), fun hlost => absurd hlost.1 (by simp [h])⟩
  exact ⟨hinner, (div_encloses_iff (by decide) (by decide) (by decide) (by decide) (by decide)
    (by decide)).mpr (.inr hinner)⟩

/-- The remainder of the smallest positive float by three times itself underflows. -/
theorem quotientBelow_least : quotientBelow (.ofBits 1) (.ofBits 3) := by
  obtain ⟨-, hr₁⟩ := real_ofBits (u := 1) (by decide)
  obtain ⟨-, hr₃⟩ := real_ofBits (u := 3) (by decide)
  obtain ⟨-, hrq⟩ := real_ofBits (u := 0x3FD5555555555555) (by decide)
  rw [magnitude, show wordSignificand (UInt64.toNat 1) = 1 by decide,
    show wordExponent (UInt64.toNat 1) = -1074 by decide] at hr₁
  rw [magnitude, show wordSignificand (UInt64.toNat 3) = 3 by decide,
    show wordExponent (UInt64.toNat 3) = -1074 by decide] at hr₃
  rw [magnitude, show wordSignificand (UInt64.toNat 0x3FD5555555555555) = 0x15555555555555 by decide,
    show wordExponent (UInt64.toNat 0x3FD5555555555555) = -54 by decide] at hrq
  have hquot : Float.ofBits 1 / Float.ofBits 3 = Float.ofBits 0x3FD5555555555555 := by
    decide +kernel
  have hratio : real (.ofBits 1) / real (.ofBits 3) = 1 / 3 := by
    rw [hr₁, hr₃, mul_div_mul_right _ _ (zpow_two_pos _).ne']
    norm_num
  refine ⟨by decide +kernel, ?_⟩
  rw [hquot, hratio, hrq]
  norm_num

/-- A quotient of two points that was rounded down unnoticed is not enclosed. -/
theorem point_div_misses {a b : Float} (ha : a.isFinite = true) (hb : b.isFinite = true)
    (hpos : 0 < real b) (hlost : quotientBelow a b) :
    ¬∀ x ∈ point a, ∀ y ∈ point b, y ≠ 0 → x / y ∈ point a / point b := by
  have hself : ∀ {c : Float}, c.isFinite = true → (point c).lo ≤ (point c).hi := fun hc =>
    le_iff.mpr ⟨isNumber_of_isFinite hc, isNumber_of_isFinite hc, le_rfl⟩
  have hdivisor : ∀ {y : ℝ}, y ∈ point b → y = real b := fun hy =>
    have hy' := (mem_iff_real (X := point b) hb hb).mp hy
    le_antisymm hy'.2 hy'.1
  have h0 : (0 : ℝ) ∉ point b := fun h => absurd (hdivisor h) hpos.ne
  have hdef : point a / point b = corners ofQuotient (point a) (point b) :=
    if_neg fun h => h0 ((zero_mem_iff ⟨(le_iff.mp (hself hb)).1, (le_iff.mp (hself hb)).2.1⟩).mpr h)
  intro hmem
  have hinner := inner_of_div_mem (X := point a) (Y := point b) ha ha hb hb h0 (hself ha) (hself hb)
    fun x hx y hy => hdef ▸ hmem x hx y hy (hdivisor hy ▸ hpos.ne')
  obtain ⟨a', ha', b', hb', hlt⟩ := (hinner a (.head _) b (.head _)).1 hlost
  simp only [point, List.mem_cons, List.not_mem_nil, or_false, or_self] at ha' hb'
  rw [ha', hb'] at hlt
  exact absurd hlt (lt_irrefl _)

/-- **A quotient that is not enclosed**: the smallest positive float by three times itself. -/
theorem div_misses :
    ¬∀ x ∈ point (.ofBits 1), ∀ y ∈ point (.ofBits 3), y ≠ 0 →
      x / y ∈ point (.ofBits 1) / point (.ofBits 3) :=
  have hfin : (Float.ofBits 3).isFinite = true := by decide +kernel
  point_div_misses (by decide +kernel) hfin ((pos_iff hfin).mp (by decide +kernel))
    quotientBelow_least

end CertifiedZeros.Interval
