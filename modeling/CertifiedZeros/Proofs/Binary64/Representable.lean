import CertifiedZeros.Proofs.Numerals
import Mathlib

/-! # The numbers of the format among the reals

A finite float is a multiple of some power of two. This file says which reals are numbers of the
format when exponents have no upper bound:

* **`OnGrid e x`** — `x` is an integer multiple of `2 ^ e`.
* **`unitExponent x`** — the exponent of the last place of a float of the size of `x`: significands
  have 53 bits, and no exponent lies below `-1074`.
* **`Representable x`** — `x` is a multiple of its own last place. `representable_of_onGrid` is the
  way to show it: any multiple of `2 ^ e` up to `2 ^ (e + 53)` will do. -/

namespace CertifiedZeros.Binary64

/-! ## Multiples of a power of two -/

/-- **`x` is an integer multiple of `2 ^ e`.** -/
def OnGrid (e : ℤ) (x : ℝ) : Prop :=
  ∃ m : ℤ, x = m * (2 : ℝ) ^ e

/-- A power of two is positive; stated once, because it is needed at every division. -/
theorem zpow_two_pos (e : ℤ) : (0 : ℝ) < (2 : ℝ) ^ e :=
  zpow_pos (by norm_num) e

theorem zpow_two_le {e f : ℤ} (h : e ≤ f) : (2 : ℝ) ^ e ≤ (2 : ℝ) ^ f :=
  zpow_le_zpow_right₀ (by norm_num) h

theorem zpow_two_lt {e f : ℤ} (h : e < f) : (2 : ℝ) ^ e < (2 : ℝ) ^ f :=
  zpow_lt_zpow_right₀ (by norm_num) h

theorem zpow_two_add (e : ℤ) (n : ℕ) : (2 : ℝ) ^ (e + n) = 2 ^ n * (2 : ℝ) ^ e := by
  rw [zpow_add₀ (by norm_num), zpow_natCast, mul_comm]

namespace OnGrid

variable {e f : ℤ} {x y : ℝ}

theorem zero (e : ℤ) : OnGrid e 0 := ⟨0, by simp⟩

theorem intMul (m e : ℤ) : OnGrid e (m * (2 : ℝ) ^ e) := ⟨m, rfl⟩

theorem add (hx : OnGrid e x) (hy : OnGrid e y) : OnGrid e (x + y) := by
  obtain ⟨m, rfl⟩ := hx
  obtain ⟨n, rfl⟩ := hy
  exact ⟨m + n, by push_cast; ring⟩

theorem neg (hx : OnGrid e x) : OnGrid e (-x) := by
  obtain ⟨m, rfl⟩ := hx
  exact ⟨-m, by push_cast; ring⟩

theorem sub (hx : OnGrid e x) (hy : OnGrid e y) : OnGrid e (x - y) := by
  rw [sub_eq_add_neg]
  exact hx.add hy.neg

theorem mul (hx : OnGrid e x) (hy : OnGrid f y) : OnGrid (e + f) (x * y) := by
  obtain ⟨m, rfl⟩ := hx
  obtain ⟨n, rfl⟩ := hy
  exact ⟨m * n, by rw [zpow_add₀ (by norm_num)]; push_cast; ring⟩

/-- A finer grid holds every point of a coarser one. -/
theorem mono (h : e ≤ f) (hx : OnGrid f x) : OnGrid e x := by
  obtain ⟨m, rfl⟩ := hx
  obtain ⟨n, hn⟩ : ∃ n : ℕ, f = e + n := ⟨(f - e).toNat, by omega⟩
  refine ⟨m * 2 ^ n, ?_⟩
  rw [hn, zpow_two_add]
  push_cast
  ring

/-- **The points of a grid keep a distance**: one that is not zero is at least one step away. -/
theorem zpow_le_abs (hx : OnGrid e x) (h0 : x ≠ 0) : (2 : ℝ) ^ e ≤ |x| := by
  obtain ⟨m, rfl⟩ := hx
  have hm : m ≠ 0 := by
    rintro rfl
    simp at h0
  have h1 : (1 : ℝ) ≤ |(m : ℝ)| := by exact_mod_cast Int.one_le_abs hm
  rw [abs_mul, abs_of_pos (zpow_two_pos e)]
  exact le_mul_of_one_le_left (zpow_two_pos e).le h1

end OnGrid

/-! ## The last place -/

/-- **The exponent of the last place** of a float of the size of `x`. -/
noncomputable def unitExponent (x : ℝ) : ℤ :=
  if x = 0 then -1074 else max (Int.log 2 |x| - 52) (-1074)

theorem le_unitExponent (x : ℝ) : -1074 ≤ unitExponent x := by
  unfold unitExponent
  split <;> omega

@[simp] theorem unitExponent_neg (x : ℝ) : unitExponent (-x) = unitExponent x := by
  simp [unitExponent]

/-- A number has at most 53 bits above its last place. -/
theorem abs_lt_zpow (x : ℝ) : |x| < (2 : ℝ) ^ (unitExponent x + 53) := by
  unfold unitExponent
  split
  · rename_i h
    rw [h, abs_zero]
    exact zpow_two_pos _
  · have h := Int.lt_zpow_succ_log_self (by norm_num : 1 < 2) |x|
    push_cast at h
    exact lt_of_lt_of_le h (zpow_two_le (by omega))

/-- The last place is no higher than the size of the number demands. -/
theorem unitExponent_le {e : ℤ} {x : ℝ} (he : -1074 ≤ e) (hx : |x| < (2 : ℝ) ^ (e + 53)) :
    unitExponent x ≤ e := by
  unfold unitExponent
  split
  · exact he
  · rename_i h
    have hlog := (Int.lt_zpow_iff_log_lt (by norm_num : 1 < 2) (abs_pos.mpr h)).mp
      (by exact_mod_cast hx : |x| < ((2 : ℕ) : ℝ) ^ (e + 53))
    omega

/-- The last place is no lower than the size of the number allows. -/
theorem le_unitExponent_of_le {e : ℤ} {x : ℝ} (hx : (2 : ℝ) ^ (e + 52) ≤ |x|) :
    e ≤ unitExponent x := by
  have h0 : x ≠ 0 := by
    rintro rfl
    rw [abs_zero] at hx
    exact absurd hx (not_le.mpr (zpow_two_pos _))
  have hlog := (Int.zpow_le_iff_le_log (by norm_num : 1 < 2) (abs_pos.mpr h0)).mp
    (by exact_mod_cast hx : ((2 : ℕ) : ℝ) ^ (e + 52) ≤ |x|)
  unfold unitExponent
  rw [if_neg h0]
  omega

/-- **Normal numbers fill their significand**: above the lowest exponent the leading bit is set. -/
theorem zpow_le_abs_of_normal {x : ℝ} (h : unitExponent x ≠ -1074) :
    (2 : ℝ) ^ (unitExponent x + 52) ≤ |x| := by
  by_contra hlt
  have hle := le_unitExponent x
  have := unitExponent_le (e := unitExponent x - 1) (x := x) (by omega)
    (by rw [show unitExponent x - 1 + 53 = unitExponent x + 52 by ring]; exact not_le.mp hlt)
  omega

theorem unitExponent_mono {x y : ℝ} (h : |x| ≤ |y|) : unitExponent x ≤ unitExponent y :=
  unitExponent_le (le_unitExponent y) (lt_of_le_of_lt h (abs_lt_zpow y))

/-! ## Representable numbers -/

/-- **`x` is a number of the format**, had it no largest exponent. -/
def Representable (x : ℝ) : Prop :=
  OnGrid (unitExponent x) x

theorem Representable.neg {x : ℝ} (h : Representable x) : Representable (-x) := by
  unfold Representable
  rw [unitExponent_neg]
  exact OnGrid.neg h

/-- **A multiple of `2 ^ e` with 53 bits is representable.** The bound itself is included: it is a
power of two, and so a multiple of the next higher one. -/
theorem representable_of_onGrid {e : ℤ} {x : ℝ} (he : -1074 ≤ e) (hx : OnGrid e x)
    (hle : |x| ≤ (2 : ℝ) ^ (e + 53)) : Representable x := by
  rcases hle.lt_or_eq with hlt | heq
  · exact hx.mono (unitExponent_le he hlt)
  · have hup : unitExponent x ≤ e + 1 :=
      unitExponent_le (by omega) (by rw [heq]; exact zpow_two_lt (by omega))
    have hgrid : OnGrid (e + 1) x := by
      have hpow : (2 : ℝ) ^ (e + 53) = 2 ^ 52 * (2 : ℝ) ^ (e + 1) := by
        rw [← zpow_two_add]
        congr 1
        push_cast
        ring
      rcases abs_choice x with h | h <;> rw [h] at heq
      · exact ⟨2 ^ 52, by rw [heq, hpow]; norm_num⟩
      · exact ⟨-2 ^ 52, by push_cast; linarith [heq.trans hpow]⟩
    exact hgrid.mono hup

theorem representable_zero : Representable 0 := OnGrid.zero _

/-- A representable number is a multiple of every unit below its own last place. -/
theorem Representable.onGrid {e : ℤ} {x : ℝ} (h : Representable x) (he : e ≤ unitExponent x) :
    OnGrid e x :=
  OnGrid.mono he h

/-- Every representable number is a multiple of the smallest positive one. -/
theorem Representable.onGrid_least {x : ℝ} (h : Representable x) : OnGrid (-1074) x :=
  h.onGrid (le_unitExponent x)

/-- **The significand of a representable number has 53 bits.** -/
theorem Representable.abs_le {x : ℝ} (h : Representable x) :
    |x| ≤ (2 : ℝ) ^ (unitExponent x + 53) - (2 : ℝ) ^ unitExponent x := by
  obtain ⟨m, hm⟩ := h
  have hpos := zpow_two_pos (unitExponent x)
  have hlt := abs_lt_zpow x
  have hpow : (2 : ℝ) ^ (unitExponent x + 53) = 2 ^ 53 * (2 : ℝ) ^ unitExponent x := by
    exact_mod_cast zpow_two_add (unitExponent x) 53
  have habs : |x| = |(m : ℝ)| * (2 : ℝ) ^ unitExponent x := by
    conv_lhs => rw [hm]
    rw [abs_mul, abs_of_pos hpos]
  rw [habs, hpow] at hlt
  have hm' : |(m : ℝ)| < 2 ^ 53 := lt_of_mul_lt_mul_right hlt hpos.le
  have hmi : |m| + 1 ≤ 2 ^ 53 := by
    have : |m| < 2 ^ 53 := by exact_mod_cast hm'
    omega
  have hmr : |(m : ℝ)| + 1 ≤ 2 ^ 53 := by exact_mod_cast hmi
  rw [habs, hpow]
  nlinarith

/-- Doubling moves the exponent alone. -/
theorem Representable.two_mul {x : ℝ} (h : Representable x) : Representable (2 * x) := by
  obtain ⟨m, hm⟩ := h
  have hpow : ∀ k : ℤ, (2 : ℝ) ^ (k + 1) = 2 * (2 : ℝ) ^ k := fun k => by
    exact_mod_cast zpow_two_add k 1
  have hlt := abs_lt_zpow x
  refine representable_of_onGrid (e := unitExponent x + 1) (by have := le_unitExponent x; omega)
    ⟨m, ?_⟩ ?_
  · rw [hpow]
    linear_combination 2 * hm
  · rw [show unitExponent x + 1 + 53 = unitExponent x + 53 + 1 by ring, hpow, abs_mul, abs_two]
    linarith
/-- A power of two within the range of exponents is representable. -/
theorem representable_zpow {e : ℤ} (he : -1074 ≤ e) : Representable ((2 : ℝ) ^ e) :=
  representable_of_onGrid he ⟨1, by simp⟩
    (by rw [abs_of_pos (zpow_two_pos e)]; exact zpow_two_le (by omega))

end CertifiedZeros.Binary64
