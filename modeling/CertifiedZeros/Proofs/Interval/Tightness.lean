import CertifiedZeros.Proofs.Binary64.RelativeError
import CertifiedZeros.Proofs.Interval.Enclosure
import CertifiedZeros.Proofs.Interval.Monotone

/-! # When interval operations are as tight as floats allow

An enclosure could always be the whole line. What is computed here is the smallest interval with
float endpoints, as long as no rounding error is lost:

* **`Tightest S Z`** — `Z` holds the set `S`, and every interval that holds `S` reaches at least as
  far on either side.
* **`besides_tightest`**, **`ofOverflow_tightest`** — a rounded result and its neighbour on the side
  of the exact one, and what stands for an overflow.
* **`ofProduct_tightest`**, **`ofQuotient_tightest`** — products and quotients of two floats, where
  the error is a multiple of the least unit and so keeps its sign when it is rounded.
* **`corners_tightest`** — a hull of four is the smallest one when each corner is and the extremes
  are reached at corners.
* **`operations_tightest`** — the four operations on intervals. -/

namespace CertifiedZeros.Interval

open Binary64

variable {X Y Z : Interval} {S : Set ℝ} {x y r : ℝ} {a b g s e : Float}

/-- The reals that an interval stands for, as a set. -/
def members (X : Interval) : Set ℝ := {x | x ∈ X}

/-- **The smallest interval with float endpoints around a set of reals**, infinite endpoints
allowed. -/
structure Tightest (S : Set ℝ) (Z : Interval) : Prop where
  /-- Nothing of the set is left out. -/
  holds : ∀ r ∈ S, r ∈ Z
  /-- Whatever holds the set reaches at least as far. -/
  least : ∀ W : Interval, (∀ r ∈ S, r ∈ W) → value W.lo ≤ value Z.lo ∧ value Z.hi ≤ value W.hi

/-- Around one real it is enough to compare with finite floats. -/
theorem tightest_singleton (hmem : r ∈ Z)
    (hlo : ∀ g : Float, g.isFinite = true → value g ≤ (r : EReal) → value g ≤ value Z.lo)
    (hhi : ∀ g : Float, g.isFinite = true → (r : EReal) ≤ value g → value Z.hi ≤ value g) :
    Tightest {r} Z := by
  refine ⟨fun _ ht => ht ▸ hmem, fun W hW => ?_⟩
  obtain ⟨hWl, hWh, hle, hge⟩ := mem_iff.mp (hW r rfl)
  constructor
  · rcases hWl.cases with hfin | ⟨-, htop | hbot⟩
    · exact hlo _ hfin hle
    · exact absurd (htop ▸ hle) (not_le.mpr (EReal.coe_lt_top r))
    · exact hbot ▸ bot_le
  · rcases hWh.cases with hfin | ⟨-, htop | hbot⟩
    · exact hhi _ hfin hge
    · exact htop ▸ le_top
    · exact absurd (hbot ▸ hge) (not_le.mpr (EReal.bot_lt_coe r))

theorem float_not_lt_of_le (h : a ≤ b) : ¬b < a := fun hlt =>
  absurd (lt_iff.mp hlt).2.2 (not_lt.mpr (le_iff.mp h).2.2)

/-! ## One rounded result -/

theorem zero_tightest : Tightest {0} 0 :=
  tightest_singleton zero_brackets (fun _ _ h => h.trans value_zero.ge)
    fun _ _ h => value_zero.le.trans h

/-- **The neighbour on the side of the exact number** is as tight as can be, when the sign of the
computed error is right. -/
theorem besides_tightest (hs : s.isFinite = true) (hr : value s = clamp (rounded r))
    (hpos : 0 < e ↔ real s < r) (hneg : e < 0 ↔ r < real s) : Tightest {r} (besides s e) := by
  have hnum := isNumber_of_isFinite hs
  obtain ⟨hlo, hhi, hlower, hupper⟩ := besides_spec (e := e) hs hr
  refine tightest_singleton ⟨hlo, hhi, hlower.mpr ?_, hupper.mpr ?_⟩ (fun g hg hle => ?_)
    fun g hg hge => ?_
  · rw [hneg]
    exact lt_or_ge _ _
  · rw [hpos]
    exact lt_or_ge _ _
  · exact le_besides_lo_of_le hs hr (isNumber_of_isFinite hg) hle hneg.mp
  · -- the upper end stays at the rounded number, or moves up from below the exact one
    have hsg : value s ≤ value g := hr ▸ clamp_rounded_le_value (isNumber_of_isFinite hg) hge
    by_cases herr : 0 < e
    · refine (besides_hi_le_nextUp hnum).trans
        (nextUp_le_of_value_lt hnum (isNumber_of_isFinite hg) (lt_of_lt_of_le ?_ hge))
      rw [← coe_real hs, EReal.coe_lt_coe_iff]
      exact hpos.mp herr
    · exact (besides_hi_le herr).trans hsg

/-- **An overflow** leaves the reals beyond the largest float. -/
theorem ofOverflow_tightest (hs : IsNumber s) (hinf : s.isFinite = false)
    (hr : value s = clamp (rounded r)) : Tightest {r} (ofOverflow s) := by
  refine tightest_singleton (ofOverflow_brackets hs hinf hr) (fun g hg hle => ?_) fun g hg hge => ?_
  · have hgs : value g ≤ value s := hr ▸ value_le_clamp_rounded (isNumber_of_isFinite hg) hle
    exact le_ofOverflow_lo hs hg (eq_top_of_le hs hinf hg hgs)
  · have hsg : value s ≤ value g := hr ▸ clamp_rounded_le_value (isNumber_of_isFinite hg) hge
    exact ofOverflow_hi_le hs hg (eq_bot_of_le hs hinf hg hsg)

/-- **A product of two floats** that is zero, or not too small. -/
theorem ofProduct_tightest (ha : a.isFinite = true) (hb : b.isFinite = true)
    (hlarge : real a * real b = 0 ∨ ¬(a * b).abs < residualFloor) :
    Tightest {real a * real b} (ofProduct a b) := by
  obtain ⟨hnum, hval⟩ := mul_spec ha hb
  have hzero : (a == 0 || b == 0) = true ↔ real a * real b = 0 := by
    rw [Bool.or_eq_true, beq_zero_iff (isNumber_of_isFinite ha), ← coe_real ha,
      beq_zero_iff (isNumber_of_isFinite hb), ← coe_real hb, EReal.coe_eq_zero, EReal.coe_eq_zero,
      mul_eq_zero]
  unfold ofProduct
  by_cases h0 : (a == 0 || b == 0) = true
  · rw [if_pos h0, hzero.mp h0]
    exact zero_tightest
  have hfloor := hlarge.resolve_left (hzero.not.mp h0)
  rw [if_neg h0]
  rcases Bool.eq_false_or_eq_true (a * b).isFinite with hp | hp
  · obtain ⟨hpos, hneg⟩ := fma_neg_product_spec ha hb hp hfloor
    simp only [hp, hfloor, if_true, if_false]
    exact besides_tightest hp hval hpos hneg
  · simp only [hp, ha, hb, Bool.false_eq_true, if_false, if_true, Bool.and_self]
    exact ofOverflow_tightest hnum hp hval

/-! ## Remainders that do not underflow -/

/-- **A product that is not too small is a multiple of the least unit.** -/
theorem onGrid_mul {u v : ℝ} (hu : Representable u) (hv : Representable v)
    (hlarge : (2 : ℝ) ^ (-965 : ℤ) ≤ |u * v|) : OnGrid (-1074) (u * v) := by
  obtain ⟨e, he, herr⟩ := exists_onGrid_mul_error hu hv hlarge
  have hsum := (herr.mono he).add (representable_rounded (u * v)).onGrid_least
  rwa [sub_add_cancel] at hsum

/-- Rounding to a number that is not too small does not halve it. -/
theorem abs_le_two_mul_abs_rounded {u : ℝ} (h : (2 : ℝ) ^ (-964 : ℤ) ≤ |rounded u|) :
    |u| ≤ 2 * |rounded u| := by
  have herr := abs_sub_rounded_le_relative u
  have htri := abs_sub_abs_le_abs_sub u (rounded u)
  have hround := (roundoff_mul_le (abs_nonneg u)).2
  rw [mul_comm] at hround
  have hunit : underflowError ≤ (2 : ℝ) ^ (-966 : ℤ) := zpow_two_le (by norm_num)
  rw [show (-964 : ℤ) = -966 + (2 : ℕ) by norm_num, zpow_two_add] at h
  linarith [abs_nonneg (rounded u)]

/-- **The remainder of a quotient is a multiple of the least unit** when neither dividend nor
quotient is too small. -/
theorem onGrid_remainder {u v : ℝ} (hu : Representable u) (hv : Representable v) (hv0 : v ≠ 0)
    (hlarge : (2 : ℝ) ^ (-964 : ℤ) ≤ |u|) (hquot : (2 : ℝ) ^ (-964 : ℤ) ≤ |rounded (u / v)|) :
    OnGrid (-1074) (u - rounded (u / v) * v) := by
  refine hu.onGrid_least.sub (onGrid_mul (representable_rounded _) hv ?_)
  -- the product of rounded quotient and divisor is about the dividend
  have hhalf := mul_le_mul_of_nonneg_right (abs_le_two_mul_abs_rounded hquot) (abs_nonneg v)
  rw [← abs_mul, div_mul_cancel₀ u hv0, mul_assoc, ← abs_mul] at hhalf
  have hpow : (2 : ℝ) ^ (-964 : ℤ) = 2 * (2 : ℝ) ^ (-965 : ℤ) := by
    rw [show (-964 : ℤ) = -965 + (1 : ℕ) by norm_num, zpow_two_add, pow_one]
  linarith

/-- A number on the least grid vanishes when it is rounded to zero. -/
theorem eq_zero_of_rounded_eq_zero {u : ℝ} (hu : OnGrid (-1074) u) (h : rounded u = 0) : u = 0 := by
  rcases lt_trichotomy u 0 with hneg | hzero | hpos
  · have hround := (rounded_pos_iff le_rfl hu.neg).mpr (neg_pos.mpr hneg)
    rw [rounded_neg, h, neg_zero] at hround
    exact absurd hround (lt_irrefl 0)
  · exact hzero
  · exact absurd h ((rounded_pos_iff le_rfl hu).mpr hpos).ne'

/-- **A quotient of two floats** whose dividend and quotient are not too small. -/
theorem ofQuotient_tightest (ha : a.isFinite = true) (hb : b.isFinite = true) (hb0 : real b ≠ 0)
    (hlarge : real a = 0 ∨ ¬a.abs < residualFloor)
    (hquot : real a = 0 ∨ ¬(a / b).abs < residualFloor) :
    Tightest {real a / real b} (ofQuotient a b) := by
  obtain ⟨hnum, hval⟩ := div_spec ha hb hb0
  by_cases ha0 : real a = 0
  · have hzero : (a == 0) = true := by
      rw [beq_zero_iff (isNumber_of_isFinite ha), ← coe_real ha, ha0, EReal.coe_zero]
    rw [ofQuotient, if_pos hzero, ha0, zero_div]
    exact zero_tightest
  have hfloor := hquot.resolve_left ha0
  rcases ofQuotient_cases ha hb with ⟨hra, -⟩ | ⟨-, hsmall, -⟩ | ⟨hq, -, hcase⟩ | ⟨hq, hcase⟩
  · exact absurd hra ha0
  · exact absurd hsmall hfloor
  · rw [hcase]
    by_cases hr : (fma (-(a / b)) b a == 0) = true
    · -- a remainder that is rounded to zero is zero, and the quotient is exact
      have hround := real_eq_rounded hval hq
      have hgrid := onGrid_remainder (representable_real ha) (representable_real hb) hb0
        (zpow_le_abs_of_not_lt ha (hlarge.resolve_left ha0))
        (hround ▸ zpow_le_abs_of_not_lt hq hfloor)
      obtain ⟨hrnum, hrval⟩ := fma_remainder_spec ha hb hq
      rw [(beq_zero_iff hrnum).mp hr, hround] at hrval
      have hzero := eq_zero_of_rounded_eq_zero hgrid (clamp_eq_coe (y := 0) hrval.symm)
      have hexact : real (a / b) = real a / real b := by
        rw [eq_div_iff hb0, hround]
        linarith
      obtain ⟨hpos, hneg⟩ := sidedRemainder_of_zero ha hb hq hr
      exact besides_tightest hq hval (iff_of_false hpos hexact.not_lt)
        (iff_of_false hneg hexact.not_gt)
    · obtain ⟨hpos, hneg⟩ := sidedRemainder_spec ha hb hb0 hq hr
      exact besides_tightest hq hval hpos hneg
  · rw [hcase]
    exact ofOverflow_tightest hnum hq hval

/-! ## Intervals -/

/-- **Sums**: the ends are always as far in as can be, and enclose unless an error is lost. -/
theorem add_tightest_iff (hX : X.lo ≤ X.hi) (hY : Y.lo ≤ Y.hi) (hXl : X.lo.isFinite = true)
    (hXh : X.hi.isFinite = true) (hYl : Y.lo.isFinite = true) (hYh : Y.hi.isFinite = true) :
    Tightest (Set.image2 (· + ·) X.members Y.members) (X + Y)
      ↔ sumAbove X.lo Y.lo = false ∧ sumBelow X.hi Y.hi = false := by
  rw [← add_mem_iff hX hY]
  constructor
  · intro h x hx y hy
    exact h.holds _ ⟨x, hx, y, hy, rfl⟩
  · intro h
    refine ⟨?_, fun W hW => ?_⟩
    · rintro _ ⟨x, hx, y, hy, rfl⟩
      exact h x hx y hy
    · -- the sums of lower ends and of upper ends are in the set, so `W` holds them
      have hlo := hW _ ⟨_, lo_mem hX hXl, _, lo_mem hY hYl, rfl⟩
      have hhi := hW _ ⟨_, hi_mem hX hXh, _, hi_mem hY hYh, rfl⟩
      rw [add_lo, add_hi]
      constructor
      · refine le_ofSum_lo (add_spec hXl hYl).1 hlo.1 ?_
        rw [← coe_real hXl, ← coe_real hYl, ← EReal.coe_add]
        exact hlo.2.2.1
      · refine ofSum_hi_le (add_spec hXh hYh).1 hhi.2.1 ?_
        rw [← coe_real hXh, ← coe_real hYh, ← EReal.coe_add]
        exact hhi.2.2.2

/-- **Differences** are sums with the negative interval. -/
theorem sub_tightest_iff (hX : X.lo ≤ X.hi) (hY : Y.lo ≤ Y.hi) (hXl : X.lo.isFinite = true)
    (hXh : X.hi.isFinite = true) (hYl : Y.lo.isFinite = true) (hYh : Y.hi.isFinite = true) :
    Tightest (Set.image2 (· - ·) X.members Y.members) (X - Y)
      ↔ sumAbove X.lo (-Y.hi) = false ∧ sumBelow X.hi (-Y.lo) = false := by
  have hnum : Y.HasNumbers := ⟨(le_iff.mp hY).1, (le_iff.mp hY).2.1⟩
  have hset : Set.image2 (· - ·) X.members Y.members
      = Set.image2 (· + ·) X.members (-Y).members := by
    ext r
    constructor
    · rintro ⟨x, hx, y, hy, rfl⟩
      exact ⟨x, hx, -y, neg_mem hy, (sub_eq_add_neg x y).symm⟩
    · rintro ⟨x, hx, y, hy, rfl⟩
      refine ⟨x, hx, -y, (neg_mem_neg_iff hnum).mp ?_, sub_neg_eq_add x y⟩
      rw [neg_neg]
      exact hy
  rw [hset, sub_eq_add, ← neg_lo, ← neg_hi]
  exact add_tightest_iff hX (neg_lo_le_neg_hi hY) hXl hXh (neg_finite hYh).1 (neg_finite hYl).1

/-- **The hull of four corners** is the smallest interval when each corner is, and when every
number of the set lies between numbers at corners. -/
theorem corners_tightest {f : Float → Float → Interval} {v : Float → Float → ℝ}
    (hcorner : ∀ a ∈ [X.lo, X.hi], ∀ b ∈ [Y.lo, Y.hi], v a b ∈ S ∧ Tightest {v a b} (f a b))
    (hlow : ∀ r ∈ S, ∃ a ∈ [X.lo, X.hi], ∃ b ∈ [Y.lo, Y.hi], v a b ≤ r)
    (hhigh : ∀ r ∈ S, ∃ a ∈ [X.lo, X.hi], ∃ b ∈ [Y.lo, Y.hi], r ≤ v a b) :
    Tightest S (corners f X Y) := by
  have hmem : ∀ a ∈ [X.lo, X.hi], ∀ b ∈ [Y.lo, Y.hi], v a b ∈ f a b := fun a ha b hb =>
    (hcorner a ha b hb).2.holds _ rfl
  obtain ⟨hnum, hlower, hupper⟩ := corners_spec (f := f) (X := X) (Y := Y)
    fun a ha b hb => Brackets.hasNumbers (hmem a ha b hb)
  refine ⟨fun r hr => ?_, fun W hW => ?_⟩
  · obtain ⟨a, ha, b, hb, hle⟩ := hlow r hr
    obtain ⟨a', ha', b', hb', hge⟩ := hhigh r hr
    refine ⟨hnum.1, hnum.2, (hlower _).mpr ⟨a, ha, b, hb, ?_⟩, (hupper _).mpr ⟨a', ha', b', hb', ?_⟩⟩
    · exact (hmem a ha b hb).2.2.1.trans (EReal.coe_le_coe_iff.mpr hle)
    · exact (EReal.coe_le_coe_iff.mpr hge).trans (hmem a' ha' b' hb').2.2.2
  · -- an end of the hull is an end at some corner, whose number `W` holds
    have hends : ∀ a ∈ [X.lo, X.hi], ∀ b ∈ [Y.lo, Y.hi],
        value W.lo ≤ value (f a b).lo ∧ value (f a b).hi ≤ value W.hi := by
      intro a ha b hb
      obtain ⟨hv, htight⟩ := hcorner a ha b hb
      exact htight.least W fun r hr => hr ▸ hW _ hv
    obtain ⟨a, ha, b, hb, hle⟩ := (hlower _).mp le_rfl
    obtain ⟨a', ha', b', hb', hge⟩ := (hupper _).mp le_rfl
    exact ⟨(hends a ha b hb).1.trans hle, hge.trans (hends a' ha' b' hb').2⟩

/-- A factor moves to an end of its interval where the product is not greater. -/
theorem exists_end_mul_le (hx : real X.lo ≤ x ∧ x ≤ real X.hi) (c : ℝ) :
    ∃ a ∈ [X.lo, X.hi], real a * c ≤ x * c := by
  rcases le_total 0 c with hc | hc
  · exact ⟨X.lo, by simp, mul_le_mul_of_nonneg_right hx.1 hc⟩
  · exact ⟨X.hi, by simp, mul_le_mul_of_nonpos_right hx.2 hc⟩

/-- A factor moves to an end of its interval where the product is not smaller. -/
theorem exists_le_end_mul (hx : real X.lo ≤ x ∧ x ≤ real X.hi) (c : ℝ) :
    ∃ a ∈ [X.lo, X.hi], x * c ≤ real a * c := by
  obtain ⟨a, ha, hle⟩ := exists_end_mul_le hx (-c)
  rw [mul_neg, mul_neg] at hle
  exact ⟨a, ha, neg_le_neg_iff.mp hle⟩

section

variable (hX : X.lo ≤ X.hi) (hY : Y.lo ≤ Y.hi) (hXl : X.lo.isFinite = true)
  (hXh : X.hi.isFinite = true) (hYl : Y.lo.isFinite = true) (hYh : Y.hi.isFinite = true)

include hX hXl hXh

/-- The ends of a finite interval are members. -/
theorem real_mem_of_end (ha : a ∈ [X.lo, X.hi]) : a.isFinite = true ∧ real a ∈ X := by
  simp only [List.mem_cons, List.not_mem_nil, or_false] at ha
  rcases ha with rfl | rfl
  · exact ⟨hXl, lo_mem hX hXl⟩
  · exact ⟨hXh, hi_mem hX hXh⟩

include hY hYl hYh

/-- **Products**, where no corner product is too small. -/
theorem mul_tightest (hlarge : ∀ a ∈ [X.lo, X.hi], ∀ b ∈ [Y.lo, Y.hi],
      real a * real b = 0 ∨ residualFloor ≤ (a * b).abs) :
    Tightest (Set.image2 (· * ·) X.members Y.members) (X * Y) := by
  have hdef : X * Y = if X == 0 || Y == 0 then 0 else corners ofProduct X Y := rfl
  have hmem : ∀ r ∈ Set.image2 (· * ·) X.members Y.members, r ∈ X * Y := by
    rintro _ ⟨x, hx, y, hy, rfl⟩
    exact mul_mem hx hy
  rw [hdef] at hmem ⊢
  split_ifs at hmem ⊢ with h0
  · -- the interval of zero is the smallest one around zero, and zero is in the set
    refine ⟨hmem, fun W hW => zero_tightest.least W ?_⟩
    rintro _ rfl
    have hcorner : real X.lo * real Y.lo ∈ Set.image2 (· * ·) X.members Y.members :=
      ⟨_, lo_mem hX hXl, _, lo_mem hY hYl, rfl⟩
    have hzero : real X.lo * real Y.lo = 0 := by
      rcases (Bool.or_eq_true _ _).mp h0 with h | h
      · rw [eq_zero_of_mem h (lo_mem hX hXl), zero_mul]
      · rw [eq_zero_of_mem h (lo_mem hY hYl), mul_zero]
    exact hzero ▸ hW _ hcorner
  · refine corners_tightest (v := fun a b => real a * real b) (fun a ha b hb => ?_) ?_ ?_
    · obtain ⟨hafin, hamem⟩ := real_mem_of_end hX hXl hXh ha
      obtain ⟨hbfin, hbmem⟩ := real_mem_of_end hY hYl hYh hb
      refine ⟨⟨_, hamem, _, hbmem, rfl⟩, ofProduct_tightest hafin hbfin ?_⟩
      exact (hlarge a ha b hb).imp_right float_not_lt_of_le
    · rintro _ ⟨x, hx, y, hy, rfl⟩
      obtain ⟨a, ha, hxa⟩ := exists_end_mul_le ((mem_iff_real hXl hXh).mp hx) y
      obtain ⟨b, hb, hyb⟩ := exists_end_mul_le ((mem_iff_real hYl hYh).mp hy) (real a)
      rw [mul_comm, mul_comm y] at hyb
      exact ⟨a, ha, b, hb, hyb.trans hxa⟩
    · rintro _ ⟨x, hx, y, hy, rfl⟩
      obtain ⟨a, ha, hxa⟩ := exists_le_end_mul ((mem_iff_real hXl hXh).mp hx) y
      obtain ⟨b, hb, hyb⟩ := exists_le_end_mul ((mem_iff_real hYl hYh).mp hy) (real a)
      rw [mul_comm, mul_comm (real b)] at hyb
      exact ⟨a, ha, b, hb, hxa.trans hyb⟩

/-- **Quotients**, where neither an end of the dividend nor a corner quotient is too small. -/
theorem div_tightest (h0 : (0 : ℝ) ∉ Y)
    (hlarge : ∀ a ∈ [X.lo, X.hi], real a = 0 ∨ residualFloor ≤ a.abs)
    (hquot : ∀ a ∈ [X.lo, X.hi], ∀ b ∈ [Y.lo, Y.hi],
      real a = 0 ∨ residualFloor ≤ (a / b).abs) :
    Tightest (Set.image2 (· / ·) X.members Y.members) (X / Y) := by
  have hnum : Y.HasNumbers := ⟨(le_iff.mp hY).1, (le_iff.mp hY).2.1⟩
  have hdef : X / Y = corners ofQuotient X Y := if_neg fun h => h0 ((zero_mem_iff hnum).mpr h)
  rw [hdef]
  refine corners_tightest (v := fun a b => real a / real b) (fun a ha b hb => ?_) ?_ ?_
  · obtain ⟨hafin, hamem⟩ := real_mem_of_end hX hXl hXh ha
    obtain ⟨hbfin, hbmem⟩ := real_mem_of_end hY hYl hYh hb
    have hb0 : real b ≠ 0 := fun h => h0 (h ▸ hbmem)
    refine ⟨⟨_, hamem, _, hbmem, rfl⟩, ofQuotient_tightest hafin hbfin hb0 ?_ ?_⟩
    · exact (hlarge a ha).imp_right float_not_lt_of_le
    · exact (hquot a ha b hb).imp_right float_not_lt_of_le
  · rintro _ ⟨x, hx, y, hy, rfl⟩
    exact exists_corner_le ((mem_iff_real hXl hXh).mp hx) ((mem_iff_real hYl hYh).mp hy)
      (one_sign hYl hYh h0)
  · rintro _ ⟨x, hx, y, hy, rfl⟩
    exact exists_le_corner ((mem_iff_real hXl hXh).mp hx) ((mem_iff_real hYl hYh).mp hy)
      (one_sign hYl hYh h0)

end

/-- **How tight interval arithmetic is**, for finite endpoints. Sums and differences are the smallest
intervals exactly when no rounding error is lost against the largest float, products are when every
corner product is zero or not too small, and quotients when so are the ends of the dividend and the
corner quotients. -/
theorem operations_tightest (hX : X.lo ≤ X.hi) (hY : Y.lo ≤ Y.hi) (hXl : X.lo.isFinite = true)
    (hXh : X.hi.isFinite = true) (hYl : Y.lo.isFinite = true) (hYh : Y.hi.isFinite = true) :
    (Tightest (Set.image2 (· + ·) X.members Y.members) (X + Y)
        ↔ sumAbove X.lo Y.lo = false ∧ sumBelow X.hi Y.hi = false) ∧
      (Tightest (Set.image2 (· - ·) X.members Y.members) (X - Y)
        ↔ sumAbove X.lo (-Y.hi) = false ∧ sumBelow X.hi (-Y.lo) = false) ∧
      ((∀ a ∈ [X.lo, X.hi], ∀ b ∈ [Y.lo, Y.hi],
          real a * real b = 0 ∨ residualFloor ≤ (a * b).abs) →
        Tightest (Set.image2 (· * ·) X.members Y.members) (X * Y)) ∧
      ((0 : ℝ) ∉ Y → (∀ a ∈ [X.lo, X.hi], real a = 0 ∨ residualFloor ≤ a.abs) →
        (∀ a ∈ [X.lo, X.hi], ∀ b ∈ [Y.lo, Y.hi], real a = 0 ∨ residualFloor ≤ (a / b).abs) →
        Tightest (Set.image2 (· / ·) X.members Y.members) (X / Y)) :=
  ⟨add_tightest_iff hX hY hXl hXh hYl hYh, sub_tightest_iff hX hY hXl hXh hYl hYh,
    mul_tightest hX hY hXl hXh hYl hYh, div_tightest hX hY hXl hXh hYl hYh⟩

/-- The four operations on `[5, 7]` and `[3, 11]` give the smallest intervals. -/
theorem operations_tightest_five_seven :
    Tightest (Set.image2 (· + ·) (members ⟨5, 7⟩) (members ⟨3, 11⟩)) (⟨5, 7⟩ + ⟨3, 11⟩) ∧
      Tightest (Set.image2 (· - ·) (members ⟨5, 7⟩) (members ⟨3, 11⟩)) (⟨5, 7⟩ - ⟨3, 11⟩) ∧
      Tightest (Set.image2 (· * ·) (members ⟨5, 7⟩) (members ⟨3, 11⟩)) (⟨5, 7⟩ * ⟨3, 11⟩) ∧
      Tightest (Set.image2 (· / ·) (members ⟨5, 7⟩) (members ⟨3, 11⟩)) (⟨5, 7⟩ / ⟨3, 11⟩) := by
  have h := operations_tightest (X := ⟨5, 7⟩) (Y := ⟨3, 11⟩) (by decide) (by decide) (by decide)
    (by decide) (by decide) (by decide)
  have hprod : ∀ a ∈ [(5 : Float), 7], ∀ b ∈ [(3 : Float), 11], residualFloor ≤ (a * b).abs := by
    decide +kernel
  have hends : ∀ a ∈ [(5 : Float), 7], residualFloor ≤ a.abs := by decide +kernel
  have hquot : ∀ a ∈ [(5 : Float), 7], ∀ b ∈ [(3 : Float), 11], residualFloor ≤ (a / b).abs := by
    decide +kernel
  have h0 : (0 : ℝ) ∉ (⟨3, 11⟩ : Interval) := by
    rw [zero_mem_iff ⟨by decide, by decide⟩]
    decide
  exact ⟨h.1.mpr (by decide +kernel), h.2.1.mpr (by decide +kernel),
    h.2.2.1 fun a ha b hb => .inr (hprod a ha b hb),
    h.2.2.2 h0 (fun a ha => .inr (hends a ha)) fun a ha b hb => .inr (hquot a ha b hb)⟩

/-- **A sum that is not the smallest interval**: `-3 · 2 ^ 970` and the largest float. It is a point
beside the exact sum. -/
theorem add_not_tightest :
    ¬Tightest (Set.image2 (· + ·) (members (point (.ofBits 0xFCA8000000000000)))
        (members (point largest)))
      (point (.ofBits 0xFCA8000000000000) + point largest) := by
  rw [add_tightest_iff (by decide +kernel) (by decide +kernel) (by decide +kernel)
    (by decide +kernel) (by decide +kernel) (by decide +kernel)]
  decide +kernel

end CertifiedZeros.Interval
