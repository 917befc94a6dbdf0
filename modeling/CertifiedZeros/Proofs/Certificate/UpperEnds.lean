import CertifiedZeros.Proofs.Certificate.Agreement
import CertifiedZeros.Proofs.Certificate.Roots
import CertifiedZeros.Proofs.Interval.Monotone

/-! # The radii polynomial at the upper ends of bounds of norms

Over bounds without negative members, and at a radius that is not negative, the upper end of the
polynomial is computed from the upper ends of the bounds.

* **`IsBound`**, **`Bounds.OfNorms`** — intervals, and triples of them, without negative members.
* **`polynomialAbove`** — the polynomial of float bounds with every step rounded up, which is the upper
  end of the polynomial over intervals (**`OfNorms.polynomialAt_turned`**).
* **`polynomialAbove_neg_iff`** — it is negative when the square and the float after `y0` together do
  not exceed the linear term.
* **`polynomialAbove_neg_better`** — it stays negative when the bounds get better. -/

namespace CertifiedZeros

open Binary64 CertifiedZeros.Interval

namespace Interval

variable {X Y : Interval} {e : Float}

/-- **A bound of a norm**: an interval without negative members. -/
def IsBound (X : Interval) : Prop := 0 ≤ X.lo ∧ X.lo ≤ X.hi

theorem IsBound.spec (h : X.IsBound) :
    X.HasNumbers ∧ 0 ≤ value X.lo ∧ value X.lo ≤ value X.hi ∧ 0 ≤ value X.hi := by
  obtain ⟨-, hl, h0⟩ := le_iff.mp h.1
  obtain ⟨-, hh, hle⟩ := le_iff.mp h.2
  rw [value_zero] at h0
  exact ⟨⟨hl, hh⟩, h0, hle, h0.trans hle⟩

/-- **The upper end of a product** of a bound and an interval whose upper end is not negative. -/
theorem IsBound.mul_hi (hX : X.IsBound) (hY : Y.lo ≤ Y.hi) (h0 : 0 ≤ value Y.hi)
    (hzero : value Y.hi = 0 → value Y.lo = 0) :
    Binary64.Turned false (ofProduct X.hi Y.hi).hi (X * Y).hi := by
  obtain ⟨hnum, hlo0, hlohi, hhi0⟩ := hX.spec
  obtain ⟨hYl, hYh, hYle⟩ := le_iff.mp hY
  have hlast := ofProduct_brackets hnum.2 hYh
  rw [mul_def]
  split_ifs with h
  · have hends : ((X.hi == 0) || (Y.hi == 0)) = true := by
      rw [Bool.or_eq_true] at h ⊢
      exact h.imp (fun h => ((Bool.and_eq_true _ _).mp h).2) fun h => ((Bool.and_eq_true _ _).mp h).2
    rw [ofProduct, if_pos hends]
    exact .refl _
  · have hcorner : ∀ a ∈ [X.lo, X.hi], ∀ b ∈ [Y.lo, Y.hi], IsNumber a ∧ IsNumber b ∧
        value a * value b ≤ value X.hi * value Y.hi ∧
          (value X.hi * value Y.hi = 0 → value a * value b = 0) := by
      intro a ha b hb
      obtain ⟨hanum, ha0, hale⟩ : IsNumber a ∧ 0 ≤ value a ∧ value a ≤ value X.hi := by
        rcases List.mem_pair.mp ha with rfl | rfl
        · exact ⟨hnum.1, hlo0, hlohi⟩
        · exact ⟨hnum.2, hhi0, le_rfl⟩
      obtain ⟨hbnum, hble, hbzero⟩ : IsNumber b ∧ value b ≤ value Y.hi ∧
          (value Y.hi = 0 → value b = 0) := by
        rcases List.mem_pair.mp hb with rfl | rfl
        · exact ⟨hYl, hYle, hzero⟩
        · exact ⟨hYh, le_rfl, id⟩
      refine ⟨hanum, hbnum, ?_, fun hprod => ?_⟩
      · exact (mul_le_mul_of_nonneg_left hble ha0).trans (mul_le_mul_of_nonneg_right hale h0)
      · rcases mul_eq_zero.mp hprod with h | h
        · rw [le_antisymm (h ▸ hale) ha0, zero_mul]
        · rw [hbzero h, mul_zero]
    obtain ⟨hcnum, -, hupper⟩ := corners_spec (f := ofProduct) (X := X) (Y := Y) fun a ha b hb =>
      (ofProduct_brackets (hcorner a ha b hb).1 (hcorner a ha b hb).2.1).hasNumbers
    refine ⟨iff_of_true hcnum.2 hlast.2.1, le_antisymm ?_ ?_⟩
    · obtain ⟨a, ha, b, hb, hle⟩ := (hupper _).mp le_rfl
      obtain ⟨hanum, hbnum, hprod, hz⟩ := hcorner a ha b hb
      exact hle.trans (ofProduct_hi_mono hanum hbnum hnum.2 hYh hprod hz)
    · exact (hupper _).mpr ⟨X.hi, by simp, Y.hi, by simp, le_rfl⟩

/-- **The lower end of a product** of a positive interval and a number that is not negative. -/
theorem mul_point_lo (hX : X.lo ≤ X.hi) (hpos : 0 < value X.lo) (he : 0 ≤ e) :
    Binary64.Turned false (ofProduct X.lo e).lo (X * point e).lo := by
  obtain ⟨hXl, hXh, hXle⟩ := le_iff.mp hX
  obtain ⟨-, henum, he0⟩ := le_iff.mp he
  rw [value_zero] at he0
  rw [mul_def]
  split_ifs with h
  · have hends : ((X.lo == 0) || (e == 0)) = true := by
      rw [Bool.or_eq_true] at h ⊢
      exact h.imp (fun h => ((Bool.and_eq_true _ _).mp h).1) fun h => ((Bool.and_eq_true _ _).mp h).1
    rw [ofProduct, if_pos hends]
    exact .refl _
  · have hcorner : ∀ a ∈ [X.lo, X.hi], ∀ b ∈ [(point e).lo, (point e).hi], IsNumber a ∧ b = e ∧
        value X.lo * value e ≤ value a * value e := by
      intro a ha b hb
      have hbe : b = e := by simpa [point] using hb
      rcases List.mem_pair.mp ha with rfl | rfl
      · exact ⟨hXl, hbe, le_rfl⟩
      · exact ⟨hXh, hbe, mul_le_mul_of_nonneg_right hXle he0⟩
    obtain ⟨hcnum, hlower, -⟩ := corners_spec (f := ofProduct) (X := X) (Y := point e)
      fun a ha b hb => by
        obtain ⟨hanum, rfl, -⟩ := hcorner a ha b hb
        exact (ofProduct_brackets hanum henum).hasNumbers
    refine ⟨iff_of_true hcnum.1 (ofProduct_brackets hXl henum).1, le_antisymm ?_ ?_⟩
    · exact (hlower _).mpr ⟨X.lo, by simp, e, by simp [point], le_rfl⟩
    · obtain ⟨a, ha, b, hb, hle⟩ := (hlower _).mp le_rfl
      obtain ⟨hanum, rfl, hprod⟩ := hcorner a ha b hb
      refine le_trans (ofProduct_lo_mono hXl henum hanum henum hprod fun hz => ?_) hle
      rw [(mul_eq_zero.mp hz).resolve_left hpos.ne', mul_zero]

/-- **The square of a number that is not negative.** -/
theorem point_square (he : 0 ≤ e) : point e ^ (2 : ℕ) = ⟨powerBelow e 2, powerAbove e 2⟩ := by
  change (point e).power 2 = _
  have habs : (point e).abs = point e := if_pos he
  rw [power, if_neg (by decide), if_pos (by decide), habs]
  rfl

/-- The chain rounded down stays below the chain rounded up. -/
theorem powerBelow_le_powerAbove (he : 0 ≤ e) (n : ℕ) : powerBelow e n ≤ powerAbove e n := by
  obtain ⟨-, henum, he0⟩ := le_iff.mp he
  rw [value_zero] at he0
  induction n with
  | zero => exact le_iff.mpr ⟨one_isNumber, one_isNumber, le_rfl⟩
  | succ n ih =>
    obtain ⟨hbelow, habove, hle⟩ := le_iff.mp ih
    obtain ⟨hl, -, hlo, -⟩ := ofProduct_brackets hbelow henum
    obtain ⟨-, hh, -, hhi⟩ := ofProduct_brackets habove henum
    rw [powerBelow_succ, powerAbove_succ]
    exact le_iff.mpr ⟨hl, hh, (hlo.trans (mul_le_mul_of_nonneg_right hle he0)).trans hhi⟩

/-- A square rounded up is zero only for zero. -/
theorem eq_zero_of_powerAbove (he : 0 ≤ e) (h : value (powerAbove e 2) = 0) : (e == 0) = true := by
  obtain ⟨-, henum, he0⟩ := le_iff.mp he
  rw [value_zero] at he0
  rw [beq_zero_iff henum]
  by_contra hne
  obtain ⟨r, hr0, hr⟩ := EReal.lt_iff_exists_real_btwn.mp (lt_of_le_of_ne he0 (Ne.symm hne))
  have hpos : 0 < r := by exact_mod_cast hr0
  have hle := (powerAbove_spec henum hpos.le hr.le 2).2
  rw [h] at hle
  exact absurd hle (not_le.mpr (by exact_mod_cast pow_pos hpos 2))

end Interval

namespace Bounds

/-- **Bounds of norms**, none of which has negative members. -/
structure OfNorms (b : Bounds Interval) : Prop where
  y0 : b.y0.IsBound
  z0 : b.z0.IsBound
  z2 : b.z2.IsBound

/-- The quadratic term of the polynomial, rounded up. -/
def squareAbove (u : Bounds Float) (e : Float) : Float := (ofProduct u.z2 (powerAbove e 2)).hi

/-- The slope of the linear term, rounded down. -/
def gapBelow (u : Bounds Float) : Float := (ofSum 1 (-u.z0)).lo

/-- The linear term of the polynomial, rounded down. -/
def descentBelow (u : Bounds Float) (e : Float) : Float := (ofProduct u.gapBelow e).lo

/-- **The polynomial, rounded up** at every step. -/
def polynomialAbove (u : Bounds Float) (e : Float) : Float :=
  (ofSum (ofSum (u.squareAbove e) (-u.descentBelow e)).hi u.y0).hi

variable {b : Bounds Interval} {u u' : Bounds Float} {e : Float}

theorem OfNorms.upper_nonneg (hb : b.OfNorms) :
    0 ≤ b.upper.y0 ∧ 0 ≤ b.upper.z0 ∧ 0 ≤ b.upper.z2 := by
  have hnonneg : ∀ {X : Interval}, X.IsBound → 0 ≤ X.hi := by
    intro X hX
    obtain ⟨hnum, -, -, h0⟩ := hX.spec
    exact nonneg_of_value hnum.2 h0
  exact ⟨hnonneg hb.y0, hnonneg hb.z0, hnonneg hb.z2⟩

theorem OfNorms.contracting (hb : b.OfNorms) (hz : b.upper.z0 < 1) : b.upper.Contracting := by
  obtain ⟨hy, hz0, hZ⟩ := hb.upper_nonneg
  exact ⟨hy, hz0, hZ, hz⟩

/-- Float bounds that are not negative are bounds of norms, as points. -/
theorem ofNorms_lift (hy : 0 ≤ u.y0) (hz : 0 ≤ u.z0) (hZ : 0 ≤ u.z2) : u.lift.OfNorms := by
  have hpoint : ∀ {x : Float}, 0 ≤ x → (point x).IsBound := by
    intro x hx
    obtain ⟨hnum, -⟩ := nonneg_spec hx
    exact ⟨hx, le_iff.mpr ⟨hnum, hnum, le_rfl⟩⟩
  exact ⟨hpoint hy, hpoint hz, hpoint hZ⟩

/-! ## The terms -/

namespace Contracting

theorem gapBelow_spec (h : u.Contracting) : u.gapBelow.isFinite = true ∧
    (2 : ℝ) ^ (-53 : ℤ) ≤ real u.gapBelow ∧ real u.gapBelow ≤ 1 - real u.z0 := by
  obtain ⟨hzfin, hz0, hz1⟩ := h.z0_spec
  obtain ⟨hnegfin, hneg⟩ := neg_finite hzfin
  obtain ⟨hlo, -, hspec, -⟩ := ofSum_spec isFinite_one hnegfin
  have hle := hspec.mpr (sumAbove_one _)
  rw [real_one, hneg, ← sub_eq_add_neg] at hle
  -- the power of two that is left at least is a float
  obtain ⟨g, hg, hgreal⟩ := exists_float (representable_zpow (show (-1074 : ℤ) ≤ -53 by norm_num))
    (by rw [abs_of_pos (zpow_two_pos _)]; exact zpow_two_lt (by norm_num))
  have hge := le_ofSum_lo (add_spec isFinite_one hnegfin).1 (isNumber_of_isFinite hg) (by
    rw [← coe_real hg, ← coe_real isFinite_one, ← coe_real hnegfin, ← EReal.coe_add,
      EReal.coe_le_coe_iff, hgreal, real_one, hneg, ← sub_eq_add_neg]
    exact h.zpow_le_one_sub)
  change IsNumber u.gapBelow at hlo
  change value u.gapBelow ≤ _ at hle
  change value g ≤ value u.gapBelow at hge
  rw [← coe_real hg, hgreal] at hge
  have hfin := isFinite_of_between hlo hge hle
  rw [← coe_real hfin, EReal.coe_le_coe_iff] at hle hge
  exact ⟨hfin, hge, hle⟩

theorem gapBelow_pos (h : u.Contracting) : 0 < real u.gapBelow :=
  (zpow_two_pos _).trans_le h.gapBelow_spec.2.1

theorem powerAbove_nonneg (he : 0 ≤ e) : IsNumber (powerAbove e 2) ∧ 0 ≤ value (powerAbove e 2) := by
  obtain ⟨henum, he0⟩ := nonneg_spec he
  obtain ⟨hnum, hle⟩ := powerAbove_spec henum le_rfl (r := 0) (by exact_mod_cast he0) 2
  refine ⟨hnum, ?_⟩
  rw [zero_pow two_ne_zero, EReal.coe_zero] at hle
  exact hle

theorem squareAbove_spec (h : u.Contracting) (he : 0 ≤ e) : IsNumber (u.squareAbove e) ∧
    value u.z2 * value (powerAbove e 2) ≤ value (u.squareAbove e) ∧ 0 ≤ value (u.squareAbove e) := by
  obtain ⟨hZnum, hZ0⟩ := nonneg_spec h.z2_nonneg
  obtain ⟨hpnum, hp0⟩ := powerAbove_nonneg he
  obtain ⟨-, hnum, -, hle⟩ := ofProduct_brackets hZnum hpnum
  exact ⟨hnum, hle, (mul_nonneg hZ0 hp0).trans hle⟩

/-- **The linear term is finite** at a finite radius. -/
theorem descentBelow_spec (h : u.Contracting) (he : 0 ≤ e) (hfin : e.isFinite = true) :
    (u.descentBelow e).isFinite = true ∧ real (u.descentBelow e) ≤ real u.gapBelow * real e := by
  obtain ⟨hgfin, -, -⟩ := h.gapBelow_spec
  have he0 := real_nonneg he hfin
  have hterm : 0 ≤ real u.gapBelow * real e := mul_nonneg h.gapBelow_pos.le he0
  obtain ⟨hlo, -, hle, -⟩ := ofProduct_brackets (isNumber_of_isFinite hgfin)
    (isNumber_of_isFinite hfin)
  rw [← coe_real hgfin, ← coe_real hfin, ← EReal.coe_mul] at hle
  -- it may be rounded below zero, but not below minus one
  obtain ⟨hnegfin, hneg⟩ := neg_finite isFinite_one
  have hge := le_ofProduct_lo hgfin hfin hnegfin (by rw [hneg, real_one]; linarith) (by
    intro _ _
    rw [(mul_spec hgfin hfin).2, ← coe_real hnegfin, hneg, real_one]
    refine lt_of_lt_of_le ?_ (clamp_nonneg (le_rounded representable_zero hterm))
    exact_mod_cast (by norm_num : (-1 : ℝ) < 0))
  have hdfin : (u.descentBelow e).isFinite = true :=
    isFinite_of_between hlo ((coe_real hnegfin).le.trans hge) hle
  change value (u.descentBelow e) ≤ _ at hle
  rw [← coe_real hdfin, EReal.coe_le_coe_iff] at hle
  exact ⟨hdfin, hle⟩

end Contracting

/-- **The upper end of the polynomial is the polynomial rounded up** of the upper ends. -/
theorem OfNorms.polynomialAt_turned (hb : b.OfNorms) (hz : b.upper.z0 < 1) (he : 0 ≤ e) :
    Binary64.Turned false (b.upper.polynomialAbove e) (b.polynomialAt (point e)).hi := by
  have hc := hb.contracting hz
  obtain ⟨henum, he0⟩ := nonneg_spec he
  have hsquare : Binary64.Turned false (b.upper.squareAbove e) (b.z2 * point e ^ (2 : ℕ)).hi := by
    rw [point_square he]
    refine hb.z2.mul_hi (powerBelow_le_powerAbove he 2) (Contracting.powerAbove_nonneg he).2 ?_
    intro hzero
    -- the square of zero is exact
    have h0 := eq_zero_of_powerAbove he hzero
    have hbelow : powerBelow e 2 = 0 := by
      rw [powerBelow_succ, ofProduct, if_pos (by rw [h0, Bool.or_true])]
      rfl
    rw [mk_lo, hbelow]
    exact value_zero
  have hdescent : Binary64.Turned false (b.upper.descentBelow e) ((1 - b.z0) * point e).lo := by
    have hlo : (1 - b.z0).lo = b.upper.gapBelow := by
      rw [sub_lo, one_lo]
      rfl
    have hends : (1 - b.z0).lo ≤ (1 - b.z0).hi :=
      le_of_mem (one_sub_mem (hi_mem hb.z0.2 hc.z0_spec.1))
    have hproduct := mul_point_lo hends (by
      rw [hlo, ← coe_real hc.gapBelow_spec.1]
      exact_mod_cast hc.gapBelow_pos) he
    rw [hlo] at hproduct
    exact hproduct
  rw [polynomialAt_def, add_hi, sub_hi]
  exact (turned_ofSum (f := false) (turned_ofSum (f := false) hsquare hdescent.neg).2 (.refl _)).2

/-! ## When the polynomial is negative -/

/-- Moving a real number and a sign across an inequality of extended reals. -/
theorem add_neg_le_neg_iff {a n : EReal} {l : ℝ} (ha : a ≠ ⊥) (hn : n ≠ ⊥) :
    a + ((-l : ℝ) : EReal) ≤ -n ↔ a + n ≤ l := by
  induction a with
  | bot => exact absurd rfl ha
  | top =>
    rw [EReal.top_add_of_ne_bot hn, EReal.top_add_of_ne_bot (EReal.coe_ne_bot _), top_le_iff,
      top_le_iff, EReal.neg_eq_top_iff]
    exact iff_of_false hn (EReal.coe_ne_top l)
  | coe a =>
    induction n with
    | bot => exact absurd rfl hn
    | top =>
      rw [EReal.add_top_of_ne_bot ha, EReal.neg_top, le_bot_iff, top_le_iff, ← EReal.coe_add]
      exact iff_of_false (EReal.coe_ne_bot _) (EReal.coe_ne_top l)
    | coe n =>
      rw [← EReal.coe_add, ← EReal.coe_add, ← EReal.coe_neg, EReal.coe_le_coe_iff,
        EReal.coe_le_coe_iff]
      constructor <;> intro h <;> linarith

/-- A sum is negative exactly when the one term lies below the opposite of the other. -/
theorem add_neg_iff {a n : EReal} (ha : a ≠ ⊥) (hn : n ≠ ⊥) : a + n < 0 ↔ a < -n := by
  induction n with
  | bot => exact absurd rfl hn
  | top =>
    rw [EReal.add_top_of_ne_bot ha, EReal.neg_top]
    exact iff_of_false not_top_lt not_lt_bot
  | coe n =>
    induction a with
    | bot => exact absurd rfl ha
    | top =>
      rw [EReal.top_add_of_ne_bot hn]
      exact iff_of_false not_top_lt not_top_lt
    | coe a =>
      rw [← EReal.coe_add, ← EReal.coe_neg, EReal.coe_neg', EReal.coe_lt_coe_iff]
      constructor <;> intro h <;> linarith

namespace Contracting

/-- **The difference of the terms keeps its error**: against the largest float as linear term, the
square would be infinite. -/
theorem difference_kept (h : u.Contracting) (he : 0 ≤ e) (hfin : e.isFinite = true) :
    sumBelow (u.squareAbove e) (-u.descentBelow e) = false := by
  by_contra hlost
  rw [Bool.not_eq_false] at hlost
  obtain ⟨hdfin, hdle⟩ := h.descentBelow_spec he hfin
  obtain ⟨hneg, hlarge⟩ := sumBelow_spec hlost
  rw [(neg_finite hdfin).2] at hneg
  have he0 := real_nonneg he hfin
  have hunit := topUnit_pos
  have hlimit := limit_eq
  -- the radius is at least the largest float, because the slope is at most one
  have hradius : limit - topUnit ≤ real e := by
    have hslope := mul_le_mul_of_nonneg_right h.gapBelow_spec.2.2 he0
    have hz := h.z0_spec.2.1
    nlinarith
  have hsquare : value (powerAbove e 2) = ⊤ := by
    obtain ⟨hnum, hle⟩ := powerAbove_spec (isNumber_of_isFinite hfin) he0 (coe_real hfin).le 2
    by_contra hne
    have hpfin : (powerAbove e 2).isFinite = true := by
      rcases hnum.cases with hpfin | ⟨-, htop | hbot⟩
      · exact hpfin
      · exact absurd htop hne
      · rw [hbot, le_bot_iff] at hle
        exact absurd hle (EReal.coe_ne_bot _)
    rw [← coe_real hpfin, EReal.coe_le_coe_iff] at hle
    have hlt := lt_of_abs_lt (abs_real_lt hpfin)
    nlinarith [two_lt_topUnit]
  obtain ⟨hZnum, hZ0⟩ := nonneg_spec h.z2_nonneg
  have hsfin := (isFinite_of_sumBelow hlost).1
  rcases hZ0.eq_or_lt with hzero | hpos
  · have hdef : u.squareAbove e = 0 := by
      rw [squareAbove, ofProduct, if_pos (by rw [(beq_zero_iff hZnum).mpr hzero.symm, Bool.true_or])]
      rfl
    rw [hdef, real_zero] at hlarge
    linarith
  · have hle := (h.squareAbove_spec he).2.1
    rw [hsquare, EReal.mul_top_of_pos hpos, top_le_iff, ← coe_real hsfin] at hle
    exact EReal.coe_ne_top _ hle

/-- **When the polynomial, rounded up, is negative**: when the square and the float after `y0`
together are at most the linear term. -/
theorem polynomialAbove_neg_iff (h : u.Contracting) (he : 0 ≤ e) (hfin : e.isFinite = true) :
    u.polynomialAbove e < 0 ↔ value (u.squareAbove e) + value (nextUp u.y0)
      ≤ ((real (u.descentBelow e) : ℝ) : EReal) := by
  obtain ⟨hsnum, -, hs0⟩ := h.squareAbove_spec he
  obtain ⟨hdfin, -⟩ := h.descentBelow_spec he hfin
  obtain ⟨hynum, hy0⟩ := nonneg_spec h.y0_nonneg
  obtain ⟨hnegfin, hneg⟩ := neg_finite hdfin
  have hnegnum := isNumber_of_isFinite hnegfin
  have hsbot : value (u.squareAbove e) ≠ ⊥ := (EReal.bot_lt_zero.trans_le hs0).ne'
  have hybot : value u.y0 ≠ ⊥ := (EReal.bot_lt_zero.trans_le hy0).ne'
  have hnextbot : value (nextUp u.y0) ≠ ⊥ :=
    (EReal.bot_lt_zero.trans_le (hy0.trans (le_nextUp hynum))).ne'
  have hdbot : value (-u.descentBelow e) ≠ ⊥ := by
    rw [← coe_real hnegfin]
    exact EReal.coe_ne_bot _
  have hkept := h.difference_kept he hfin
  have hDnum := (ofSum_hi_spec hsnum hnegnum hsbot hdbot).1
  have hDbot := (le_ofSum_hi hsnum hnegnum hsbot hdbot).1
  -- the float before `-y0` is the opposite of the float after `y0`
  have hprev : value (nextDown (-u.y0)) = -value (nextUp u.y0) :=
    ((Binary64.turned_neg u.y0).nextUp_nextDown).2
  calc u.polynomialAbove e < 0
      ↔ value (ofSum (u.squareAbove e) (-u.descentBelow e)).hi + value u.y0 < 0 :=
        ofSum_hi_neg_iff hDnum hynum hDbot hybot (sumBelow_of_nonneg le_rfl hy0)
    _ ↔ value (ofSum (u.squareAbove e) (-u.descentBelow e)).hi < value (-u.y0) := by
        rw [add_neg_iff hDbot hybot, value_neg hynum]
    _ ↔ value (ofSum (u.squareAbove e) (-u.descentBelow e)).hi ≤ value (nextDown (-u.y0)) := by
        constructor
        · exact le_nextDown_of_value_lt (isNumber_neg hynum) hDnum
        · intro hle
          refine hle.trans_lt (nextDown_lt (isNumber_neg hynum) fun hbot => hDbot ?_)
          exact le_bot_iff.mp (hle.trans ((nextDown_le (isNumber_neg hynum)).trans_eq hbot))
    _ ↔ value (u.squareAbove e) + value (-u.descentBelow e) ≤ value (nextDown (-u.y0)) :=
        ofSum_hi_le_iff hsnum hnegnum hsbot hdbot hkept (isNumber_nextDown (isNumber_neg hynum))
    _ ↔ _ := by
        rw [hprev, ← coe_real hnegfin, hneg]
        exact add_neg_le_neg_iff hsbot hnextbot

/-- **A radius at which the polynomial is negative is positive.** -/
theorem pos_of_polynomialAbove_neg (h : u.Contracting) (he : 0 ≤ e) (hfin : e.isFinite = true)
    (hneg : u.polynomialAbove e < 0) : 0 < real e := by
  obtain ⟨hynum, hy0⟩ := nonneg_spec h.y0_nonneg
  have hle := (h.polynomialAbove_neg_iff he hfin).mp hneg
  refine lt_of_le_of_ne (real_nonneg he hfin) fun h0 => ?_
  have hdescent := (h.descentBelow_spec he hfin).2
  rw [← h0, mul_zero] at hdescent
  have hnext : 0 < value (nextUp u.y0) := by
    by_cases htop : value u.y0 = ⊤
    · exact EReal.zero_lt_top.trans_le (htop ▸ le_nextUp hynum)
    · exact hy0.trans_lt (lt_nextUp hynum htop)
  have hpos := hnext.trans_le (le_add_of_nonneg_left (h.squareAbove_spec he).2.2)
  exact absurd (hpos.trans_le hle) (not_lt.mpr (by exact_mod_cast hdescent))

/-! ## Better bounds -/

theorem gapBelow_le (h : u.Contracting) (hb : u'.Better u) (h' : u'.Contracting) :
    real u.gapBelow ≤ real u'.gapBelow := by
  obtain ⟨hgfin, -, hle⟩ := h.gapBelow_spec
  obtain ⟨hgfin', -, -⟩ := h'.gapBelow_spec
  obtain ⟨hnegfin, hneg⟩ := neg_finite h'.z0_spec.1
  have hzle := real_le_real hb.z0_le h'.z0_spec.1 h.z0_spec.1
  have hlo := le_ofSum_lo (add_spec isFinite_one hnegfin).1 (isNumber_of_isFinite hgfin) (by
    rw [← coe_real hgfin, ← coe_real isFinite_one, ← coe_real hnegfin, ← EReal.coe_add,
      EReal.coe_le_coe_iff, real_one, hneg]
    linarith)
  change value u.gapBelow ≤ value u'.gapBelow at hlo
  rwa [← coe_real hgfin, ← coe_real hgfin', EReal.coe_le_coe_iff] at hlo

/-- **Better bounds have a smaller polynomial**: where it is negative, it stays negative. -/
theorem polynomialAbove_neg_better (h : u.Contracting) (h' : u'.Contracting) (hb : u'.Better u)
    (he : 0 ≤ e) (hfin : e.isFinite = true) (hneg : u.polynomialAbove e < 0) :
    u'.polynomialAbove e < 0 := by
  obtain ⟨hpnum, hp0⟩ := powerAbove_nonneg he
  obtain ⟨hZnum, hZ0⟩ := nonneg_spec h.z2_nonneg
  obtain ⟨hZnum', hZ0'⟩ := nonneg_spec h'.z2_nonneg
  have hZle := (le_iff.mp hb.z2_le).2.2
  have he0 := real_nonneg he hfin
  have hsquare : value (u'.squareAbove e) ≤ value (u.squareAbove e) := by
    refine ofProduct_hi_mono hZnum' hpnum hZnum hpnum (mul_le_mul_of_nonneg_right hZle hp0) ?_
    intro hzero
    rcases mul_eq_zero.mp hzero with hz | hz
    · rw [le_antisymm (hz ▸ hZle) hZ0', zero_mul]
    · rw [hz, mul_zero]
  have hnext : value (nextUp u'.y0) ≤ value (nextUp u.y0) := by
    obtain ⟨hynum', hynum, hle⟩ := le_iff.mp hb.y0_le
    rcases hle.eq_or_lt with heq | hlt
    · have hturned : Binary64.Turned false u'.y0 u.y0 := ⟨iff_of_true hynum hynum', heq.symm⟩
      exact hturned.nextUp.2.ge
    · exact (nextUp_le_of_value_lt hynum' hynum hlt).trans (le_nextUp hynum)
  have hdescent : real (u.descentBelow e) ≤ real (u'.descentBelow e) := by
    obtain ⟨hgfin, -, -⟩ := h.gapBelow_spec
    obtain ⟨hgfin', -, -⟩ := h'.gapBelow_spec
    have hlo : value (u.descentBelow e) ≤ value (u'.descentBelow e) := by
      refine ofProduct_lo_mono (isNumber_of_isFinite hgfin) (isNumber_of_isFinite hfin)
        (isNumber_of_isFinite hgfin') (isNumber_of_isFinite hfin) ?_ ?_
      · rw [← coe_real hgfin, ← coe_real hgfin', ← coe_real hfin, ← EReal.coe_mul, ← EReal.coe_mul,
          EReal.coe_le_coe_iff]
        exact mul_le_mul_of_nonneg_right (h.gapBelow_le hb h') he0
      · intro hzero
        rcases mul_eq_zero.mp hzero with hz | hz
        · rw [← coe_real hgfin, EReal.coe_eq_zero] at hz
          exact absurd hz h.gapBelow_pos.ne'
        · rw [hz, mul_zero]
    rwa [← coe_real (h.descentBelow_spec he hfin).1, ← coe_real (h'.descentBelow_spec he hfin).1,
      EReal.coe_le_coe_iff] at hlo
  rw [h.polynomialAbove_neg_iff he hfin] at hneg
  rw [h'.polynomialAbove_neg_iff he hfin]
  calc value (u'.squareAbove e) + value (nextUp u'.y0)
      ≤ value (u.squareAbove e) + value (nextUp u.y0) := add_le_add hsquare hnext
    _ ≤ ((real (u.descentBelow e) : ℝ) : EReal) := hneg
    _ ≤ ((real (u'.descentBelow e) : ℝ) : EReal) := EReal.coe_le_coe_iff.mpr hdescent

end Contracting

end Bounds

end CertifiedZeros
