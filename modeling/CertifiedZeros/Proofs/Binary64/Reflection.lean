import CertifiedZeros.Binary64.Power
import CertifiedZeros.Proofs.Binary64.Neighbours

/-! # Floats up to the sign

Rounding to nearest does not know which side of zero it is on: what an operation makes of the
opposite numbers is the opposite number. The sign of a zero and the payload of a NaN are no part of
that, so floats are compared as numbers.

* **`value_add`**, **`value_mul`**, **`value_div`** — an operation on any two numbers, infinite ones
  included, as a rounded operation on extended reals.
* **`Turned flip a a'`** — `a'` is the number `a`, or its opposite when `flip` is set.
* **`Turned.add`**, **`Turned.mul`**, **`Turned.div`**, **`Turned.nextUp`** — what operations make of
  such pairs. -/

namespace CertifiedZeros.Binary64

open Float.Model (UnpackedFloat)
open Float.Model.Format (binary64)

variable {x y : Float}

/-! ## Operations on extended reals -/

/-- **Rounding of an extended real.** The infinities stay. -/
noncomputable def roundedValue (v : EReal) : EReal :=
  if v = ⊤ ∨ v = ⊥ then v else clamp (rounded v.toReal)

theorem roundedValue_coe (r : ℝ) : roundedValue r = clamp (rounded r) := by
  rw [roundedValue, if_neg (by simp), EReal.toReal_coe]

theorem roundedValue_of_infinite {v : EReal} (h : v = ⊤ ∨ v = ⊥) : roundedValue v = v := if_pos h

theorem roundedValue_neg (v : EReal) : roundedValue (-v) = -roundedValue v := by
  induction v with
  | bot => rw [EReal.neg_bot, roundedValue_of_infinite (.inl rfl), roundedValue_of_infinite (.inr rfl),
      EReal.neg_bot]
  | top => rw [EReal.neg_top, roundedValue_of_infinite (.inr rfl), roundedValue_of_infinite (.inl rfl),
      EReal.neg_top]
  | coe r => rw [← EReal.coe_neg, roundedValue_coe, roundedValue_coe, rounded_neg, clamp_neg]

theorem value_of_not_isNumber (h : ¬IsNumber x) : value x = 0 := by
  rw [value, unpack_of_not_isNumber h, unpackedValue]

/-- Opposite infinities. -/
def Opposed (u v : EReal) : Prop := u = ⊤ ∧ v = ⊥ ∨ u = ⊥ ∧ v = ⊤

/-- **A sum of numbers** is the rounded sum of their values, unless they are opposite infinities. -/
theorem value_add (hx : IsNumber x) (hy : IsNumber y) :
    (IsNumber (x + y) ↔ ¬Opposed (value x) (value y)) ∧
      (¬Opposed (value x) (value y) → value (x + y) = roundedValue (value x + value y)) := by
  by_cases hfin : x.isFinite = true ∧ y.isFinite = true
  · obtain ⟨hnum, hvalue⟩ := add_spec hfin.1 hfin.2
    rw [← coe_real hfin.1, ← coe_real hfin.2, ← EReal.coe_add, roundedValue_coe]
    exact ⟨iff_of_true hnum (by simp [Opposed]), fun _ => hvalue⟩
  · rw [not_and_or, Bool.not_eq_true, Bool.not_eq_true] at hfin
    have hsum : ¬Opposed (value x) (value y) → IsNumber (x + y) ∧ value (x + y) = value x + value y :=
      fun h => add_infinite hx hy hfin (fun h' => h (.inl h')) fun h' => h (.inr h')
    refine ⟨⟨fun hnum h => add_opposite hx hy h hnum, fun h => (hsum h).1⟩, fun h => ?_⟩
    rw [(hsum h).2, roundedValue_of_infinite]
    rcases hfin with hinf | hinf
    · rcases hx.value_of_not_isFinite hinf with h' | h'
      · rw [h'] at h ⊢
        exact .inl (EReal.top_add_of_ne_bot fun hbot => h (.inl ⟨rfl, hbot⟩))
      · exact .inr (by rw [h', EReal.bot_add])
    · rcases hy.value_of_not_isFinite hinf with h' | h'
      · rw [h'] at h ⊢
        exact .inl (EReal.add_top_of_ne_bot fun hbot => h (.inr ⟨hbot, rfl⟩))
      · exact .inr (by rw [h', EReal.add_bot])

/-- A product or quotient of an infinity with a zero. -/
def Indefinite (u v : EReal) : Prop := (u = ⊤ ∨ u = ⊥) ∧ v = 0 ∨ u = 0 ∧ (v = ⊤ ∨ v = ⊥)

theorem unpack_of_value_zero (hx : IsNumber x) (h : value x = 0) :
    ∃ s, x.toModel.unpack = .zero s := by
  have hfin : x.isFinite = true := isFinite_of_value hx (r := 0) h
  rcases finite_cases hfin with ⟨s, hs, -⟩ | ⟨s, m, e, hm, -, hreal, -⟩
  · exact ⟨s, hs⟩
  · have hzero : real x = 0 := real_eq_of_value h
    rw [hreal] at hzero
    have hpos : (0 : ℝ) < m * (2 : ℝ) ^ e := mul_pos (by exact_mod_cast hm) (zpow_two_pos e)
    cases s with
    | negative => rw [signFactor] at hzero; linarith
    | positive => rw [signFactor] at hzero; linarith

/-- **An infinity times zero is a NaN.** -/
theorem mul_indefinite (hx : IsNumber x) (hy : IsNumber y) (h : Indefinite (value x) (value y)) :
    ¬IsNumber (x * y) := by
  rcases h with ⟨hinf, hzero⟩ | ⟨hzero, hinf⟩
  · obtain ⟨s, hs, -⟩ := infinite_cases hx (isFinite_eq_false hinf)
    obtain ⟨t, ht⟩ := unpack_of_value_zero hy hzero
    exact not_isNumber_of_pack (u := x.toModel.unpack.mul binary64 y.toModel.unpack) (by rw [hs, ht]; rfl)
  · obtain ⟨s, hs⟩ := unpack_of_value_zero hx hzero
    obtain ⟨t, ht, -⟩ := infinite_cases hy (isFinite_eq_false hinf)
    exact not_isNumber_of_pack (u := x.toModel.unpack.mul binary64 y.toModel.unpack) (by rw [hs, ht]; rfl)

/-- **A product of numbers** is the rounded product of their values, unless it is infinity times zero. -/
theorem value_mul (hx : IsNumber x) (hy : IsNumber y) :
    (IsNumber (x * y) ↔ ¬Indefinite (value x) (value y)) ∧
      (¬Indefinite (value x) (value y) → value (x * y) = roundedValue (value x * value y)) := by
  by_cases hfin : x.isFinite = true ∧ y.isFinite = true
  · obtain ⟨hnum, hvalue⟩ := mul_spec hfin.1 hfin.2
    rw [← coe_real hfin.1, ← coe_real hfin.2, ← EReal.coe_mul, roundedValue_coe]
    exact ⟨iff_of_true hnum (by simp [Indefinite]), fun _ => hvalue⟩
  · rw [not_and_or, Bool.not_eq_true, Bool.not_eq_true] at hfin
    have hinf := hfin.imp hx.value_of_not_isFinite hy.value_of_not_isFinite
    have hproduct : ¬Indefinite (value x) (value y) → value x ≠ 0 ∧ value y ≠ 0 := fun h =>
      ⟨fun h0 => hinf.elim (fun h' => by simp [h0] at h') fun h' => h (.inr ⟨h0, h'⟩),
        fun h0 => hinf.elim (fun h' => h (.inl ⟨h', h0⟩)) fun h' => by simp [h0] at h'⟩
    refine ⟨⟨fun hnum h => mul_indefinite hx hy h hnum, fun h => ?_⟩, fun h => ?_⟩
    · exact (mul_infinite hx hy hfin (hproduct h).1 (hproduct h).2).1
    · rw [(mul_infinite hx hy hfin (hproduct h).1 (hproduct h).2).2, roundedValue_of_infinite]
      rcases hinf with h' | h'
      · exact mul_eq_infinite h' (hproduct h).2
      · rw [mul_comm]
        exact mul_eq_infinite h' (hproduct h).1

/-- **Rounding stays above the floats below it.** -/
theorem value_le_roundedValue {v : EReal} (hx : IsNumber x) (h : value x ≤ v) :
    value x ≤ roundedValue v := by
  unfold roundedValue
  split_ifs with hinf
  · exact h
  · rw [not_or] at hinf
    refine value_le_clamp_rounded hx ?_
    rwa [EReal.coe_toReal hinf.1 hinf.2]

/-- Rounding does not make a number negative. -/
theorem roundedValue_nonneg {v : EReal} (h : 0 ≤ v) : 0 ≤ roundedValue v :=
  value_zero.ge.trans (value_le_roundedValue zero_isNumber (value_zero.le.trans h))

/-- **A sum of numbers that are not negative** is a number, as no two infinities cancel, and a term
that is added takes nothing away. -/
theorem add_nonneg_spec (hx : IsNumber x) (hy : IsNumber y) (hx0 : 0 ≤ value x) (hy0 : 0 ≤ value y) :
    IsNumber (x + y) ∧ value x ≤ value (x + y) := by
  have hsame : ¬Opposed (value x) (value y) := by
    rintro (⟨-, hbot⟩ | ⟨hbot, -⟩)
    · exact absurd (hbot ▸ hy0) (by simp)
    · exact absurd (hbot ▸ hx0) (by simp)
  obtain ⟨hnum, hvalue⟩ := value_add hx hy
  exact ⟨hnum.mpr hsame, hvalue hsame ▸ value_le_roundedValue hx (le_add_of_nonneg_right hy0)⟩

/-- **A product of numbers that are not negative** is not, either; an undefined one has no sign. -/
theorem value_mul_nonneg (hx : 0 ≤ value x) (hy : 0 ≤ value y) : 0 ≤ value (x * y) := by
  by_cases hnum : IsNumber (x * y)
  · have hx' : IsNumber x := by_contra fun h => not_isNumber_mul (.inl h) hnum
    have hy' : IsNumber y := by_contra fun h => not_isNumber_mul (.inr h) hnum
    obtain ⟨hiff, hvalue⟩ := value_mul hx' hy'
    rw [hvalue (hiff.mp hnum)]
    exact roundedValue_nonneg (mul_nonneg hx hy)
  · rw [value_of_not_isNumber hnum]

/-- Two infinities. -/
def Infinite (u v : EReal) : Prop := (u = ⊤ ∨ u = ⊥) ∧ (v = ⊤ ∨ v = ⊥)

theorem not_isNumber_div (h : ¬IsNumber x ∨ ¬IsNumber y) : ¬IsNumber (x / y) := by
  refine not_isNumber_of_pack (u := x.toModel.unpack.div binary64 y.toModel.unpack) ?_
  rcases h with h | h <;> rw [unpack_of_not_isNumber h]
  · rfl
  · cases x.toModel.unpack <;> rfl

/-- **A quotient of infinities is a NaN.** -/
theorem div_infinite (hx : IsNumber x) (hy : IsNumber y) (h : Infinite (value x) (value y)) :
    ¬IsNumber (x / y) := by
  obtain ⟨s, hs, -⟩ := infinite_cases hx (isFinite_eq_false h.1)
  obtain ⟨t, ht, -⟩ := infinite_cases hy (isFinite_eq_false h.2)
  exact not_isNumber_of_pack (u := x.toModel.unpack.div binary64 y.toModel.unpack) (by rw [hs, ht]; rfl)

/-- An infinity by a finite number other than zero. -/
theorem infinite_div_of_ne_zero (hx : IsNumber x) (hinf : x.isFinite = false) (hy : y.isFinite = true)
    (h0 : real y ≠ 0) : IsNumber (x / y) ∧ value (x / y) = value x / value y := by
  have hdef : x / y = .ofModel (.pack (x.toModel.unpack.div binary64 y.toModel.unpack)) := rfl
  obtain ⟨s, hs, hvalue⟩ := infinite_cases hx hinf
  rcases finite_cases hy with ⟨t, -, hry⟩ | ⟨t, n, f, hn, huy, hry, -⟩
  · exact absurd hry h0
  have hpos : (0 : ℝ) < n * (2 : ℝ) ^ f := mul_pos (by exact_mod_cast hn) (zpow_two_pos f)
  rw [hdef, hs, huy, hvalue, ← coe_real hy, hry]
  refine ⟨(infinity_spec (s / t)).1, (infinity_spec (s / t)).2.trans ?_⟩
  cases t with
  | negative =>
    rw [signFactor, neg_one_mul]
    have hneg : ((-(n * (2 : ℝ) ^ f) : ℝ) : EReal) < 0 := EReal.coe_neg'.mpr (by linarith)
    cases s
    · exact (EReal.bot_div_of_neg_ne_bot hneg (EReal.coe_ne_bot _)).symm
    · exact (EReal.top_div_of_neg_ne_bot hneg (EReal.coe_ne_bot _)).symm
  | positive =>
    rw [signFactor, one_mul]
    have hpos' : (0 : EReal) < ((n * (2 : ℝ) ^ f : ℝ) : EReal) := EReal.coe_pos.mpr hpos
    cases s
    · exact (EReal.bot_div_of_pos_ne_top hpos' (EReal.coe_ne_top _)).symm
    · exact (EReal.top_div_of_pos_ne_top hpos' (EReal.coe_ne_top _)).symm

/-- **A quotient by a number other than zero** is the rounded quotient of the values, unless both are
infinite. -/
theorem value_div (hx : IsNumber x) (hy : IsNumber y) (h0 : value y ≠ 0) :
    (IsNumber (x / y) ↔ ¬Infinite (value x) (value y)) ∧
      (¬Infinite (value x) (value y) → value (x / y) = roundedValue (value x / value y)) := by
  rcases hy.cases with hyfin | ⟨hyfin, hyinf⟩
  · have hry : real y ≠ 0 := fun h => h0 (by rw [← coe_real hyfin, h, EReal.coe_zero])
    have hdefinite : ¬Infinite (value x) (value y) := by
      rw [Infinite, ← coe_real hyfin]
      simp
    rcases hx.cases with hxfin | ⟨hxfin, hxinf⟩
    · obtain ⟨hnum, hvalue⟩ := div_spec hxfin hyfin hry
      rw [← coe_real hxfin, ← coe_real hyfin] at hdefinite ⊢
      rw [← EReal.coe_div, roundedValue_coe]
      exact ⟨iff_of_true hnum hdefinite, fun _ => hvalue⟩
    · obtain ⟨hnum, hvalue⟩ := infinite_div_of_ne_zero hx hxfin hyfin hry
      refine ⟨iff_of_true hnum hdefinite, fun _ => hvalue.trans (roundedValue_of_infinite ?_).symm⟩
      rw [div_eq_mul_inv]
      refine mul_eq_infinite hxinf ?_
      rw [← coe_real hyfin, ← EReal.coe_inv]
      exact_mod_cast inv_ne_zero hry
  · rcases hx.cases with hxfin | ⟨hxfin, hxinf⟩
    · obtain ⟨hnum, hvalue⟩ := div_of_infinite hxfin hy hyfin
      have hdefinite : ¬Infinite (value x) (value y) := by
        rw [Infinite, ← coe_real hxfin]
        simp
      refine ⟨iff_of_true hnum hdefinite, fun _ => hvalue.trans ?_⟩
      have hquotient : value x / value y = ((0 : ℝ) : EReal) := by
        rcases hyinf with h | h <;> rw [h]
        · exact EReal.div_top
        · exact EReal.div_bot
      rw [hquotient, roundedValue_coe, clamp_rounded_zero]
    · have hinf : Infinite (value x) (value y) := ⟨hxinf, hyinf⟩
      exact ⟨iff_of_false (div_infinite hx hy hinf) fun h => h hinf, fun h => absurd hinf h⟩

/-! ## Numbers and their opposites -/

/-- **A number, or its opposite.** -/
noncomputable def turn (flip : Bool) (v : EReal) : EReal := bif flip then -v else v

theorem turn_false (v : EReal) : turn false v = v := rfl

theorem turn_true (v : EReal) : turn true v = -v := rfl

/-- A sign that both factors share drops out of their product. -/
theorem xor_cancel (s t u : Bool) : ((s ^^ t) ^^ (t ^^ u)) = (s ^^ u) := by
  cases s <;> cases t <;> cases u <;> rfl

/-- **`a'` is the number `a`**, or its opposite when `flip` is set. All NaN are the same. -/
def Turned (flip : Bool) (a a' : Float) : Prop :=
  (IsNumber a' ↔ IsNumber a) ∧ value a' = turn flip (value a)

variable {a a' b b' c c' : Float} {f g : Bool}

theorem Turned.refl (a : Float) : Turned false a a := ⟨Iff.rfl, rfl⟩

theorem turned_of_not_isNumber (f : Bool) (h : ¬IsNumber a) (h' : ¬IsNumber a') : Turned f a a' := by
  refine ⟨iff_of_false h' h, ?_⟩
  rw [value_of_not_isNumber h, value_of_not_isNumber h']
  cases f <;> simp [turn]

theorem Turned.isFinite (h : Turned f a a') : a'.isFinite = a.isFinite := by
  rw [Bool.eq_iff_iff, isFinite_iff, isFinite_iff, h.1, h.2]
  cases f with
  | false => rfl
  | true =>
    refine and_congr_right fun _ => ⟨fun ⟨r, hr⟩ => ⟨-r, ?_⟩, fun ⟨r, hr⟩ => ⟨-r, ?_⟩⟩
    · rw [EReal.coe_neg, ← hr, turn_true, neg_neg]
    · rw [EReal.coe_neg, ← hr, turn_true]

theorem roundedValue_turn (f : Bool) (v : EReal) : roundedValue (turn f v) = turn f (roundedValue v) := by
  cases f with
  | false => rfl
  | true => exact roundedValue_neg v

/-- **An operation that is read off the values** turns with them: the results are undefined together,
and otherwise round what has been turned. -/
theorem turned_of_reading {U U' : Prop} {v v' : EReal}
    (h : (IsNumber a ↔ ¬U) ∧ (¬U → value a = roundedValue v))
    (h' : (IsNumber a' ↔ ¬U') ∧ (¬U' → value a' = roundedValue v')) (hU : U' ↔ U)
    (hv : ¬U → v' = turn f v) : Turned f a a' := by
  rw [hU] at h'
  by_cases hundefined : U
  · exact turned_of_not_isNumber f (fun hn => h.1.mp hn hundefined) fun hn => h'.1.mp hn hundefined
  · refine ⟨iff_of_true (h'.1.mpr hundefined) (h.1.mpr hundefined), ?_⟩
    rw [h'.2 hundefined, h.2 hundefined, hv hundefined, roundedValue_turn]

/-- A NaN operand settles the matter; of numbers the values decide. -/
theorem turned_of_numbers {r r' : Float} {s : Bool} (ha : Turned f a a') (hb : Turned g b b')
    (hnan : (¬IsNumber a ∨ ¬IsNumber b) → ¬IsNumber r)
    (hnan' : (¬IsNumber a' ∨ ¬IsNumber b') → ¬IsNumber r')
    (h : IsNumber a → IsNumber b → Turned s r r') : Turned s r r' := by
  by_cases hnum : IsNumber a ∧ IsNumber b
  · exact h hnum.1 hnum.2
  · rw [not_and_or] at hnum
    refine turned_of_not_isNumber s (hnan hnum) (hnan' ?_)
    rwa [ha.1, hb.1]

/-! ## Operations -/

/-- Turning does not change what is infinite or zero. -/
theorem turn_infinite_iff (f : Bool) (v : EReal) : turn f v = ⊤ ∨ turn f v = ⊥ ↔ v = ⊤ ∨ v = ⊥ := by
  cases f with
  | false => rfl
  | true => rw [turn_true, EReal.neg_eq_top_iff, EReal.neg_eq_bot_iff, or_comm]

theorem turn_eq_zero_iff (f : Bool) (v : EReal) : turn f v = 0 ↔ v = 0 := by
  cases f with
  | false => rfl
  | true => rw [turn_true, EReal.neg_eq_zero_iff]

theorem Turned.neg (h : Turned f a a') : Turned f (-a) (-a') := by
  by_cases ha : IsNumber a
  · have ha' := h.1.mpr ha
    refine ⟨iff_of_true (isNumber_neg ha') (isNumber_neg ha), ?_⟩
    rw [value_neg ha', value_neg ha, h.2]
    cases f <;> rfl
  · exact turned_of_not_isNumber f (not_isNumber_neg ha) (not_isNumber_neg (mt h.1.mp ha))

/-- Zero is its own opposite. -/
theorem turned_zero (f : Bool) : Turned f 0 0 := by
  refine ⟨Iff.rfl, ?_⟩
  rw [value_zero]
  cases f <;> simp [turn]

/-- The opposite float is the opposite number. -/
theorem turned_neg (a : Float) : Turned true a (-a) := by
  by_cases ha : IsNumber a
  · exact ⟨iff_of_true (isNumber_neg ha) ha, value_neg ha⟩
  · exact turned_of_not_isNumber true ha (not_isNumber_neg ha)

theorem Turned.trans (h : Turned f a b) (h' : Turned g b c) : Turned (f ^^ g) a c := by
  refine ⟨h'.1.trans h.1, ?_⟩
  rw [h'.2, h.2]
  cases f <;> cases g <;> simp [turn]

theorem Turned.symm (h : Turned f a a') : Turned f a' a := by
  refine ⟨h.1.symm, ?_⟩
  rw [h.2]
  cases f <;> simp [turn]

/-- **Sums of opposite numbers are opposite.** -/
theorem Turned.add (ha : Turned f a a') (hb : Turned f b b') : Turned f (a + b) (a' + b') := by
  refine turned_of_numbers ha hb not_isNumber_add not_isNumber_add fun hna hnb => ?_
  refine turned_of_reading (value_add hna hnb) (value_add (ha.1.mpr hna) (hb.1.mpr hnb)) ?_ ?_
  · rw [ha.2, hb.2]
    cases f with
    | false => rfl
    | true =>
      simp only [Opposed, turn_true, EReal.neg_eq_top_iff, EReal.neg_eq_bot_iff]
      exact or_comm
  · intro hdefined
    rw [ha.2, hb.2]
    cases f with
    | false => rfl
    | true =>
      have hleft : value a ≠ ⊥ ∨ value b ≠ ⊤ := by
        rw [← not_and_or]
        exact fun h => hdefined (.inr h)
      have hright : value a ≠ ⊤ ∨ value b ≠ ⊥ := by
        rw [← not_and_or]
        exact fun h => hdefined (.inl h)
      rw [turn_true, turn_true, turn_true, EReal.neg_add hleft hright, sub_eq_add_neg]

theorem Turned.sub (ha : Turned f a a') (hb : Turned f b b') : Turned f (a - b) (a' - b') := by
  rw [sub_eq_add_opposite, sub_eq_add_opposite]
  exact ha.add hb.neg

/-- **A product turns with each factor.** -/
theorem Turned.mul (ha : Turned f a a') (hb : Turned g b b') : Turned (f ^^ g) (a * b) (a' * b') := by
  refine turned_of_numbers ha hb not_isNumber_mul not_isNumber_mul fun hna hnb => ?_
  refine turned_of_reading (value_mul hna hnb) (value_mul (ha.1.mpr hna) (hb.1.mpr hnb)) ?_ fun _ => ?_
  · rw [Indefinite, ha.2, hb.2, turn_infinite_iff, turn_infinite_iff, turn_eq_zero_iff,
      turn_eq_zero_iff]
    rfl
  · rw [ha.2, hb.2]
    cases f <;> cases g <;> simp [turn]

/-- **A quotient turns with each operand**, unless it divides by zero. -/
theorem Turned.div (ha : Turned f a a') (hb : Turned g b b') (h0 : IsNumber b → value b ≠ 0) :
    Turned (f ^^ g) (a / b) (a' / b') := by
  refine turned_of_numbers ha hb not_isNumber_div not_isNumber_div fun hna hnb => ?_
  have h0' : value b' ≠ 0 := by
    rw [hb.2, Ne, turn_eq_zero_iff]
    exact h0 hnb
  refine turned_of_reading (value_div hna hnb (h0 hnb))
    (value_div (ha.1.mpr hna) (hb.1.mpr hnb) h0') ?_ fun _ => ?_
  · rw [Infinite, ha.2, hb.2, turn_infinite_iff, turn_infinite_iff]
    rfl
  · rw [ha.2, hb.2]
    cases f <;> cases g <;> simp [turn, div_eq_mul_inv, EReal.inv_neg]

theorem not_isNumber_abs (h : ¬IsNumber a) : ¬IsNumber a.abs := by
  refine not_isNumber_of_pack (u := a.toModel.unpack.abs) ?_
  rw [unpack_of_not_isNumber h]
  rfl

/-- **Opposite numbers have the same absolute value.** -/
theorem Turned.abs (h : Turned f a a') : Turned false a.abs a'.abs := by
  by_cases ha : IsNumber a
  · obtain ⟨hnum, hvalue⟩ := abs_spec ha
    obtain ⟨hnum', hvalue'⟩ := abs_spec (h.1.mpr ha)
    refine ⟨iff_of_true hnum' hnum, ?_⟩
    rw [hvalue', hvalue, h.2]
    cases f with
    | false => rfl
    | true => rw [turn_true, turn_false, neg_neg, max_comm]
  · exact turned_of_not_isNumber false (not_isNumber_abs ha) (not_isNumber_abs (mt h.1.mp ha))

/-! ## Comparisons -/

theorem Turned.lt_iff (ha : Turned false a a') (hb : Turned false b b') : a' < b' ↔ a < b := by
  rw [Binary64.lt_iff, Binary64.lt_iff, ha.1, hb.1, ha.2, hb.2]
  rfl

theorem Turned.le_iff (ha : Turned false a a') (hb : Turned false b b') : a' ≤ b' ↔ a ≤ b := by
  rw [Binary64.le_iff, Binary64.le_iff, ha.1, hb.1, ha.2, hb.2]
  rfl

/-- Turning both sides turns the order around. -/
theorem Turned.lt_iff_gt (ha : Turned true a a') (hb : Turned true b b') : a' < b' ↔ b < a := by
  rw [Binary64.lt_iff, Binary64.lt_iff, ha.1, hb.1, ha.2, hb.2, turn_true, turn_true,
    EReal.neg_lt_neg_iff]
  tauto

theorem Turned.le_iff_ge (ha : Turned true a a') (hb : Turned true b b') : a' ≤ b' ↔ b ≤ a := by
  rw [Binary64.le_iff, Binary64.le_iff, ha.1, hb.1, ha.2, hb.2, turn_true, turn_true,
    EReal.neg_le_neg_iff]
  tauto

theorem Turned.beq (ha : Turned f a a') (hb : Turned f b b') : (a' == b') = (a == b) := by
  rw [Bool.eq_iff_iff, beq_iff, beq_iff, ha.1, hb.1, ha.2, hb.2]
  cases f with
  | false => rfl
  | true => rw [turn_true, turn_true, neg_inj]

theorem Turned.beq_zero (h : Turned f a a') : (a' == 0) = (a == 0) := h.beq (turned_zero f)

theorem Turned.isInf (h : Turned f a a') : a'.isInf = a.isInf := by
  rw [Bool.eq_iff_iff, isInf_iff, isInf_iff, h.1, h.2, turn_infinite_iff]

/-! ## Maximum and minimum -/

/-- **The place of a float in a maximum**, where a NaN stands below everything. -/
noncomputable def rank (a : Float) : WithBot EReal := if IsNumber a then (value a : EReal) else ⊥

theorem turned_false_iff : Turned false a a' ↔ rank a' = rank a := by
  unfold Turned rank
  rw [turn_false]
  by_cases ha : IsNumber a <;> by_cases ha' : IsNumber a'
  · simp [ha, ha']
  · simp [ha, ha']
  · simp [ha, ha']
  · simp [ha, ha', value_of_not_isNumber ha, value_of_not_isNumber ha']

/-- **The larger float has the larger rank.** -/
theorem rank_larger (a b : Float) : rank (larger a b) = max (rank a) (rank b) := by
  have hnan : ∀ {c : Float}, c.isNaN = true ↔ ¬IsNumber c := fun {_} => (Bool.not_eq_false _).symm.to_iff
  unfold larger
  split_ifs with ha hb hlt
  · rw [hnan] at ha
    simp [rank, ha]
  · rw [hnan] at hb
    simp [rank, hb]
  · obtain ⟨hna, hnb, hvalue⟩ := lt_iff.mp hlt
    simp [rank, hna, hnb, hvalue.le]
  · rw [hnan, not_not] at ha hb
    have hle : value b ≤ value a := not_lt.mp fun h => hlt (lt_iff.mpr ⟨ha, hb, h⟩)
    simp [rank, ha, hb, hle]

theorem Turned.larger (ha : Turned false a a') (hb : Turned false b b') :
    Turned false (larger a b) (larger a' b') := by
  rw [turned_false_iff] at ha hb ⊢
  rw [rank_larger, rank_larger, ha, hb]

/-- **The minimum is the maximum of the opposite numbers**, turned back. -/
theorem turned_smaller (a b : Float) : Turned true (larger (-a) (-b)) (smaller a b) := by
  have hnan : ∀ {c : Float}, (-c).isNaN = true ↔ c.isNaN = true := fun {c} => by
    rw [← Bool.not_eq_false, ← Bool.not_eq_false]
    exact not_congr ⟨isNumber_of_neg, isNumber_neg⟩
  have hlt : -a < -b ↔ b < a := (turned_neg a).lt_iff_gt (turned_neg b)
  unfold larger smaller
  simp only [hnan, hlt]
  split_ifs
  · exact (turned_neg b).symm
  · exact (turned_neg a).symm
  · exact (turned_neg b).symm
  · exact (turned_neg a).symm

/-- The minimum of numbers that are turned together. -/
theorem Turned.smaller (ha : Turned false a a') (hb : Turned false b b') :
    Turned false (smaller a b) (smaller a' b') :=
  (turned_smaller a b).symm.trans ((ha.neg.larger hb.neg).trans (turned_smaller a' b'))

theorem Turned.larger_smaller (ha : Turned true a a') (hb : Turned true b b') :
    Turned true (Binary64.larger a b) (Binary64.smaller a' b') :=
  (((turned_neg a').symm.trans ha.symm).symm.larger ((turned_neg b').symm.trans hb.symm).symm).trans
    (turned_smaller a' b')

theorem Turned.smaller_larger (ha : Turned true a a') (hb : Turned true b b') :
    Turned true (Binary64.smaller a b) (Binary64.larger a' b') :=
  (ha.symm.larger_smaller hb.symm).symm

/-! ## Neighbours -/

theorem nextUp_of_not_isNumber (h : ¬IsNumber a) : nextUp a = a := by
  have hnan : a.isNaN = true := (Bool.not_eq_false _).mp h
  rw [nextUp, if_pos (by rw [hnan]; rfl)]

/-- Equal numbers have equal neighbours: the two zeros have the same one. -/
theorem Turned.nextUp (h : Turned false a a') : Turned false (nextUp a) (nextUp a') := by
  by_cases ha : IsNumber a
  · obtain ⟨n, hn, hvalue, hnum, hnext⟩ := nextUp_spec ha
    obtain ⟨n', hn', hvalue', hnum', hnext'⟩ := nextUp_spec (h.1.mpr ha)
    have hsame : n' = n := by
      rw [← clamp_placeValue_inj hn' hn, ← hvalue, ← hvalue']
      exact h.2
    exact ⟨iff_of_true hnum' hnum, by rw [hnext', hnext, hsame, turn_false]⟩
  · rw [nextUp_of_not_isNumber ha, nextUp_of_not_isNumber (mt h.1.mp ha)]
    exact h

theorem Turned.nextDown (h : Turned false a a') : Turned false (nextDown a) (nextDown a') :=
  h.neg.nextUp.neg

/-- **The neighbour above becomes the neighbour below.** -/
theorem Turned.nextUp_nextDown (h : Turned true a a') :
    Turned true (Binary64.nextUp a) (Binary64.nextDown a') :=
  ((h.trans (turned_neg a')).nextUp).trans (turned_neg _)

theorem Turned.nextDown_nextUp (h : Turned true a a') :
    Turned true (Binary64.nextDown a) (Binary64.nextUp a') :=
  h.symm.nextUp_nextDown.symm

/-! ## Fused multiply-add -/

theorem Turned.real (h : Turned f a a') : real a' = bif f then -real a else real a := by
  rw [Binary64.real, Binary64.real, h.2]
  cases f with
  | false => rfl
  | true => exact EReal.toReal_neg_eq

theorem Turned.fma (ha : Turned f a a') (hb : Turned g b b') (hc : Turned (f ^^ g) c c')
    (hafin : a.isFinite = true) (hbfin : b.isFinite = true) (hcfin : c.isFinite = true) :
    Turned (f ^^ g) (fma a b c) (fma a' b' c') := by
  obtain ⟨hnum, hvalue⟩ := fma_spec hafin hbfin hcfin
  obtain ⟨hnum', hvalue'⟩ := fma_spec (ha.isFinite.trans hafin) (hb.isFinite.trans hbfin)
    (hc.isFinite.trans hcfin)
  refine ⟨iff_of_true hnum' hnum, ?_⟩
  have hexact : Binary64.real a' * Binary64.real b' + Binary64.real c'
      = bif f ^^ g then -(Binary64.real a * Binary64.real b + Binary64.real c)
        else Binary64.real a * Binary64.real b + Binary64.real c := by
    rw [ha.real, hb.real, hc.real]
    cases f <;> cases g <;> simp <;> ring
  rw [hvalue', hvalue, hexact]
  cases f ^^ g with
  | false => rfl
  | true => simp only [cond_true, rounded_neg, clamp_neg, turn_true]

/-! ## Equal numbers -/

/-- **Equal numbers are the same float**, up to the payload of a NaN and the sign of a zero. -/
theorem Turned.unpack_eq_or_zero (h : Turned false a a') :
    a'.toModel.unpack = a.toModel.unpack ∨
      ∃ s s', a.toModel.unpack = .zero s ∧ a'.toModel.unpack = .zero s' := by
  by_cases ha : IsNumber a
  · obtain ⟨s, w, hw, hx⟩ := ha.exists_word
    obtain ⟨s', w', hw', hx'⟩ := (h.1.mpr ha).exists_word
    have hbound : ∀ (t : UnpackedFloat.Sign) {v : ℕ}, v ≤ infinityWord →
        |position t v| ≤ infinityWord := by
      intro t v hv
      cases t <;> simpa [position] using hv
    have hposition : position s' w' = position s w := by
      rw [← clamp_placeValue_inj (hbound s' hw') (hbound s hw), ← (value_of_word hw' hx').2,
        ← (value_of_word hw hx).2]
      exact h.2
    by_cases hzero : w = 0
    · have hzero' : w' = 0 := by
        cases s <;> cases s' <;> simp only [position] at hposition <;> omega
      subst hzero hzero'
      exact .inr ⟨s, s', hx, hx'⟩
    · have hword : s' = s ∧ w' = w := by
        cases s <;> cases s' <;> simp only [position] at hposition <;> simp <;> omega
      rw [hword.1, hword.2, ← hx] at hx'
      exact .inl hx'
  · exact .inl ((unpack_of_not_isNumber (mt h.1.mp ha)).trans (unpack_of_not_isNumber ha).symm)

theorem turned_of_zero {s s' : UnpackedFloat.Sign} (f : Bool) :
    Turned f (.ofModel (.pack (.zero s))) (.ofModel (.pack (.zero s'))) := by
  obtain ⟨hnum, hvalue⟩ := zero_spec s
  obtain ⟨hnum', hvalue'⟩ := zero_spec s'
  refine ⟨iff_of_true hnum' hnum, ?_⟩
  rw [hvalue', hvalue]
  cases f <;> simp [turn]

/-- **Quotients of equal numbers by the same float** are equal, also when it is a zero. -/
theorem Turned.div_same (h : Turned false a a') (c : Float) : Turned false (a / c) (a' / c) := by
  have hdef : ∀ x : Float,
      x / c = .ofModel (.pack (x.toModel.unpack.div binary64 c.toModel.unpack)) := fun _ => rfl
  rw [hdef a, hdef a']
  rcases h.unpack_eq_or_zero with heq | ⟨s, s', hs, hs'⟩
  · rw [heq]
    exact .refl _
  · rw [hs, hs']
    cases c.toModel.unpack with
    | zero t | notANumber => exact .refl _
    | finite t m e hm | infinity t => exact turned_of_zero false

/-- **Square roots of equal numbers are equal.** -/
theorem Turned.sqrt (h : Turned false a a') : Turned false a.sqrt a'.sqrt := by
  have hdef : ∀ x : Float, x.sqrt = .ofModel (.pack (x.toModel.unpack.sqrt binary64)) := fun _ => rfl
  rw [hdef a, hdef a']
  rcases h.unpack_eq_or_zero with heq | ⟨s, s', hs, hs'⟩
  · rw [heq]
    exact .refl _
  · rw [hs, hs']
    exact turned_of_zero false

/-- **Equal numbers in a fused multiply-add**, finite or not. -/
theorem Turned.fma_same (ha : Turned false a a') (hb : Turned false b b') (hc : Turned false c c') :
    Turned false (Binary64.fma a b c) (Binary64.fma a' b' c') := by
  have hparts : ∀ {d d' : Float}, Turned false d d' → parts? d' = parts? d := fun hd => by
    unfold parts?
    rcases hd.unpack_eq_or_zero with heq | ⟨s, s', hs, hs'⟩
    · rw [heq]
    · rw [hs, hs']
  have hplain : Turned false (a * b + c) (a' * b' + c') := (ha.mul hb).add hc
  unfold Binary64.fma
  rw [hparts ha, hparts hb, hparts hc]
  cases parts? a with
  | none => exact hplain
  | some p =>
    cases parts? b with
    | none => exact hplain
    | some q =>
      cases parts? c with
      | none => exact hc
      | some r =>
        dsimp only
        split_ifs
        · exact hplain
        · exact .refl _

/-- **A sum whose first term is not zero** is the same float for equal terms: a zero added to it does
not show its sign. -/
theorem add_eq_of_ne_zero (ha : Turned false a a') (h0 : value a ≠ 0) (hb : Turned false b b') :
    a' + b' = a + b := by
  have hdef : ∀ x y : Float,
      x + y = .ofModel (.pack (x.toModel.unpack.add binary64 y.toModel.unpack)) := fun _ _ => rfl
  have heq : a'.toModel.unpack = a.toModel.unpack := by
    refine ha.unpack_eq_or_zero.resolve_right fun ⟨s, s', hs, hs'⟩ => h0 ?_
    rw [value, hs, unpackedValue]
  rw [hdef, hdef, heq]
  rcases hb.unpack_eq_or_zero with hbeq | ⟨s, s', hs, hs'⟩
  · rw [hbeq]
  · rw [hs, hs']
    rw [value] at h0
    revert h0
    cases a.toModel.unpack with
    | zero t => exact fun h => absurd rfl h
    | notANumber | finite t m e hm | infinity t => exact fun _ => rfl

end CertifiedZeros.Binary64
