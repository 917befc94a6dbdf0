import CertifiedZeros.Proofs.Binary64.Word

/-! # Floats as extended reals

Everything about floats is said through the extended real a float stands for:

* **`IsNumber x`** — `x` is not a NaN.
* **`value x`** — the extended real, with a NaN at zero; **`real x`** is its real part.
* **`lt_iff`**, **`le_iff`**, **`beq_iff`** — comparing two floats is comparing their values, once
  neither is a NaN.
* **`isFinite_iff`** — the finite floats are those with a real value, and **`coe_real`** says which.

The order is proved on words: `position` counts from zero in the direction of the sign. -/

namespace CertifiedZeros.Binary64

open Float.Model (UnpackedFloat)
open Float.Model.Format (binary64)
open Float.Model.UnpackedFloat

/-! ## The order of unpacked floats -/

/-- **The place of a float on the line**, counted from zero: negative floats count downwards. -/
def position : Sign → ℕ → ℤ
  | .negative, w => -w
  | .positive, w => w

/-- The exponent is compared before the significand, which is the order of the counts. -/
theorem compare_fields (w v : ℕ) :
    (compare (wordExponent w) (wordExponent v)).then
      (compare (wordSignificand w) (wordSignificand v)) = compare (w : ℤ) v := by
  have hmono : ∀ {a b : ℕ}, a < b → wordExponent a < wordExponent b
      ∨ wordExponent a = wordExponent b ∧ wordSignificand a < wordSignificand b := by
    intro a b h
    unfold wordExponent wordSignificand
    split_ifs <;> omega
  rcases lt_trichotomy w v with h | rfl | h
  · rw [compare_lt_iff_lt.mpr (Int.ofNat_lt.mpr h)]
    rcases hmono h with he | ⟨he, hm⟩
    · rw [compare_lt_iff_lt.mpr he]; rfl
    · rw [compare_eq_iff_eq.mpr he, compare_lt_iff_lt.mpr hm]; rfl
  · rw [compare_eq_iff_eq.mpr rfl, compare_eq_iff_eq.mpr rfl, compare_eq_iff_eq.mpr rfl]; rfl
  · rw [compare_gt_iff_gt.mpr (Int.ofNat_lt.mpr h)]
    rcases hmono h with he | ⟨he, hm⟩
    · rw [compare_gt_iff_gt.mpr he]; rfl
    · rw [compare_eq_iff_eq.mpr he.symm, compare_gt_iff_gt.mpr hm]; rfl

/-- **Comparing unpacked floats is comparing their places.** -/
theorem compare_ofWord (s t : Sign) {w v : ℕ} (hw : w ≤ infinityWord) (hv : v ≤ infinityWord) :
    (ofWord s w).compare (ofWord t v) = some (compare (position s w) (position t v)) := by
  have hlt : ∀ {a b : ℤ}, a < b → Ordering.lt = compare a b := fun h =>
    (compare_lt_iff_lt.mpr h).symm
  have hgt : ∀ {a b : ℤ}, b < a → Ordering.gt = compare a b := fun h =>
    (compare_gt_iff_gt.mpr h).symm
  have heq : ∀ {a b : ℤ}, a = b → Ordering.eq = compare a b := fun h =>
    (compare_eq_iff_eq.mpr h).symm
  have hneg : (compare (w : ℤ) v).swap = compare (-w : ℤ) (-v) := by
    rcases lt_trichotomy (w : ℤ) v with h | h | h
    · rw [compare_lt_iff_lt.mpr h, compare_gt_iff_gt.mpr (by omega)]; rfl
    · rw [compare_eq_iff_eq.mpr h, compare_eq_iff_eq.mpr (by omega)]; rfl
    · rw [compare_gt_iff_gt.mpr h, compare_lt_iff_lt.mpr (by omega)]; rfl
  unfold infinityWord at hw hv
  unfold ofWord infinityWord
  rw [if_neg (not_lt.mpr hw), if_neg (not_lt.mpr hv)]
  cases s <;> cases t <;> split_ifs <;>
    simp only [UnpackedFloat.compare, Option.some.injEq, position, compare_fields, hneg]
  all_goals first | (apply hlt; omega) | (apply hgt; omega) | (apply heq; omega)

/-! ## The value of a place -/

/-- The factor that a sign stands for. -/
def signFactor : Sign → ℝ
  | .negative => -1
  | .positive => 1

/-- **The extended real that an unpacked float stands for.** A NaN stands for none; it is put at
zero. -/
noncomputable def unpackedValue : UnpackedFloat → EReal
  | .notANumber => 0
  | .infinity .negative => ⊥
  | .infinity .positive => ⊤
  | .zero _ => 0
  | .finite s m e _ => ((signFactor s * (m * (2 : ℝ) ^ e) : ℝ) : EReal)

/-- The value of a word with its sign, and infinity at the limit of the finite floats. -/
theorem unpackedValue_ofWord (s : Sign) {w : ℕ} (hw : w ≤ infinityWord) :
    unpackedValue (ofWord s w) = clamp (signFactor s * magnitude w) := by
  have hlimit := limit_pos
  rcases hw.eq_or_lt with rfl | hlt
  · rw [magnitude_infinityWord, ofWord, if_neg (lt_irrefl _), if_pos rfl]
    cases s
    · rw [signFactor, neg_one_mul, clamp_neg, clamp_of_le le_rfl, EReal.neg_top, unpackedValue]
    · rw [signFactor, one_mul, clamp_of_le le_rfl, unpackedValue]
  · have hmag : magnitude w < limit :=
      magnitude_infinityWord ▸ magnitude_strictMono hlt
    have hfactor : |signFactor s * magnitude w| < limit := by
      rw [abs_mul, abs_of_nonneg (magnitude_nonneg w)]
      cases s <;> simpa [signFactor] using hmag
    rw [clamp_of_lt hfactor, ofWord, if_neg hw.not_gt, if_neg hlt.ne]
    split_ifs with h0
    · rw [h0, magnitude_zero, mul_zero]
      rfl
    · rfl

/-- The value of a place on the line. -/
noncomputable def placeValue (n : ℤ) : ℝ :=
  if 0 ≤ n then magnitude n.toNat else -magnitude (-n).toNat

theorem placeValue_position (s : Sign) (w : ℕ) :
    placeValue (position s w) = signFactor s * magnitude w := by
  unfold placeValue
  cases s
  · rw [position, signFactor, neg_one_mul, neg_neg, Int.toNat_natCast]
    split_ifs with h
    · rw [show w = 0 by omega]
      simp
    · rfl
  · rw [position, signFactor, one_mul, if_pos (Int.natCast_nonneg w), Int.toNat_natCast]

theorem placeValue_strictMono : StrictMono placeValue := by
  intro a b h
  unfold placeValue
  split_ifs with ha hb hb
  · exact magnitude_strictMono (by omega)
  · omega
  · have hpos : 0 < magnitude (-a).toNat := by
      have := magnitude_strictMono (show 0 < (-a).toNat by omega)
      rwa [magnitude_zero] at this
    linarith [magnitude_nonneg b.toNat]
  · exact neg_lt_neg (magnitude_strictMono (by omega))

/-- Up to the limit no two numbers become one. -/
theorem clamp_lt_iff {x y : ℝ} (hx : |x| ≤ limit) (hy : |y| ≤ limit) :
    clamp x < clamp y ↔ x < y := by
  have hpos := limit_pos
  obtain ⟨hx₁, hx₂⟩ := abs_le.mp hx
  obtain ⟨hy₁, hy₂⟩ := abs_le.mp hy
  refine ⟨fun h => not_le.mp fun hle => absurd (clamp_mono hle) (not_le.mpr h), fun h => ?_⟩
  refine (clamp_mono h.le).lt_of_ne fun heq => ?_
  unfold clamp at heq
  split_ifs at heq
  all_goals first | linarith | exact h.ne (EReal.coe_eq_coe_iff.mp heq) | exact absurd heq (by simp)

theorem abs_placeValue_le (s : Sign) {w : ℕ} (hw : w ≤ infinityWord) :
    |signFactor s * magnitude w| ≤ limit := by
  rw [abs_mul, abs_of_nonneg (magnitude_nonneg w), ← magnitude_infinityWord]
  have := magnitude_strictMono.monotone hw
  cases s <;> simpa [signFactor] using this

/-- **The order of places is the order of values.** -/
theorem unpackedValue_lt_iff (s t : Sign) {w v : ℕ} (hw : w ≤ infinityWord)
    (hv : v ≤ infinityWord) :
    unpackedValue (ofWord s w) < unpackedValue (ofWord t v) ↔ position s w < position t v := by
  rw [unpackedValue_ofWord s hw, unpackedValue_ofWord t hv,
    clamp_lt_iff (abs_placeValue_le s hw) (abs_placeValue_le t hv), ← placeValue_position,
    ← placeValue_position, placeValue_strictMono.lt_iff_lt]

/-! ## Floats -/

/-- **A float that is not a NaN.** -/
def IsNumber (x : Float) : Prop := x.isNaN = false

instance (x : Float) : Decidable (IsNumber x) := inferInstanceAs (Decidable (_ = _))

/-- **The extended real that a float stands for**, zero for a NaN. -/
noncomputable def value (x : Float) : EReal := unpackedValue x.toModel.unpack

/-- **The real number that a finite float stands for**, zero for the others. -/
noncomputable def real (x : Float) : ℝ := (value x).toReal

/-- A float that is a number has a sign and a count. -/
theorem IsNumber.exists_word {x : Float} (h : IsNumber x) :
    ∃ s w, w ≤ infinityWord ∧ x.toModel.unpack = ofWord s w := by
  refine ⟨_, _, ?_, unpack_eq_ofWord _⟩
  by_contra hw
  have hnan : x.isNaN = true := by
    change x.toModel.unpack.isNaN = true
    rw [Float.Model.unpack, unpack_eq_ofWord, ofWord, if_pos (not_le.mp hw)]
    rfl
  exact Bool.noConfusion (h.symm.trans hnan)

/-- A NaN unpacks to nothing else. -/
theorem unpack_of_not_isNumber {x : Float} (h : ¬IsNumber x) :
    x.toModel.unpack = .notANumber := by
  have hnan : x.toModel.unpack.isNaN = true := (Bool.not_eq_false _).mp h
  revert hnan
  cases x.toModel.unpack <;> simp [UnpackedFloat.isNaN]

/-- **The order of two numbers**, as a comparison of floats finds it. -/
theorem compare_unpack {x y : Float} (hx : IsNumber x) (hy : IsNumber y) :
    ∃ a b : ℤ, x.toModel.unpack.compare y.toModel.unpack = some (compare a b) ∧
      (value x < value y ↔ a < b) ∧ (value y < value x ↔ b < a) := by
  obtain ⟨s, w, hw, hxu⟩ := hx.exists_word
  obtain ⟨t, v, hv, hyu⟩ := hy.exists_word
  refine ⟨position s w, position t v, ?_, ?_, ?_⟩
  · rw [hxu, hyu, compare_ofWord s t hw hv]
  · rw [value, value, hxu, hyu, unpackedValue_lt_iff s t hw hv]
  · rw [value, value, hxu, hyu, unpackedValue_lt_iff t s hv hw]

/-- A NaN is in no order with anything. -/
theorem compare_unpack_eq_none {x y : Float} (h : ¬(IsNumber x ∧ IsNumber y)) :
    x.toModel.unpack.compare y.toModel.unpack = none := by
  rcases not_and_or.mp h with hx | hy
  · rw [unpack_of_not_isNumber hx]
    rfl
  · rw [unpack_of_not_isNumber hy]
    cases x.toModel.unpack <;> rfl

/-- **`<` compares values.** -/
theorem lt_iff {x y : Float} : x < y ↔ IsNumber x ∧ IsNumber y ∧ value x < value y := by
  have hdef : x < y ↔ (x.toModel.unpack.compare y.toModel.unpack == some .lt) = true := by
    change (decide (x.toModel.unpack.lt y.toModel.unpack = true)) = true ↔ _
    rw [decide_eq_true_iff]
    rfl
  rw [hdef]
  by_cases h : IsNumber x ∧ IsNumber y
  · obtain ⟨a, b, hcmp, hab, -⟩ := compare_unpack h.1 h.2
    rw [hcmp, hab, beq_iff_eq, Option.some.injEq, compare_lt_iff_lt]
    simp [h.1, h.2]
  · rw [compare_unpack_eq_none h]
    simp only [beq_iff_eq, reduceCtorEq, false_iff]
    exact fun h' => h ⟨h'.1, h'.2.1⟩

/-- **`≤` compares values.** -/
theorem le_iff {x y : Float} : x ≤ y ↔ IsNumber x ∧ IsNumber y ∧ value x ≤ value y := by
  have hdef : x ≤ y ↔ ((x.toModel.unpack.compare y.toModel.unpack).any (·.isLE)) = true := by
    change (decide (x.toModel.unpack.le y.toModel.unpack = true)) = true ↔ _
    rw [decide_eq_true_iff]
    rfl
  rw [hdef]
  by_cases h : IsNumber x ∧ IsNumber y
  · obtain ⟨a, b, hcmp, -, hba⟩ := compare_unpack h.1 h.2
    rw [hcmp, ← not_lt, hba, Option.any_some]
    simp only [h.1, h.2, true_and, not_lt]
    rw [← compare_le_iff_le, Ordering.isLE_iff_ne_gt]
  · rw [compare_unpack_eq_none h]
    simp only [Option.any_none, Bool.false_eq_true, false_iff]
    exact fun h' => h ⟨h'.1, h'.2.1⟩

/-- **`==` compares values.** -/
theorem beq_iff {x y : Float} : (x == y) = true ↔ IsNumber x ∧ IsNumber y ∧ value x = value y := by
  have hdef : (x == y) = (x.toModel.unpack.compare y.toModel.unpack == some .eq) := rfl
  rw [hdef]
  by_cases h : IsNumber x ∧ IsNumber y
  · obtain ⟨a, b, hcmp, hab, hba⟩ := compare_unpack h.1 h.2
    rw [hcmp, beq_iff_eq, Option.some.injEq, compare_eq_iff_eq]
    have : value x = value y ↔ a = b := by
      rw [le_antisymm_iff, ← not_lt, ← not_lt, hab, hba]
      omega
    simp [h.1, h.2, this]
  · rw [compare_unpack_eq_none h]
    simp only [beq_iff_eq, reduceCtorEq, false_iff]
    exact fun h' => h ⟨h'.1, h'.2.1⟩

/-! ## Finite floats -/

/-- A finite float has a count below infinity. -/
theorem exists_word_of_isFinite {x : Float} (h : x.isFinite = true) :
    ∃ s w, w < infinityWord ∧ x.toModel.unpack = ofWord s w := by
  change x.toModel.unpack.isFinite = true at h
  rw [Float.Model.unpack, unpack_eq_ofWord] at h
  refine ⟨_, _, ?_, unpack_eq_ofWord _⟩
  unfold ofWord at h
  split_ifs at h with hnan hinf
  · exact absurd h (by simp [UnpackedFloat.isFinite])
  · exact absurd h (by simp [UnpackedFloat.isFinite])
  all_goals omega

theorem isNumber_of_isFinite {x : Float} (h : x.isFinite = true) : IsNumber x := by
  change x.toModel.unpack.isFinite = true at h
  change x.toModel.unpack.isNaN = false
  revert h
  cases x.toModel.unpack <;> simp [UnpackedFloat.isFinite, UnpackedFloat.isNaN]

/-- The real number of a finite float, by its sign and count. -/
theorem value_eq_of_word {x : Float} {s : Sign} {w : ℕ} (hw : w < infinityWord)
    (hx : x.toModel.unpack = ofWord s w) :
    value x = ((signFactor s * magnitude w : ℝ) : EReal) := by
  have hmag : magnitude w < limit := magnitude_infinityWord ▸ magnitude_strictMono hw
  rw [value, hx, unpackedValue_ofWord s hw.le, clamp_of_lt]
  rw [abs_mul, abs_of_nonneg (magnitude_nonneg w)]
  cases s <;> simpa [signFactor] using hmag

/-- **A finite float stands for its real number.** -/
theorem coe_real {x : Float} (h : x.isFinite = true) : ((real x : ℝ) : EReal) = value x := by
  obtain ⟨s, w, hw, hx⟩ := exists_word_of_isFinite h
  rw [real, value_eq_of_word hw hx, EReal.toReal_coe]

theorem real_eq_of_value {x : Float} {r : ℝ} (h : value x = (r : EReal)) : real x = r := by
  rw [real, h, EReal.toReal_coe]

theorem abs_real_lt {x : Float} (h : x.isFinite = true) : |real x| < limit := by
  obtain ⟨s, w, hw, hx⟩ := exists_word_of_isFinite h
  have hmag : magnitude w < limit := magnitude_infinityWord ▸ magnitude_strictMono hw
  rw [real_eq_of_value (value_eq_of_word hw hx), abs_mul, abs_of_nonneg (magnitude_nonneg w)]
  cases s <;> simpa [signFactor] using hmag

/-- **The value of a finite float is representable.** -/
theorem representable_real {x : Float} (h : x.isFinite = true) : Representable (real x) := by
  obtain ⟨s, w, hw, hx⟩ := exists_word_of_isFinite h
  rw [real_eq_of_value (value_eq_of_word hw hx)]
  cases s
  · rw [signFactor, neg_one_mul]
    exact (representable_magnitude w).neg
  · rw [signFactor, one_mul]
    exact representable_magnitude w

/-- **A number is finite or infinite.** -/
theorem IsNumber.cases {x : Float} (h : IsNumber x) :
    x.isFinite = true ∨ x.isFinite = false ∧ (value x = ⊤ ∨ value x = ⊥) := by
  change x.toModel.unpack.isNaN = false at h
  change x.toModel.unpack.isFinite = true ∨ x.toModel.unpack.isFinite = false ∧
    (unpackedValue x.toModel.unpack = ⊤ ∨ unpackedValue x.toModel.unpack = ⊥)
  revert h
  cases x.toModel.unpack with
  | notANumber => exact fun h => absurd h (by decide)
  | zero s => exact fun _ => .inl rfl
  | finite s m e hm => exact fun _ => .inl rfl
  | infinity s =>
    intro _
    cases s
    · exact .inr ⟨rfl, .inr rfl⟩
    · exact .inr ⟨rfl, .inl rfl⟩

/-- **The finite floats are the numbers with a real value.** -/
theorem isFinite_iff {x : Float} :
    x.isFinite = true ↔ IsNumber x ∧ ∃ r : ℝ, value x = (r : EReal) := by
  refine ⟨fun h => ⟨isNumber_of_isFinite h, real x, (coe_real h).symm⟩, fun ⟨hx, r, hr⟩ => ?_⟩
  rcases hx.cases with h | ⟨-, h | h⟩
  · exact h
  · exact absurd (hr.symm.trans h) (EReal.coe_ne_top r)
  · exact absurd (hr.symm.trans h) (EReal.coe_ne_bot r)

/-- A float with an infinite value is not finite. -/
theorem isFinite_eq_false {x : Float} (h : value x = ⊤ ∨ value x = ⊥) : x.isFinite = false := by
  by_contra hne
  rw [Bool.not_eq_false, isFinite_iff] at hne
  obtain ⟨-, r, hr⟩ := hne
  rcases h with h | h
  · exact EReal.coe_ne_top r (hr.symm.trans h)
  · exact EReal.coe_ne_bot r (hr.symm.trans h)

/-- A number that is not finite has an infinite value. -/
theorem IsNumber.value_of_not_isFinite {x : Float} (h : IsNumber x) (hx : x.isFinite = false) :
    value x = ⊤ ∨ value x = ⊥ := by
  rcases h.cases with h | ⟨-, h⟩
  · exact absurd (h.symm.trans hx) (by decide)
  · exact h

/-- An infinite number that is not negative is infinite upwards. -/
theorem IsNumber.value_eq_top {x : Float} (h : IsNumber x) (h0 : 0 ≤ value x)
    (hx : x.isFinite = false) : value x = ⊤ :=
  (h.value_of_not_isFinite hx).resolve_right (EReal.bot_lt_zero.trans_le h0).ne'

/-- The infinite floats are the numbers without a real value. -/
theorem isInf_iff {x : Float} : x.isInf = true ↔ IsNumber x ∧ (value x = ⊤ ∨ value x = ⊥) := by
  change x.toModel.unpack.isInf = true ↔ x.toModel.unpack.isNaN = false ∧
    (unpackedValue x.toModel.unpack = ⊤ ∨ unpackedValue x.toModel.unpack = ⊥)
  cases x.toModel.unpack with
  | notANumber => simp [UnpackedFloat.isInf, UnpackedFloat.isNaN]
  | zero s => simp [UnpackedFloat.isInf, unpackedValue]
  | finite s m e hm =>
    simp [UnpackedFloat.isInf, unpackedValue, -EReal.coe_mul]
  | infinity s => cases s <;> simp [UnpackedFloat.isInf, UnpackedFloat.isNaN, unpackedValue]

/-! ## Equal words, equal values -/

/-- The value of a packed word. -/
theorem value_ofModel_pack (s : Sign) {w : ℕ} (hw : w ≤ infinityWord) :
    IsNumber (.ofModel (.pack (ofWord s w))) ∧
      value (.ofModel (.pack (ofWord s w))) = clamp (signFactor s * magnitude w) := by
  have hunpack : (Float.Model.pack (ofWord s w)).unpack = ofWord s w := unpack_pack_ofWord s hw
  refine ⟨?_, by rw [value, hunpack, unpackedValue_ofWord s hw]⟩
  change (Float.Model.pack (ofWord s w)).unpack.isNaN = false
  rw [hunpack, ofWord, if_neg hw.not_gt]
  split_ifs <;> rfl

end CertifiedZeros.Binary64
