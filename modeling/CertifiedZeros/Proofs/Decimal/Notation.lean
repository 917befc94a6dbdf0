import CertifiedZeros.Decimal.Notation
import CertifiedZeros.Proofs.Binary64.Neighbours
import CertifiedZeros.Proofs.Decimal.Shortest

/-! # Written floats can be told apart

The text of a float in scientific notation determines the float. It is read from left to right: a
minus sign, the significant digits with a point among them, the letter `e`, and the power of ten of
the first digit. Only the value of the numeral counts in the end, because the rounding intervals of
different floats are disjoint.

* **`split_at`** — a character that does not occur before marks where a text is split.
* **`Decimal.value_eq_read`** — the value of a numeral, from what is written of it.
* **`Decimal.scientific_inj`** — numerals of one text have one value.
* **`Binary64.scientific_injective`** — floats of one text are equal.
* **`Binary64.isNumeral_of_mem`** — the characters that occur. -/

namespace CertifiedZeros

/-! ## Texts in parts -/

/-- **A text is split at the first place of a character** in one way. -/
theorem split_at {α : Type} {a : α} {x x' z z' : List α} (hx : a ∉ x) (hx' : a ∉ x')
    (h : x ++ a :: z = x' ++ a :: z') : x = x' ∧ z = z' := by
  induction x generalizing x' with
  | nil =>
    cases x' with
    | nil => exact ⟨rfl, List.tail_eq_of_cons_eq h⟩
    | cons b x' =>
      have hab : a = b := List.head_eq_of_cons_eq h
      exact absurd (hab ▸ List.mem_cons_self) hx'
  | cons b x ih =>
    cases x' with
    | nil =>
      have hba : b = a := List.head_eq_of_cons_eq h
      exact absurd (hba ▸ List.mem_cons_self) hx
    | cons b' x' =>
      obtain ⟨rfl, htail⟩ := List.cons_eq_cons.mp h
      obtain ⟨rfl, hz⟩ := ih (fun hmem => hx (List.mem_cons_of_mem _ hmem))
        (fun hmem => hx' (List.mem_cons_of_mem _ hmem)) htail
      exact ⟨rfl, hz⟩

/-- The characters of written numbers. -/
def isNumeral (c : Char) : Bool := c.isAlphanum || c == '.' || c == '-'

theorem isNumeral_of_isDigit {c : Char} (h : c.isDigit = true) : isNumeral c = true := by
  simp [isNumeral, Char.isAlphanum, h]

namespace Decimal

variable {d d' : Decimal}

/-! ## Significant digits -/

/-- Only zeros at the end are left out. -/
theorem toDigits_eq (d : Decimal) :
    ∃ t, Nat.toDigits 10 d.digits = d.significant ++ List.replicate t '0' := by
  have hsplit := List.takeWhile_append_dropWhile (p := (· == '0'))
    (l := (Nat.toDigits 10 d.digits).reverse)
  obtain ⟨t, ht⟩ : ∃ t, (Nat.toDigits 10 d.digits).reverse.takeWhile (· == '0')
      = List.replicate t '0' :=
    ⟨_, List.eq_replicate_of_mem fun c hc => eq_of_beq (List.mem_takeWhile_imp (p := (· == '0')) hc)⟩
  have hdigits := congrArg List.reverse hsplit
  rw [ht, List.reverse_append, List.reverse_replicate, List.reverse_reverse] at hdigits
  exact ⟨t, hdigits.symm⟩

theorem isDigit_of_mem_significant {c : Char} (h : c ∈ d.significant) : c.isDigit = true := by
  obtain ⟨t, ht⟩ := d.toDigits_eq
  refine Nat.isDigit_of_mem_toDigits (b := 10) (n := d.digits) (by norm_num) le_rfl ?_
  rw [ht]
  exact List.mem_append_left _ h

/-- The power of ten of the first digit. -/
def power (d : Decimal) : ℤ := d.exponent + ((Nat.toDigits 10 d.digits).length - 1 : ℕ)

/-- **The numeral that is read** from significant digits and the power of ten of the first one. -/
def read (ds : List Char) (power : ℤ) : Decimal where
  digits := Nat.ofDigitChars 10 ds 0
  exponent := power + 1 - ds.length

/-- **The value of a numeral is read** from its significant digits: each zero that is left out is a
factor of ten. -/
theorem value_eq_read (d : Decimal) : d.value = (read d.significant d.power).value := by
  obtain ⟨t, ht⟩ := d.toDigits_eq
  have hdigits : d.digits = 10 ^ t * Nat.ofDigitChars 10 d.significant 0 := by
    rw [← Nat.ofDigitChars_replicate_zero, ← Nat.ofDigitChars_append, ← ht,
      Nat.ofDigitChars_toDigits (by norm_num) le_rfl]
  have hlength : (Nat.toDigits 10 d.digits).length = d.significant.length + t := by
    rw [ht, List.length_append, List.length_replicate]
  have hone : 0 < (Nat.toDigits 10 d.digits).length := Nat.length_toDigits_pos
  have hpower : d.power + 1 - d.significant.length = d.exponent + t := by
    unfold power
    omega
  simp only [value, read]
  rw [hpower, hdigits, zpow_add₀ (by norm_num), zpow_natCast]
  push_cast
  ring

/-! ## Scientific notation -/

/-- The digits with the point among them. -/
def mantissa (ds : List Char) : List Char := ds.take 1 ++ fraction (ds.drop 1)

theorem scientific_toList (d : Decimal) :
    d.scientific.toList = mantissa d.significant ++ 'e' :: d.power.repr.toList := by
  rw [scientific, String.toList_append, String.toList_append, String.toList_ofList, List.append_assoc]
  rfl

/-- The point is left out, and the digits remain. -/
theorem filter_mantissa (ds : List Char) (h : '.' ∉ ds) :
    (mantissa ds).filter (· != '.') = ds := by
  have hdigits : ∀ l : List Char, '.' ∉ l → l.filter (· != '.') = l := fun l hl =>
    List.filter_eq_self.mpr fun c hc => by
      simpa using fun heq : c = '.' => hl (heq ▸ hc)
  have hfraction : (fraction (ds.drop 1)).filter (· != '.') = ds.drop 1 := by
    have hdrop := hdigits (ds.drop 1) fun hmem => h (List.mem_of_mem_drop hmem)
    unfold fraction
    split_ifs with hempty
    · rw [List.isEmpty_iff.mp hempty]
      rfl
    · rwa [List.filter_cons_of_neg (by simp)]
  rw [mantissa, List.filter_append, hfraction, hdigits _ fun hmem => h (List.mem_of_mem_take hmem),
    List.take_append_drop]

theorem mem_mantissa {ds : List Char} {c : Char} (h : c ∈ mantissa ds) : c ∈ ds ∨ c = '.' := by
  rcases List.mem_append.mp h with hmem | hmem
  · exact .inl (List.mem_of_mem_take hmem)
  · unfold fraction at hmem
    split_ifs at hmem
    · exact absurd hmem List.not_mem_nil
    · exact (List.mem_cons.mp hmem).symm.imp_left List.mem_of_mem_drop

/-- The characters before the letter `e`. -/
theorem isDigit_of_mem_mantissa {c : Char} (h : c ∈ mantissa d.significant) :
    c.isDigit = true ∨ c = '.' :=
  (mem_mantissa h).imp_left isDigit_of_mem_significant

theorem point_notMem_significant : '.' ∉ d.significant := fun h =>
  absurd (isDigit_of_mem_significant h) (by decide)

theorem exponentMark_notMem_mantissa : 'e' ∉ mantissa d.significant := fun h =>
  (isDigit_of_mem_mantissa h).elim (fun h => absurd h (by decide)) fun h => absurd h (by decide)

/-- **Numerals of one text have one value.** -/
theorem scientific_inj (h : d.scientific = d'.scientific) : d.value = d'.value := by
  rw [← String.toList_inj, scientific_toList, scientific_toList] at h
  -- the letter stands between the digits and the power, and in neither of them
  obtain ⟨hmantissa, hpower⟩ := split_at exponentMark_notMem_mantissa exponentMark_notMem_mantissa h
  have hsignificant : d.significant = d'.significant := by
    rw [← filter_mantissa d.significant point_notMem_significant, hmantissa,
      filter_mantissa d'.significant point_notMem_significant]
  rw [value_eq_read d, value_eq_read d', hsignificant,
    Int.repr_injective (String.toList_inj.mp hpower)]

/-- A numeral other than zero has a significant digit. -/
theorem significant_ne_nil (h : 0 < d.digits) : d.significant ≠ [] := by
  intro hnil
  obtain ⟨t, ht⟩ := d.toDigits_eq
  have hdigits := Nat.ofDigitChars_toDigits (b := 10) (n := d.digits) (by norm_num) le_rfl
  rw [ht, hnil, List.nil_append, Nat.ofDigitChars_replicate_zero, mul_zero] at hdigits
  exact absurd hdigits h.ne

/-- **The text of a numeral other than zero** begins with a digit, and it is not that of zero. -/
theorem scientific_spec (h : 0 < d.digits) :
    (∃ c t, d.scientific.toList = c :: t ∧ c.isDigit = true) ∧ d.scientific ≠ "0e0" := by
  constructor
  · obtain ⟨c, ds, hds⟩ := List.exists_cons_of_ne_nil (significant_ne_nil h)
    rw [scientific_toList, hds]
    exact ⟨c, _, rfl, isDigit_of_mem_significant (hds ▸ List.mem_cons_self)⟩
  · intro heq
    have hzero : mantissa d.significant ++ 'e' :: d.power.repr.toList = ['0'] ++ 'e' :: ['0'] := by
      rw [← scientific_toList, heq]
      rfl
    obtain ⟨hmantissa, -⟩ := split_at exponentMark_notMem_mantissa (by decide) hzero
    have hsignificant : d.significant = ['0'] := by
      rw [← filter_mantissa d.significant point_notMem_significant, hmantissa]
      rfl
    have hvalue : d.value = 0 := by
      rw [value_eq_read, hsignificant]
      simp [value, read, Nat.ofDigitChars_cons]
    have hpos : 0 < d.value := by
      unfold value
      positivity
    exact hpos.ne' hvalue

theorem isNumeral_of_mem {c : Char} (h : c ∈ d.scientific.toList) : isNumeral c = true := by
  rw [scientific_toList, List.mem_append, List.mem_cons] at h
  rcases h with hmantissa | rfl | hpower
  · rcases isDigit_of_mem_mantissa hmantissa with hdigit | rfl
    · exact isNumeral_of_isDigit hdigit
    · decide
  · decide
  · have hnat : ∀ n : ℕ, c ∈ n.repr.toList → isNumeral c = true := fun n hn => by
      rw [Nat.toList_repr] at hn
      exact isNumeral_of_isDigit (Nat.isDigit_of_mem_toDigits (by norm_num) le_rfl hn)
    rw [Int.repr_eq_if] at hpower
    split_ifs at hpower
    · exact hnat _ hpower
    · rw [String.toList_append, List.mem_append] at hpower
      rcases hpower with hsign | hnumber
      · rw [List.mem_singleton.mp hsign]
        decide
      · exact hnat _ hnumber

end Decimal

namespace Binary64

open Float.Model.UnpackedFloat

variable {x y : Float}

/-! ## Floats -/

/-- A float is determined by what it unpacks to. -/
theorem unpack_inj (h : x.toModel.unpack = y.toModel.unpack) : x = y := by
  have hbits := (Float.Model.UnpackedFloat.unpack_inj_of_valid x.toModel.valid y.toModel.valid).mp h
  cases x with | ofModel mx => cases y with | ofModel my =>
  cases mx with | mk bx hx => cases my with | mk bz hy =>
  obtain rfl : bx = bz := UInt64.toBitVec_inj.mp hbits
  rfl

/-- The text of a sign. -/
def signText : Sign → String
  | .negative => "-"
  | .positive => ""

/-- **The text of a word**, without a sign. -/
def wordText (w : ℕ) : String :=
  if w = infinityWord then "inf"
  else if w = 0 then "0e0"
  else (RoundingInterval.ofWord w).shortest.scientific

theorem signText_eq {s : Sign} {w : ℕ} (hw : w ≤ infinityWord)
    (h : x.toBits.toNat = signBit s * 2 ^ 63 + w) :
    (if isNegative x then "-" else "") = signText s := by
  have hshift : (x.toBits >>> 63).toNat = signBit s := by
    rw [UInt64.toNat_shiftRight, h, show (63 : UInt64).toNat % 64 = 63 from rfl,
      Nat.shiftRight_eq_div_pow]
    unfold infinityWord at hw
    omega
  have hneg : isNegative x = (signBit s == 1) := by
    rw [isNegative, Bool.eq_iff_iff, beq_iff_eq, beq_iff_eq, ← UInt64.toNat_inj, hshift]
    rfl
  rw [hneg]
  cases s <;> rfl

/-- **The text of a number** is a sign and the text of a word, and both determine the number. -/
theorem scientific_eq (hx : IsNumber x) : ∃ s w, w ≤ infinityWord ∧ x.toModel.unpack = ofWord s w ∧
    scientific x = signText s ++ wordText w := by
  obtain ⟨s, w, hw, hunpack, hbits⟩ := hx.exists_toBits
  refine ⟨s, w, hw, hunpack, ?_⟩
  rw [scientific, written, hunpack, signText_eq hw hbits, wordText]
  unfold ofWord
  rw [if_neg hw.not_gt]
  split_ifs <;> rfl

theorem scientific_of_not_isNumber (hx : ¬IsNumber x) : scientific x = "NaN" := by
  rw [scientific, written, unpack_of_not_isNumber hx]

/-- **Words of one text are equal.** -/
theorem wordText_inj {w w' : ℕ} (h : wordText w = wordText w') : w = w' := by
  have hspec : ∀ {u : ℕ}, u ≠ 0 → 0 < (RoundingInterval.ofWord u).shortest.digits := fun hu =>
    (RoundingInterval.shortest_ofWord_spec hu).2
  -- neither special text is that of a numeral
  have hinf : ∀ {u : ℕ}, u ≠ 0 → (RoundingInterval.ofWord u).shortest.scientific ≠ "inf" := by
    intro u hu heq
    obtain ⟨⟨c, t, hc, hdigit⟩, -⟩ := Decimal.scientific_spec (hspec hu)
    rw [heq] at hc
    obtain rfl : 'i' = c := List.head_eq_of_cons_eq hc
    exact absurd hdigit (by decide)
  have hzero : ∀ {u : ℕ}, u ≠ 0 → (RoundingInterval.ofWord u).shortest.scientific ≠ "0e0" :=
    fun hu => (Decimal.scientific_spec (hspec hu)).2
  unfold wordText at h
  split_ifs at h with hw hw' hw0' hw0 hw' hw0' hw' hw0'
  · rw [hw, hw']
  · exact absurd h (by decide)
  · exact absurd h.symm (hinf hw0')
  · exact absurd h (by decide)
  · rw [hw0, hw0']
  · exact absurd h.symm (hzero hw0')
  · exact absurd h (hinf hw0)
  · exact absurd h (hzero hw0)
  · exact RoundingInterval.shortest_inj hw0 hw0' (Decimal.scientific_inj h)

/-- The text of a word begins with a digit or with the letter of infinity. -/
theorem wordText_head (w : ℕ) :
    ∃ c t, (wordText w).toList = c :: t ∧ (c.isDigit = true ∨ c = 'i') := by
  unfold wordText
  split_ifs with hw h0
  · exact ⟨'i', _, rfl, .inr rfl⟩
  · exact ⟨'0', _, rfl, .inl rfl⟩
  · obtain ⟨⟨c, t, hc, hdigit⟩, -⟩ :=
      Decimal.scientific_spec (RoundingInterval.shortest_ofWord_spec h0).2
    exact ⟨c, t, hc, .inl hdigit⟩

/-- The sign is read off the first character. -/
theorem signText_append_inj {s s' : Sign} {w w' : ℕ}
    (h : signText s ++ wordText w = signText s' ++ wordText w') :
    s = s' ∧ wordText w = wordText w' := by
  have hminus : ∀ {u : ℕ} {t : String}, "-" ++ t ≠ "" ++ wordText u := by
    intro u t heq
    obtain ⟨c, l, hc, hfirst⟩ := wordText_head u
    rw [← String.toList_inj, String.toList_append, String.empty_append, hc] at heq
    obtain rfl : '-' = c := List.head_eq_of_cons_eq heq
    exact absurd hfirst (by decide)
  cases s <;> cases s'
  · exact ⟨rfl, (String.append_right_inj _).mp h⟩
  · exact absurd h hminus
  · exact absurd h.symm hminus
  · exact ⟨rfl, (String.append_right_inj _).mp h⟩

/-- No number is written as a NaN. -/
theorem signText_append_ne (s : Sign) (w : ℕ) : signText s ++ wordText w ≠ "NaN" := by
  intro heq
  obtain ⟨c, t, hc, hfirst⟩ := wordText_head w
  rw [← String.toList_inj, String.toList_append, hc] at heq
  cases s
  · exact absurd (List.head_eq_of_cons_eq heq) (by decide)
  · obtain rfl : c = 'N' := List.head_eq_of_cons_eq heq
    exact absurd hfirst (by decide)

/-- **Floats of one text are equal.** Each float has its own text in scientific notation: the two
zeros differ in the sign, and there is a single NaN. -/
theorem scientific_injective : Function.Injective scientific := by
  intro x y h
  apply unpack_inj
  by_cases hx : IsNumber x <;> by_cases hy : IsNumber y
  · obtain ⟨s, w, -, hunpack, htext⟩ := scientific_eq hx
    obtain ⟨s', w', -, hunpack', htext'⟩ := scientific_eq hy
    obtain ⟨rfl, hword⟩ := signText_append_inj (htext ▸ htext' ▸ h)
    rw [hunpack, hunpack', wordText_inj hword]
  · obtain ⟨s, w, -, -, htext⟩ := scientific_eq hx
    rw [htext, scientific_of_not_isNumber hy] at h
    exact absurd h (signText_append_ne s w)
  · obtain ⟨s, w, -, -, htext⟩ := scientific_eq hy
    rw [htext, scientific_of_not_isNumber hx] at h
    exact absurd h.symm (signText_append_ne s w)
  · rw [unpack_of_not_isNumber hx, unpack_of_not_isNumber hy]

/-- **The characters of a written float.** -/
theorem isNumeral_of_mem {c : Char} (h : c ∈ (scientific x).toList) : isNumeral c = true := by
  by_cases hx : IsNumber x
  · obtain ⟨s, w, -, -, htext⟩ := scientific_eq hx
    rw [htext, String.toList_append, List.mem_append] at h
    rcases h with hsign | hword
    · cases s with
      | negative =>
        rw [List.mem_singleton.mp hsign]
        decide
      | positive => exact absurd hsign List.not_mem_nil
    · unfold wordText at hword
      split_ifs at hword
      · exact (by simp [isNumeral] : ∀ c ∈ "inf".toList, isNumeral c = true) c hword
      · exact (by simp [isNumeral] : ∀ c ∈ "0e0".toList, isNumeral c = true) c hword
      · exact Decimal.isNumeral_of_mem hword
  · rw [scientific_of_not_isNumber hx] at h
    exact (by simp [isNumeral] : ∀ c ∈ "NaN".toList, isNumeral c = true) c h

/-- No other character occurs. -/
theorem notMem_scientific {c : Char} (hc : isNumeral c = false) : c ∉ (scientific x).toList :=
  fun h => Bool.false_ne_true (hc ▸ isNumeral_of_mem h)

end Binary64

end CertifiedZeros
