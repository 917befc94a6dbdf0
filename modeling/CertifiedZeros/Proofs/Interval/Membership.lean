import CertifiedZeros.Interval.PointOperations
import CertifiedZeros.Proofs.Binary64.ErrorFree
import CertifiedZeros.Proofs.Binary64.Order

/-! # Members, and what lies beside a rounded number

An interval stands for the numbers between its endpoints:

* **`Brackets X x`** — the endpoints of `X` are numbers on either side of the extended real `x`;
  membership `x ∈ X` is the same for a real `x`.
* **`besides_spec`** — what the sign of a computed error decides: the endpoint on that side moves
  to the neighbour, and the other one stays at the rounded result.
* **`around_brackets`**, **`ofOverflow_brackets`** — the intervals for results whose error is not
  computed. -/

namespace CertifiedZeros.Interval

open Binary64

/-! ## Membership -/

/-- **The endpoints are numbers on either side of `x`.** -/
def Brackets (X : Interval) (x : EReal) : Prop :=
  IsNumber X.lo ∧ IsNumber X.hi ∧ value X.lo ≤ x ∧ x ≤ value X.hi

/-- The real numbers that an interval stands for. -/
instance : Membership ℝ Interval := ⟨fun X x => X.Brackets (x : EReal)⟩

theorem mem_iff {X : Interval} {x : ℝ} :
    x ∈ X ↔ IsNumber X.lo ∧ IsNumber X.hi ∧ value X.lo ≤ x ∧ (x : EReal) ≤ value X.hi := Iff.rfl

/-- The endpoints of a made interval. Rewriting with these keeps the endpoints themselves folded. -/
theorem mk_lo (a b : Float) : (Interval.mk a b).lo = a := rfl

theorem mk_hi (a b : Float) : (Interval.mk a b).hi = b := rfl

/-- The ends of a finite interval belong to it. -/
theorem lo_mem {X : Interval} (h : X.lo ≤ X.hi) (hfin : X.lo.isFinite = true) : real X.lo ∈ X := by
  obtain ⟨hlo, hhi, hle⟩ := le_iff.mp h
  rw [mem_iff, coe_real hfin]
  exact ⟨hlo, hhi, le_rfl, hle⟩

theorem hi_mem {X : Interval} (h : X.lo ≤ X.hi) (hfin : X.hi.isFinite = true) : real X.hi ∈ X := by
  obtain ⟨hlo, hhi, hle⟩ := le_iff.mp h
  rw [mem_iff, coe_real hfin]
  exact ⟨hlo, hhi, hle, le_rfl⟩

theorem le_of_mem {X : Interval} {x : ℝ} (h : x ∈ X) : X.lo ≤ X.hi :=
  le_iff.mpr ⟨h.1, h.2.1, h.2.2.1.trans h.2.2.2⟩

/-- A finite float belongs to its own point. -/
theorem mem_point {a : Float} (ha : a.isFinite = true) : real a ∈ point a := by
  rw [mem_iff, coe_real ha]
  exact ⟨isNumber_of_isFinite ha, isNumber_of_isFinite ha, le_rfl, le_rfl⟩

/-- A finite float that stands for a member is contained. -/
theorem contains_of_mem {X : Interval} {a : Float} (hfin : a.isFinite = true) (ha : real a ∈ X) :
    X.contains a = true := by
  obtain ⟨hl, hh, hle, hge⟩ := mem_iff.mp ha
  rw [coe_real hfin] at hle hge
  have hnum := isNumber_of_isFinite hfin
  simp only [contains, Bool.and_eq_true, decide_eq_true_eq]
  exact ⟨le_iff.mpr ⟨hl, hnum, hle⟩, le_iff.mpr ⟨hnum, hh, hge⟩⟩

/-- A whole number belongs to its point, as long as the point is exact. -/
theorem count_mem {n : ℕ} (h : n < 2 ^ 53) : (n : ℝ) ∈ (n : Interval) := by
  obtain ⟨hfin, hreal⟩ := natCast_spec h
  have hmem := mem_point hfin
  rwa [hreal] at hmem

/-- Membership in a finite interval is a pair of inequalities between reals. -/
theorem mem_iff_real {X : Interval} {x : ℝ} (hl : X.lo.isFinite = true)
    (hh : X.hi.isFinite = true) : x ∈ X ↔ real X.lo ≤ x ∧ x ≤ real X.hi := by
  rw [mem_iff, ← coe_real hl, ← coe_real hh, EReal.coe_le_coe_iff, EReal.coe_le_coe_iff]
  exact ⟨fun h => h.2.2, fun h => ⟨isNumber_of_isFinite hl, isNumber_of_isFinite hh, h⟩⟩

/-! ## One neighbour -/

variable {s e a b : Float} {r : ℝ}

theorem not_lt_of_lt {x y : Float} (h : x < y) : ¬y < x := fun h' =>
  absurd (lt_iff.mp h').2.2 (not_lt.mpr (lt_iff.mp h).2.2.le)

/-- **The endpoint on the side of the error moves, the other one stays.** -/
theorem besides_spec (hs : s.isFinite = true) (hr : value s = clamp (rounded r)) :
    IsNumber (besides s e).lo ∧ IsNumber (besides s e).hi ∧
      (value (besides s e).lo ≤ r ↔ e < 0 ∨ real s ≤ r) ∧
      ((r : EReal) ≤ value (besides s e).hi ↔ 0 < e ∨ r ≤ real s) := by
  have hnum := isNumber_of_isFinite hs
  have hval := coe_real hs
  have htop : value s ≠ ⊤ := hval ▸ EReal.coe_ne_top _
  have hbot : value s ≠ ⊥ := hval ▸ EReal.coe_ne_bot _
  have hup := le_nextUp_of_rounded hnum htop hr
  have hdown := nextDown_le_of_rounded hnum hbot hr
  unfold besides
  split_ifs with hpos hneg
  · refine ⟨hnum, isNumber_nextUp hnum, ?_, ?_⟩
    · rw [← hval, EReal.coe_le_coe_iff]
      exact (or_iff_right (not_lt_of_lt hpos)).symm
    · exact iff_of_true hup (.inl hpos)
  · refine ⟨isNumber_nextDown hnum, hnum, ?_, ?_⟩
    · exact iff_of_true hdown (.inl hneg)
    · rw [← hval, EReal.coe_le_coe_iff]
      exact (or_iff_right hpos).symm
  · refine ⟨hnum, hnum, ?_, ?_⟩
    · rw [point, ← hval, EReal.coe_le_coe_iff]
      exact (or_iff_right hneg).symm
    · rw [point, ← hval, EReal.coe_le_coe_iff]
      exact (or_iff_right hpos).symm

/-- Neither end moves inwards. -/
theorem besides_brackets (hs : s.isFinite = true) : (besides s e).Brackets (value s) := by
  have hnum := isNumber_of_isFinite hs
  unfold besides
  split_ifs
  · exact ⟨hnum, isNumber_nextUp hnum, le_rfl, le_nextUp hnum⟩
  · exact ⟨isNumber_nextDown hnum, hnum, nextDown_le hnum, le_rfl⟩
  · exact ⟨hnum, hnum, le_rfl, le_rfl⟩

/-- **Both neighbours enclose everything that is rounded to the float between them.** -/
theorem around_brackets (hs : s.isFinite = true) (hr : value s = clamp (rounded r)) :
    (around s).Brackets r := by
  have hnum := isNumber_of_isFinite hs
  have hval := coe_real hs
  exact ⟨isNumber_nextDown hnum, isNumber_nextUp hnum,
    nextDown_le_of_rounded hnum (hval ▸ EReal.coe_ne_bot _) hr,
    le_nextUp_of_rounded hnum (hval ▸ EReal.coe_ne_top _) hr⟩

/-! ## Overflow -/

/-- **An infinite result of finite operands** is enclosed between the largest float and infinity. -/
theorem ofOverflow_brackets (hs : IsNumber s) (hinf : s.isFinite = false)
    (hr : value s = clamp (rounded r)) : (ofOverflow s).Brackets r := by
  obtain ⟨hlnum, hlval⟩ := value_largest
  have hrep := representable_limit_sub
  have hpos := topUnit_pos
  have hneg := neg_spec infinity_isNumber
  have hnegl := neg_spec hlnum
  have hlarge : |limit - topUnit| < limit := by
    rw [abs_of_nonneg] <;> linarith [limit_eq]
  unfold ofOverflow
  rcases hs.value_of_not_isFinite hinf with htop | hbot
  · rw [if_pos (beq_iff.mpr ⟨hs, infinity_isNumber, htop.trans value_infinity.symm⟩)]
    refine ⟨hlnum, infinity_isNumber, ?_, by rw [value_infinity]; exact le_top⟩
    rw [hlval, EReal.coe_le_coe_iff]
    by_contra hlt
    have hle := clamp_mono (rounded_le hrep (not_le.mp hlt).le)
    rw [← hr, htop, clamp_of_lt hlarge] at hle
    exact absurd hle (not_le.mpr (EReal.coe_lt_top _))
  · have hne : ¬(s == infinity) = true := fun h => by
      have := (beq_iff.mp h).2.2
      rw [hbot, value_infinity] at this
      exact absurd this (by simp)
    rw [if_neg hne, if_pos (beq_iff.mpr ⟨hs, hneg.1, by rw [hneg.2, value_infinity, hbot]; rfl⟩)]
    refine ⟨hneg.1, hnegl.1, by rw [hneg.2, value_infinity]; exact bot_le, ?_⟩
    rw [hnegl.2, hlval, ← EReal.coe_neg, EReal.coe_le_coe_iff]
    by_contra hlt
    have hle := clamp_mono (le_rounded hrep.neg (not_le.mp hlt).le)
    rw [← hr, hbot, clamp_neg, clamp_of_lt hlarge, ← EReal.coe_neg] at hle
    exact absurd hle (not_le.mpr (EReal.bot_lt_coe _))

/-- An overflow lies at the outer end of its enclosure. -/
theorem ofOverflow_brackets_self (hs : IsNumber s) (hinf : s.isFinite = false) :
    (ofOverflow s).Brackets (value s) := by
  rcases hs.value_of_not_isFinite hinf with htop | hbot
  · rw [ofOverflow, if_pos (beq_iff.mpr ⟨hs, infinity_isNumber, htop.trans value_infinity.symm⟩), htop]
    exact ⟨value_largest.1, infinity_isNumber, le_top, value_infinity.ge⟩
  · have hneg := neg_spec infinity_isNumber
    have hbot' : value s = value (-infinity) := by
      rw [hneg.2, value_infinity, hbot]
      rfl
    have hne : ¬(s == infinity) = true := fun h => by
      have htop := (beq_iff.mp h).2.2
      rw [hbot, value_infinity] at htop
      exact absurd htop (by simp)
    rw [ofOverflow, if_neg hne, if_pos (beq_iff.mpr ⟨hs, hneg.1, hbot'⟩), hbot]
    exact ⟨hneg.1, (neg_spec value_largest.1).1, (hbot'.symm.trans hbot).le, bot_le⟩

end CertifiedZeros.Interval
