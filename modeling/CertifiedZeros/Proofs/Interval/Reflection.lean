import CertifiedZeros.Proofs.Binary64.Reflection
import CertifiedZeros.Proofs.Interval.Orderly

/-! # Intervals up to the sign

Rounding outwards is symmetric about zero: the interval of the opposite numbers is the opposite
interval, its ends exchanged.

* **`Turned flip X X'`** — `X'` is the interval `X`, or its opposite when `flip` is set.
* **`Turned.add`**, **`Turned.mul`**, **`Turned.abs`**, **`Turned.pow`** — what interval operations make
  of such pairs. -/

namespace CertifiedZeros.Interval

open Binary64

/-- **`X'` is the interval `X`**, or its opposite when `flip` is set. -/
def Turned : Bool → Interval → Interval → Prop
  | false, X, X' => Binary64.Turned false X.lo X'.lo ∧ Binary64.Turned false X.hi X'.hi
  | true, X, X' => Binary64.Turned true X.hi X'.lo ∧ Binary64.Turned true X.lo X'.hi

variable {X X' Y Y' : Interval} {a a' b b' s s' : Float} {f g : Bool}

theorem Turned.refl (X : Interval) : Turned false X X := ⟨.refl _, .refl _⟩

theorem Turned.neg (h : Turned f X X') : Turned f (-X) (-X') := by
  cases f with
  | false => exact ⟨h.2.neg, h.1.neg⟩
  | true => exact ⟨h.2.neg, h.1.neg⟩

theorem turned_neg (X : Interval) : Turned true X (-X) := ⟨Binary64.turned_neg _, Binary64.turned_neg _⟩

theorem Turned.symm (h : Turned f X X') : Turned f X' X := by
  cases f with
  | false => exact ⟨h.1.symm, h.2.symm⟩
  | true => exact ⟨h.2.symm, h.1.symm⟩

theorem Turned.trans {Z : Interval} (h : Turned f X Y) (h' : Turned g Y Z) : Turned (f ^^ g) X Z := by
  cases f <;> cases g
  · exact ⟨h.1.trans h'.1, h.2.trans h'.2⟩
  · exact ⟨h.2.trans h'.1, h.1.trans h'.2⟩
  · exact ⟨h.1.trans h'.1, h.2.trans h'.2⟩
  · exact ⟨h.2.trans h'.1, h.1.trans h'.2⟩

/-! ## Results of point operations -/

theorem turned_point (h : Binary64.Turned f a a') : Turned f (point a) (point a') := by
  cases f with
  | false => exact ⟨h, h⟩
  | true => exact ⟨h, h⟩

theorem turned_zero (f : Bool) : Turned f 0 0 := turned_point (Binary64.turned_zero f)

/-- **The side of the error turns with it.** -/
theorem turned_besides (hs : Binary64.Turned f s s') (ha : Binary64.Turned f a a') :
    Turned f (besides s a) (besides s' a') := by
  have hzero := Binary64.turned_zero f
  unfold besides
  cases f with
  | false =>
    simp only [hzero.lt_iff ha, ha.lt_iff hzero]
    split_ifs
    · exact ⟨hs, hs.nextUp⟩
    · exact ⟨hs.nextDown, hs⟩
    · exact turned_point hs
  | true =>
    simp only [hzero.lt_iff_gt ha, ha.lt_iff_gt hzero]
    split_ifs with hneg hpos
    · exact absurd (lt_iff.mp hneg).2.2 (not_lt.mpr (lt_iff.mp hpos).2.2.le)
    · exact ⟨hs.nextUp_nextDown, hs⟩
    · exact ⟨hs, hs.nextDown_nextUp⟩
    · exact turned_point hs

theorem turned_around (hs : Binary64.Turned f s s') : Turned f (around s) (around s') := by
  cases f with
  | false => exact ⟨hs.nextDown, hs.nextUp⟩
  | true => exact ⟨hs.nextUp_nextDown, hs.nextDown_nextUp⟩

theorem turned_ofOverflow (hs : Binary64.Turned f s s') : Turned f (ofOverflow s) (ofOverflow s') := by
  unfold ofOverflow
  cases f with
  | false =>
    rw [hs.beq (.refl infinity), hs.beq (.refl (-infinity))]
    split_ifs
    · exact .refl _
    · exact .refl _
    · exact turned_point hs
  | true =>
    rw [hs.beq (Binary64.turned_neg infinity).symm, hs.beq (Binary64.turned_neg infinity)]
    split_ifs with htop hbot
    · have hsame : value infinity = value (-infinity) :=
        (beq_iff.mp htop).2.2.symm.trans (beq_iff.mp hbot).2.2
      rw [value_neg infinity_isNumber, value_infinity] at hsame
      exact absurd hsame (by simp)
    · exact ⟨Binary64.turned_neg _, Binary64.turned_neg _⟩
    · exact ⟨(Binary64.turned_neg _).symm, (Binary64.turned_neg _).symm⟩
    · exact turned_point hs

/-- **Sums of opposite floats** have opposite intervals. -/
theorem turned_ofSum (ha : Binary64.Turned f a a') (hb : Binary64.Turned f b b') :
    Turned f (ofSum a b) (ofSum a' b') := by
  have hs := ha.add hb
  have herror : Binary64.Turned f (sumError a b (a + b)) (sumError a' b' (a' + b')) :=
    (ha.sub (hs.sub (hs.sub ha))).add (hb.sub (hs.sub ha))
  unfold ofSum
  dsimp only
  rw [hs.isFinite, ha.isFinite, hb.isFinite]
  split_ifs
  · exact turned_besides hs herror
  · exact turned_ofOverflow hs
  · exact turned_point hs

/-- **Products of turned floats** have turned intervals. -/
theorem turned_ofProduct (ha : Binary64.Turned f a a') (hb : Binary64.Turned g b b') :
    Turned (f ^^ g) (ofProduct a b) (ofProduct a' b') := by
  have hp := ha.mul hb
  have hsmall : (a' * b').abs < residualFloor ↔ (a * b).abs < residualFloor :=
    hp.abs.lt_iff (.refl residualFloor)
  unfold ofProduct
  dsimp only
  rw [ha.beq_zero, hb.beq_zero, hp.isFinite, ha.isFinite, hb.isFinite]
  simp only [hsmall]
  split_ifs with hzero hfin
  · exact turned_zero _
  · exact turned_around hp
  · obtain ⟨hafin, hbfin⟩ := isFinite_of_mul hfin
    exact turned_besides hp (ha.fma hb hp.neg hafin hbfin (neg_finite hfin).1)
  · exact turned_ofOverflow hp
  · exact turned_point hp

/-- Quotients of equal floats by the same float have equal intervals. -/
theorem turned_ofQuotient (ha : Binary64.Turned false a a') (c : Float) :
    Turned false (ofQuotient a c) (ofQuotient a' c) := by
  have hq := ha.div_same c
  have hsmall : (a' / c).abs < residualFloor ↔ (a / c).abs < residualFloor :=
    hq.abs.lt_iff (.refl residualFloor)
  have hr := hq.neg.fma_same (.refl c) ha
  unfold ofQuotient
  dsimp only
  rw [ha.beq_zero, hq.isFinite, ha.isFinite]
  simp only [hsmall]
  split_ifs
  · exact .refl 0
  · exact turned_around hq
  · exact turned_besides hq hr
  · exact turned_besides hq hr.neg
  · exact turned_ofOverflow hq
  · exact turned_point hq

/-! ## Hulls -/

theorem Turned.hull (hX : Turned f X X') (hY : Turned f Y Y') : Turned f (X.hull Y) (X'.hull Y') := by
  cases f with
  | false => exact ⟨hX.1.smaller hY.1, hX.2.larger hY.2⟩
  | true => exact ⟨hX.1.larger_smaller hY.1, hX.2.smaller_larger hY.2⟩

/-- **An interval in ranks**: those of the upper end and of the opposite lower end. Both are larger
when the interval is. -/
theorem turned_of_ranks (hlo : rank (-X'.lo) = rank (-X.lo)) (hhi : rank X'.hi = rank X.hi) :
    Turned false X X' := by
  have hneg : Binary64.Turned false (-X.lo) (-X'.lo) := turned_false_iff.mpr hlo
  exact ⟨((Binary64.turned_neg X.lo).trans hneg).trans (Binary64.turned_neg X'.lo).symm, turned_false_iff.mpr hhi⟩

theorem rank_hull_hi (X Y : Interval) : rank (X.hull Y).hi = max (rank X.hi) (rank Y.hi) :=
  rank_larger X.hi Y.hi

theorem rank_hull_lo (X Y : Interval) :
    rank (-(X.hull Y).lo) = max (rank (-X.lo)) (rank (-Y.lo)) := by
  have hlo : Binary64.Turned false (Binary64.larger (-X.lo) (-Y.lo)) (-(X.hull Y).lo) :=
    (turned_smaller X.lo Y.lo).trans (Binary64.turned_neg _)
  rw [turned_false_iff.mp hlo, rank_larger]

/-- **The order of a hull of four does not matter**: the operands of either hull may change places, and
the two pairs may. -/
theorem turned_hulls (A B C D : Interval) :
    Turned false (((A.hull B).hull C).hull D) (((B.hull A).hull D).hull C) ∧
      Turned false (((A.hull B).hull C).hull D) (((C.hull D).hull A).hull B) := by
  refine ⟨turned_of_ranks ?_ ?_, turned_of_ranks ?_ ?_⟩
  · simp only [rank_hull_lo]
    ac_rfl
  · simp only [rank_hull_hi]
    ac_rfl
  · simp only [rank_hull_lo]
    ac_rfl
  · simp only [rank_hull_hi]
    ac_rfl

/-- **The corners of turned intervals** are the turned corners, in another order. -/
theorem turned_corners {op : Float → Float → Interval}
    (hop : ∀ {a a' b b'}, Binary64.Turned f a a' → Binary64.Turned g b b' →
      Turned (f ^^ g) (op a b) (op a' b')) (hX : Turned f X X') (hY : Turned g Y Y') :
    Turned (f ^^ g) (corners op X Y) (corners op X' Y') := by
  have hends : ∀ {p q r t : Float}, Binary64.Turned f p X'.lo → Binary64.Turned f q X'.hi →
      Binary64.Turned g r Y'.lo → Binary64.Turned g t Y'.hi →
      Turned (f ^^ g) ((((op p r).hull (op p t)).hull (op q r)).hull (op q t)) (corners op X' Y') :=
    fun hp hq hr ht => (((hop hp hr).hull (hop hp ht)).hull (hop hq hr)).hull (hop hq ht)
  cases f <;> cases g
  · exact hends hX.1 hX.2 hY.1 hY.2
  · exact (turned_hulls _ _ _ _).1.trans (hends hX.1 hX.2 hY.1 hY.2)
  · exact (turned_hulls _ _ _ _).2.trans (hends hX.1 hX.2 hY.1 hY.2)
  · exact ((turned_hulls _ _ _ _).1.trans (turned_hulls _ _ _ _).2).trans
      (hends hX.1 hX.2 hY.1 hY.2)

/-! ## Arithmetic -/

theorem Turned.add (hX : Turned f X X') (hY : Turned f Y Y') : Turned f (X + Y) (X' + Y') := by
  rw [add_def, add_def]
  cases f with
  | false => exact ⟨(turned_ofSum hX.1 hY.1).1, (turned_ofSum hX.2 hY.2).2⟩
  | true => exact ⟨(turned_ofSum hX.1 hY.1).1, (turned_ofSum hX.2 hY.2).2⟩

theorem Turned.sub (hX : Turned f X X') (hY : Turned f Y Y') : Turned f (X - Y) (X' - Y') := by
  rw [sub_eq_add, sub_eq_add]
  exact hX.add hY.neg

theorem Turned.beq_zero (h : Turned f X X') : (X' == 0) = (X == 0) := by
  change (X'.lo == 0 && X'.hi == 0) = (X.lo == 0 && X.hi == 0)
  cases f with
  | false => rw [h.1.beq_zero, h.2.beq_zero]
  | true => rw [h.1.beq_zero, h.2.beq_zero, Bool.and_comm]

/-- **A product turns with each factor.** -/
theorem Turned.mul (hX : Turned f X X') (hY : Turned g Y Y') : Turned (f ^^ g) (X * Y) (X' * Y') := by
  rw [mul_def, mul_def, hX.beq_zero, hY.beq_zero]
  split_ifs
  · exact turned_zero _
  · exact turned_corners turned_ofProduct hX hY

/-- Quotients of equal intervals by the same interval are equal. -/
theorem Turned.div_same (h : Turned false X X') (Z : Interval) : Turned false (X / Z) (X' / Z) := by
  have hdef : ∀ W : Interval, W / Z = if Z.lo ≤ 0 && Z.hi ≥ 0 then entire
      else corners ofQuotient W Z := fun _ => rfl
  rw [hdef X, hdef X']
  split_ifs
  · exact .refl _
  · exact (((turned_ofQuotient h.1 Z.lo).hull (turned_ofQuotient h.1 Z.hi)).hull
      (turned_ofQuotient h.2 Z.lo)).hull (turned_ofQuotient h.2 Z.hi)

/-! ## Absolute value, maximum and powers -/

theorem Turned.larger (hX : Turned false X X') (hY : Turned false Y Y') :
    Turned false (X.larger Y) (X'.larger Y') :=
  ⟨hX.1.larger hY.1, hX.2.larger hY.2⟩

/-- **Opposite intervals have the same absolute value.** Where both ends vanish, it is read off the
interval on one side and off its opposite on the other; for that the ends have to be in order. -/
theorem Turned.abs (h : Turned f X X') (horder : f = true → ¬X.hi < X.lo) :
    Turned false X.abs X'.abs := by
  have hzero := Binary64.turned_zero f
  unfold Interval.abs
  cases f with
  | false =>
    have hlo : X'.lo ≥ 0 ↔ X.lo ≥ 0 := hzero.le_iff h.1
    have hhi : X'.hi ≤ 0 ↔ X.hi ≤ 0 := h.2.le_iff hzero
    simp only [hlo, hhi]
    split_ifs
    · exact h
    · exact h.neg
    · exact ⟨.refl 0, h.2.larger h.1.neg⟩
  | true =>
    have hlo : X'.lo ≥ 0 ↔ X.hi ≤ 0 := hzero.le_iff_ge h.1
    have hhi : X'.hi ≤ 0 ↔ X.lo ≥ 0 := h.2.le_iff_ge hzero
    simp only [hlo, hhi]
    split_ifs with hpos hneg
    · obtain ⟨-, hl, hlvalue⟩ := le_iff.mp hpos
      obtain ⟨hh, -, hhvalue⟩ := le_iff.mp hneg
      rw [value_zero] at hlvalue hhvalue
      have hle : value X.lo ≤ value X.hi := not_lt.mp fun hlt => horder rfl (lt_iff.mpr ⟨hh, hl, hlt⟩)
      have hlzero : value X.lo = 0 := le_antisymm (hle.trans hhvalue) hlvalue
      have hhzero : value X.hi = 0 := le_antisymm hhvalue (hlvalue.trans hle)
      refine ⟨⟨h.1.1.trans (iff_of_true hh hl), ?_⟩, ⟨h.2.1.trans (iff_of_true hl hh), ?_⟩⟩
      · rw [h.1.2, hlzero, hhzero, turn_true, neg_zero, turn_false]
      · rw [h.2.2, hlzero, hhzero, turn_true, neg_zero, turn_false]
    · exact h.trans (turned_neg X')
    · exact (turned_neg X).symm.trans h
    · refine ⟨.refl 0, ?_⟩
      have hhi' : Binary64.Turned false (-X.lo) X'.hi := (Binary64.turned_neg X.lo).symm.trans h.2
      have hlo' : Binary64.Turned false X.hi (-X'.lo) := h.1.trans (Binary64.turned_neg X'.lo)
      rw [turned_false_iff] at hhi' hlo' ⊢
      rw [rank_larger, rank_larger, hhi', hlo', max_comm]

theorem turned_powerBelow (h : Binary64.Turned false a a') (n : ℕ) :
    Binary64.Turned false (powerBelow a n) (powerBelow a' n) := by
  induction n with
  | zero => exact .refl 1
  | succ n ih =>
    rw [powerBelow_succ, powerBelow_succ]
    exact (turned_ofProduct ih h).1

theorem turned_powerAbove (h : Binary64.Turned false a a') (n : ℕ) :
    Binary64.Turned false (powerAbove a n) (powerAbove a' n) := by
  induction n with
  | zero => exact .refl 1
  | succ n ih =>
    rw [powerAbove_succ, powerAbove_succ]
    exact (turned_ofProduct ih h).2

/-- **Powers of equal intervals** are equal. -/
theorem Turned.pow (h : Turned false X X') (n : ℕ) : Turned false (X ^ n) (X' ^ n) := by
  have habs := h.abs (by simp)
  have hzero := Binary64.turned_zero false
  have hlo : X'.lo ≥ 0 ↔ X.lo ≥ 0 := hzero.le_iff h.1
  have hhi : X'.hi ≥ 0 ↔ X.hi ≥ 0 := hzero.le_iff h.2
  change Turned false (X.power n) (X'.power n)
  unfold power
  simp only [hlo, hhi]
  split_ifs
  · exact .refl 1
  · exact ⟨turned_powerBelow habs.1 n, turned_powerAbove habs.2 n⟩
  · exact ⟨turned_powerBelow h.1 n, turned_powerAbove h.2 n⟩
  · exact ⟨turned_powerBelow h.1 n, (turned_powerBelow h.2.neg n).neg⟩
  · exact ⟨(turned_powerAbove h.1.neg n).neg, turned_powerAbove h.2 n⟩
  · exact ⟨(turned_powerAbove h.1.neg n).neg, (turned_powerBelow h.2.neg n).neg⟩

theorem Turned.strictlyBelow (hX : Turned false X X') (hY : Turned false Y Y') :
    X'.strictlyBelow Y' = X.strictlyBelow Y := by
  unfold Interval.strictlyBelow
  rw [decide_eq_decide]
  exact hX.2.lt_iff hY.1

end CertifiedZeros.Interval
