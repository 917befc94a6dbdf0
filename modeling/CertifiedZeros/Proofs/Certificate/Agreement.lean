import CertifiedZeros.Proofs.Certificate.Exits
import CertifiedZeros.Proofs.Interval.Reflection
import CertifiedZeros.Proofs.Loop

/-! # Reports on equal bounds

A zero has two signs and a NaN many payloads, which no comparison can tell apart. Bounds that agree as
numbers have reports that do: a division by one of two zeros is the only operation that would show
the sign, and the certifier never comes to it.

* **`Binary64.Agrees`**, **`Interval.Agrees`** — equality as numbers.
* **`Report.Agrees`** — reports with the same verdict whose data agrees.
* **`Bounds.Ends.agrees`** — bounds that agree come to the same exit, and **`Bounds.certify_agrees`**
  to reports that agree. -/

namespace CertifiedZeros

/-! ## Equality as numbers -/

namespace Binary64

/-- **Equality as numbers**: the two zeros are equal, and so are all NaN. -/
def Agrees (a b : Float) : Prop := (a == b) = true ∨ a.isNaN = true ∧ b.isNaN = true

theorem agrees_iff {a b : Float} : Agrees a b ↔ Turned false a b := by
  have hnan : ∀ {c : Float}, c.isNaN = true ↔ ¬IsNumber c := fun {_} => (Bool.not_eq_false _).symm.to_iff
  rw [Agrees, beq_iff, hnan, hnan, Turned, turn_false]
  by_cases ha : IsNumber a <;> by_cases hb : IsNumber b
  · simp [ha, hb, eq_comm]
  · simp [ha, hb]
  · simp [ha, hb]
  · simp [ha, hb, value_of_not_isNumber ha, value_of_not_isNumber hb]

/-- **The difference of different numbers** is not zero, however close they are. -/
theorem value_sub_ne_zero {x y : Float} (hx : x.isFinite = true) (h : y < x) : value (x - y) ≠ 0 := by
  obtain ⟨hy, hxnum, hlt⟩ := lt_iff.mp h
  refine ne_of_gt ?_
  rcases hy.cases with hyfin | ⟨hyfin, htop | hbot⟩
  · rw [← coe_real hx, ← coe_real hyfin, EReal.coe_lt_coe_iff] at hlt
    have hgrid := (representable_real hx).onGrid_least.sub (representable_real hyfin).onGrid_least
    rw [(sub_spec hx hyfin).2, clamp_pos_iff, rounded_pos_iff le_rfl hgrid]
    exact sub_pos.mpr hlt
  · exact absurd (htop ▸ hlt) not_top_lt
  · have hneg : value (-y) = ⊤ := by rw [value_neg hy, hbot, EReal.neg_bot]
    have hsum : ¬Opposed (value x) (value (-y)) := by simp [Opposed, hneg, ← coe_real hx]
    rw [sub_eq_add_opposite, (value_add hxnum (isNumber_neg hy)).2 hsum, hneg, ← coe_real hx,
      EReal.coe_add_top, roundedValue_of_infinite (.inl rfl)]
    exact EReal.zero_lt_top

end Binary64

open Binary64

/-- **Intervals with equal ends.** -/
def Interval.Agrees (X Y : Interval) : Prop := Binary64.Agrees X.lo Y.lo ∧ Binary64.Agrees X.hi Y.hi

theorem Interval.agrees_iff {X Y : Interval} : X.Agrees Y ↔ Interval.Turned false X Y :=
  and_congr Binary64.agrees_iff Binary64.agrees_iff

/-- Bounds that are equal as numbers. -/
def Bounds.Agrees (b b' : Bounds Float) : Prop :=
  Binary64.Agrees b.y0 b'.y0 ∧ Binary64.Agrees b.z0 b'.z0 ∧ Binary64.Agrees b.z2 b'.z2

/-- **Reports with the same verdict** and equal numbers. -/
structure Report.Agrees (r r' : Report) : Prop where
  verdict_eq : r'.verdict = r.verdict
  bounds : r.bounds.Agrees r'.bounds
  roots : Option.Rel (fun p q => Binary64.Agrees p.1 q.1 ∧ Binary64.Agrees p.2 q.2) r.roots r'.roots
  testedAt : Option.Rel Interval.Agrees r.testedAt r'.testedAt
  value : Option.Rel Interval.Agrees r.value r'.value

/-! ## The certifier -/

namespace Bounds

variable {b b' : Bounds Interval}

section Roots

variable (u u' : Bounds Float) (hy : Turned false u.y0 u'.y0) (hz : Turned false u.z0 u'.z0)
  (hZ : Turned false u.z2 u'.z2)
include hy hz hZ

theorem discriminant_turned : Turned false u.discriminant u'.discriminant := by
  have hgap := (Turned.refl 1).sub hz
  exact (hgap.mul hgap).sub (((Turned.refl 4).mul hZ).mul hy)

/-- **The roots are equal**, too, when the bounds leave a contraction. -/
theorem roots_turned (h : u.z0 < 1) :
    Turned false u.smallRoot u'.smallRoot ∧ Turned false u.largeRoot u'.largeRoot := by
  -- the gap is not zero, so it hides the sign of the square root
  have hsum : u'.gap + u'.discriminant.sqrt = u.gap + u.discriminant.sqrt :=
    add_eq_of_ne_zero ((Turned.refl 1).sub hz) (value_sub_ne_zero (by decide) h)
      (discriminant_turned u u' hy hz hZ).sqrt
  have hhalf : u'.halfSum = u.halfSum := by rw [halfSum, halfSum, hsum]
  rw [smallRoot, smallRoot, largeRoot, largeRoot, hhalf]
  refine ⟨hy.div_same _, ?_⟩
  simp only [(Turned.refl 0).lt_iff hZ]
  split_ifs with hpos
  · exact (Turned.refl _).div hZ fun _ => ne_of_gt (value_zero ▸ (lt_iff.mp hpos).2.2)
  · exact .refl _

end Roots

/-- **Three interval bounds and three equal ones.** -/
def Turned (b b' : Bounds Interval) : Prop :=
  Interval.Turned false b.y0 b'.y0 ∧ Interval.Turned false b.z0 b'.z0 ∧ Interval.Turned false b.z2 b'.z2

theorem Turned.polynomialAt (h : Turned b b') {r r' : Interval} (hr : Interval.Turned false r r') :
    Interval.Turned false (b.polynomialAt r) (b'.polynomialAt r') :=
  ((h.2.2.mul (hr.pow 2)).sub (((Interval.Turned.refl 1).sub h.2.1).mul hr)).add h.1

end Bounds

theorem midRadius_turned {r₁ r₁' r₂ r₂' : Float} (h₁ : Turned false r₁ r₁') (h₂ : Turned false r₂ r₂') :
    Turned false (midRadius r₁ r₂) (midRadius r₁' r₂') := by
  unfold midRadius
  rw [h₂.isFinite]
  split_ifs
  · exact h₁.add ((Turned.refl _).mul (h₂.sub h₁))
  · exact (Turned.refl _).mul h₁

/-- **The witness** tests the same radii with the same result. -/
theorem Witness.test_agrees (w : Witness) {b b' : Bounds Interval} (h : b.Turned b')
    {r₁ r₁' r₂ r₂' : Float} (h₁ : Turned false r₁ r₁') (h₂ : Turned false r₂ r₂') :
    SameOutcome (Option.Rel fun p q => Interval.Turned false p.1 q.1 ∧ Interval.Turned false p.2 q.2)
      Eq (w.test b r₁ r₂) (w.test b' r₁' r₂') := by
  cases w with
  | midpoint =>
    have hradius := Interval.turned_point (midRadius_turned h₁ h₂)
    exact Option.Rel.some ⟨hradius, h.polynomialAt hradius⟩
  | band lo hi =>
    unfold test
    dsimp only
    simp only [h₁.lt_iff (.refl lo), (Turned.refl hi).lt_iff h₂]
    split_ifs
    · have hvalue := (h.polynomialAt (.refl (.point lo))).hull (h.polynomialAt (.refl (.point hi)))
      cases Interval.ofEndpoints lo hi with
      | error cause => exact rfl
      | ok radii => exact Option.Rel.some ⟨.refl radii, hvalue⟩
    · exact Option.Rel.none

/-- Reports of certifications that stop in the same place. -/
theorem Bounds.stoppedReport_agrees {u u' : Bounds Float} {roots roots' : Option (Float × Float)}
    (obstacle : Obstacle) (hu : u.Agrees u')
    (hroots : Option.Rel (fun p q => Binary64.Agrees p.1 q.1 ∧ Binary64.Agrees p.2 q.2) roots roots') :
    (u.stoppedReport obstacle roots).Agrees (u'.stoppedReport obstacle roots') :=
  ⟨rfl, hu, hroots, .none, .none⟩

/-- **Bounds that agree come to the same exit**, with reports that agree. -/
theorem Bounds.Ends.agrees {w : Witness} {b b' : Bounds Interval} (h : b.Turned b') {report : Report}
    (hends : b.Ends w report) : ∃ report', b'.Ends w report' ∧ report.Agrees report' := by
  have hupper : b.upper.Agrees b'.upper :=
    ⟨agrees_iff.mpr h.1.2, agrees_iff.mpr h.2.1.2, agrees_iff.mpr h.2.2.2⟩
  have hcontracting : b.upper.z0 < 1 ↔ b'.upper.z0 < 1 := (h.2.1.2.lt_iff (.refl 1)).symm
  have hdiscriminant := discriminant_turned b.upper b'.upper h.1.2 h.2.1.2 h.2.2.2
  have hreal : 0 ≤ b.upper.discriminant ↔ 0 ≤ b'.upper.discriminant :=
    ((Turned.refl 0).le_iff hdiscriminant).symm
  have hroots := roots_turned b.upper b'.upper h.1.2 h.2.1.2 h.2.2.2
  have hpair : b.upper.z0 < 1 →
      Option.Rel (fun p q => Binary64.Agrees p.1 q.1 ∧ Binary64.Agrees p.2 q.2)
        (some (b.upper.smallRoot, b.upper.largeRoot))
        (some (b'.upper.smallRoot, b'.upper.largeRoot)) :=
    fun hz => .some ⟨agrees_iff.mpr (hroots hz).1, agrees_iff.mpr (hroots hz).2⟩
  have hroom : b.upper.z0 < 1 →
      (b.upper.smallRoot < b.upper.largeRoot ↔ b'.upper.smallRoot < b'.upper.largeRoot) :=
    fun hz => ((hroots hz).1.lt_iff (hroots hz).2).symm
  have htested := fun hz => w.test_agrees h (hroots hz).1 (hroots hz).2
  obtain ⟨t, ht⟩ := w.test_ok b' b'.upper.smallRoot b'.upper.largeRoot
  rw [ht] at htested
  cases hends with
  | notContracting hz =>
    exact ⟨_, .notContracting (mt hcontracting.mpr hz), stoppedReport_agrees _ hupper .none⟩
  | negativeDiscriminant hz hd =>
    exact ⟨_, .negativeDiscriminant (hcontracting.mp hz) (mt hreal.mpr hd),
      stoppedReport_agrees _ hupper .none⟩
  | noInterior hz hd hlt =>
    exact ⟨_, .noInterior (hcontracting.mp hz) (hreal.mp hd) (mt (hroom hz).mpr hlt),
      stoppedReport_agrees _ hupper (hpair hz)⟩
  | witnessOutside hz hd hlt htest =>
    have hnone := htested hz
    rw [htest] at hnone
    cases hnone
    exact ⟨_, .witnessOutside (hcontracting.mp hz) (hreal.mp hd) ((hroom hz).mp hlt) ht,
      stoppedReport_agrees _ hupper (hpair hz)⟩
  | tested hz hd hlt htest =>
    have hsome := htested hz
    rw [htest] at hsome
    cases hsome with
    | some hpq =>
      refine ⟨_, .tested (hcontracting.mp hz) (hreal.mp hd) ((hroom hz).mp hlt) ht, ?_, hupper,
        hpair hz, .some (Interval.agrees_iff.mpr hpq.1), .some (Interval.agrees_iff.mpr hpq.2)⟩
      change verdictOn _ = verdictOn _
      simp only [verdictOn, hpq.2.2.lt_iff (.refl 0)]

/-- **Bounds that agree are certified alike.** -/
theorem Bounds.certify_agrees (w : Witness) {b b' : Bounds Interval} (h : b.Turned b') :
    SameOutcome Report.Agrees Eq (b.certify w) (b'.certify w) := by
  obtain ⟨report, hreport, hends⟩ := b.certify_ends w
  obtain ⟨report', hends', hagrees⟩ := hends.agrees h
  rw [hreport, hends'.certify_eq]
  exact hagrees

end CertifiedZeros
