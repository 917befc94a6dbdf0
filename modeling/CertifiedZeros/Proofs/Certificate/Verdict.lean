import CertifiedZeros.Proofs.Certificate.Agreement
import CertifiedZeros.Proofs.Certificate.UpperEnds

/-! # What a verdict depends on

For bounds of norms the lower ends of the bounds decide nothing: they only enter the lower end of the
enclosure that a report carries.

* **`Witness.testAbove`** — the test of a witness with the polynomial of the upper ends, rounded up.
* **`OfNorms.certify_tested`**, **`OfNorms.certify_stopped`** — how a certification ends, in terms of
  the upper ends alone; **`OfNorms.of_isCertified`** reads a certificate in these terms.
* **`Report.AgreesAbove`** — reports that are the same but for lower ends of enclosures.
* **`certify_upper`** — bounds of norms with equal upper ends have such reports. -/

namespace CertifiedZeros

open Binary64 CertifiedZeros.Interval

variable {b c : Bounds Interval} {u : Bounds Float} {w : Witness}

/-! ## The test with upper ends -/

/-- **The radii that a witness tests** between the roots of float bounds, and the largest value of the
polynomial there, rounded up. -/
def Witness.testAbove (w : Witness) (u : Bounds Float) : Option (Interval × Float) :=
  match w with
  | .midpoint =>
    let r := midRadius u.smallRoot u.largeRoot
    some (.point r, u.polynomialAbove r)
  | .band lo hi =>
    if u.smallRoot < lo ∧ lo ≤ hi ∧ hi < u.largeRoot then
      some (⟨lo, hi⟩, larger (u.polynomialAbove lo) (u.polynomialAbove hi))
    else none

namespace Bounds

/-- **A witness tests the polynomial of the upper ends**, rounded up. -/
theorem OfNorms.test_eq (hb : b.OfNorms) (hs : b.upper.Solvable)
    (hlt : b.upper.smallRoot < b.upper.largeRoot) (w : Witness) :
    ∃ t, w.test b b.upper.smallRoot b.upper.largeRoot = .ok t ∧
      Option.Rel (fun p q => q.1 = p.1 ∧ Binary64.Turned false p.2 q.2.hi) (w.testAbove b.upper) t := by
  have hpolynomial : ∀ {e : Float}, 0 ≤ e →
      Binary64.Turned false (b.upper.polynomialAbove e) (b.polynomialAt (.point e)).hi :=
    hb.polynomialAt_turned hs.z0_lt_one
  cases w with
  | midpoint => exact ⟨_, rfl, .some ⟨rfl, hpolynomial (hs.midRadius_nonneg hlt)⟩⟩
  | band lo hi =>
    unfold Witness.test Witness.testAbove
    dsimp only
    split_ifs with hband
    · obtain ⟨hlo, hle, hhi⟩ := hband
      -- a band above the smaller root is not negative
      have hlo0 : 0 ≤ lo := float_le_of_lt (float_lt_of_le_of_lt hs.smallRoot_nonneg hlo)
      have hhi0 : 0 ≤ hi := float_le_trans hlo0 hle
      rw [Interval.ofEndpoints, if_pos hle]
      exact ⟨_, rfl, .some ⟨rfl, (hpolynomial hlo0).larger (hpolynomial hhi0)⟩⟩
    · exact ⟨_, rfl, .none⟩

/-- **A certification with a test**: its verdict is that on the polynomial of the upper ends, rounded
up. -/
theorem OfNorms.certify_tested {radii : Interval} {v : Float} (hb : b.OfNorms)
    (hs : b.upper.Solvable) (hlt : b.upper.smallRoot < b.upper.largeRoot)
    (htest : w.testAbove b.upper = some (radii, v)) :
    ∃ enclosure, Binary64.Turned false v enclosure.hi ∧
      b.certify w = .ok (b.upper.testedReport (verdictOn v) radii enclosure) := by
  obtain ⟨t, ht, hrel⟩ := hb.test_eq hs hlt w
  rw [htest] at hrel
  cases hrel with
  | @some _ q hq =>
    obtain ⟨rfl, hvalue⟩ := hq
    have hverdict : verdictOn v = verdictOn q.2.hi := by
      simp only [verdictOn, hvalue.lt_iff (.refl 0)]
    rw [hverdict]
    exact ⟨q.2, hvalue, (Ends.tested hs.z0_lt_one hs.real_roots hlt ht).certify_eq⟩

/-- **A certification that stops before the test** does so for all bounds with these upper ends. -/
theorem OfNorms.certify_stopped (hb : b.OfNorms) (w : Witness)
    (h : b.upper.Solvable → b.upper.smallRoot < b.upper.largeRoot → w.testAbove b.upper = none) :
    ∃ obstacle roots, ∀ c : Bounds Interval, c.OfNorms → c.upper = b.upper → c.certify w = .ok
      { verdict := .notCertified obstacle, bounds := b.upper, roots := roots } := by
  by_cases hz : b.upper.z0 < 1
  swap
  · refine ⟨.notContracting, none, fun c _ hc => ?_⟩
    rw [← hc] at hz ⊢
    exact (Ends.notContracting hz).certify_eq
  by_cases hd : 0 ≤ b.upper.discriminant
  swap
  · refine ⟨.negativeDiscriminant, none, fun c _ hc => ?_⟩
    rw [← hc] at hz hd ⊢
    exact (Ends.negativeDiscriminant hz hd).certify_eq
  have hs : b.upper.Solvable := ⟨hb.contracting hz, hd⟩
  by_cases hlt : b.upper.smallRoot < b.upper.largeRoot
  · have hnone := h hs hlt
    refine ⟨.witnessOutside, some (b.upper.smallRoot, b.upper.largeRoot), fun c hcn hc => ?_⟩
    rw [← hc] at hz hd hs hlt hnone ⊢
    obtain ⟨t, ht, hrel⟩ := hcn.test_eq hs hlt w
    rw [hnone] at hrel
    cases hrel
    exact (Ends.witnessOutside hz hd hlt ht).certify_eq
  · refine ⟨.noInterior, some (b.upper.smallRoot, b.upper.largeRoot), fun c _ hc => ?_⟩
    rw [← hc] at hz hd hlt ⊢
    exact (Ends.noInterior hz hd hlt).certify_eq

/-- **A certificate, in terms of the upper ends**: they have real roots in order, and the polynomial,
rounded up, is negative at the witness. -/
theorem OfNorms.of_isCertified {report : Report} (hb : b.OfNorms) (h : b.certify w = .ok report)
    (hc : report.isCertified = true) :
    b.upper.Solvable ∧ b.upper.smallRoot < b.upper.largeRoot ∧
      ∃ radii v, w.testAbove b.upper = some (radii, v) ∧ v < 0 ∧
        report.roots = some (b.upper.smallRoot, b.upper.largeRoot) ∧ report.testedAt = some radii := by
  obtain ⟨hz, hd, hlt, radii, enclosure, ht, hneg, rfl⟩ := (certify_eq_iff.mp h).of_isCertified hc
  have hs : b.upper.Solvable := ⟨hb.contracting hz, hd⟩
  obtain ⟨t, ht', hrel⟩ := hb.test_eq hs hlt w
  rw [ht] at ht'
  cases ht'
  generalize w.testAbove b.upper = above at hrel ⊢
  cases hrel with
  | @some p _ hp =>
    obtain ⟨rfl, hvalue⟩ := hp
    exact ⟨hs, hlt, p.1, p.2, rfl, (hvalue.lt_iff (.refl 0)).mp hneg, rfl, rfl⟩

end Bounds

/-! ## Equal upper ends -/

/-- **Reports that are the same** but for the lower ends of the enclosures of the polynomial. -/
structure Report.AgreesAbove (r r' : Report) : Prop where
  verdict_eq : r'.verdict = r.verdict
  bounds : r.bounds.Agrees r'.bounds
  roots : Option.Rel (fun p q => Binary64.Agrees p.1 q.1 ∧ Binary64.Agrees p.2 q.2) r.roots r'.roots
  testedAt : Option.Rel Interval.Agrees r.testedAt r'.testedAt
  value : Option.Rel (fun X Y => Binary64.Agrees X.hi Y.hi) r.value r'.value

/-- **Bounds of norms with the same upper ends** have reports that differ in the enclosure alone, and
there only in the lower end. -/
theorem Bounds.OfNorms.certify_same (hb : b.OfNorms) (hc : c.OfNorms) (h : c.upper = b.upper)
    (w : Witness) : ∃ report report', b.certify w = .ok report ∧ c.certify w = .ok report' ∧
      report' = { report with value := report'.value } ∧
      Option.Rel (fun X Y => Binary64.Agrees X.hi Y.hi) report.value report'.value := by
  by_cases htested : b.upper.Solvable ∧ b.upper.smallRoot < b.upper.largeRoot ∧
      w.testAbove b.upper ≠ none
  · obtain ⟨hs, hlt, hsome⟩ := htested
    obtain ⟨⟨radii, v⟩, htest⟩ := Option.ne_none_iff_exists'.mp hsome
    obtain ⟨X, hX, hreport⟩ := hb.certify_tested hs hlt htest
    rw [← h] at hs hlt htest
    obtain ⟨Y, hY, hreport'⟩ := hc.certify_tested hs hlt htest
    refine ⟨_, _, hreport, hreport', by rw [h]; rfl, .some (Binary64.agrees_iff.mpr ?_)⟩
    exact hX.symm.trans hY
  · obtain ⟨obstacle, roots, hstopped⟩ := hb.certify_stopped w fun hs hlt => by
      by_contra hsome
      exact htested ⟨hs, hlt, hsome⟩
    exact ⟨_, _, hstopped b hb rfl, hstopped c hc h, rfl, .none⟩

/-- Options related one way and then another. -/
theorem optionRel_trans {α β γ : Type} {R : α → β → Prop} {S : β → γ → Prop} {T : α → γ → Prop}
    {x : Option α} {y : Option β} {z : Option γ} (hxy : Option.Rel R x y) (hyz : Option.Rel S y z)
    (h : ∀ {x y z}, R x y → S y z → T x z) : Option.Rel T x z := by
  cases hxy with
  | none =>
    cases hyz
    exact .none
  | some hab =>
    cases hyz with
    | some hbc => exact .some (h hab hbc)

theorem Binary64.Agrees.refl (a : Float) : Binary64.Agrees a a := Binary64.agrees_iff.mpr (.refl a)

theorem Binary64.Agrees.trans {x y z : Float} (h : Binary64.Agrees x y) (h' : Binary64.Agrees y z) :
    Binary64.Agrees x z :=
  Binary64.agrees_iff.mpr ((Binary64.agrees_iff.mp h).trans (Binary64.agrees_iff.mp h'))

namespace Report.AgreesAbove

variable {r r' r'' : Report}

/-- Reports that differ in the enclosure alone, and there only in the lower end. -/
theorem of_value (h : r' = { r with value := r'.value })
    (hvalue : Option.Rel (fun X Y => Binary64.Agrees X.hi Y.hi) r.value r'.value) :
    r.AgreesAbove r' := by
  rw [h]
  have hroots : Option.Rel (fun p q => Binary64.Agrees p.1 q.1 ∧ Binary64.Agrees p.2 q.2)
      r.roots r.roots := by
    cases r.roots with
    | none => exact .none
    | some p => exact .some ⟨.refl _, .refl _⟩
  have hradii : Option.Rel Interval.Agrees r.testedAt r.testedAt := by
    cases r.testedAt with
    | none => exact .none
    | some X => exact .some ⟨.refl _, .refl _⟩
  exact ⟨rfl, ⟨.refl _, .refl _, .refl _⟩, hroots, hradii, hvalue⟩

theorem of_agrees (h : r.Agrees r') : r.AgreesAbove r' := by
  refine ⟨h.verdict_eq, h.bounds, h.roots, h.testedAt, ?_⟩
  have hvalue := h.value
  generalize r.value = x at hvalue ⊢
  generalize r'.value = y at hvalue ⊢
  cases hvalue with
  | none => exact .none
  | some hXY => exact .some hXY.2

theorem trans (h : r.AgreesAbove r') (h' : r'.AgreesAbove r'') : r.AgreesAbove r'' where
  verdict_eq := h'.verdict_eq.trans h.verdict_eq
  bounds := ⟨h.bounds.1.trans h'.bounds.1, h.bounds.2.1.trans h'.bounds.2.1,
    h.bounds.2.2.trans h'.bounds.2.2⟩
  roots := optionRel_trans h.roots h'.roots fun hpq hqs => ⟨hpq.1.trans hqs.1, hpq.2.trans hqs.2⟩
  testedAt := optionRel_trans h.testedAt h'.testedAt
    fun hXY hYZ => ⟨hXY.1.trans hYZ.1, hXY.2.trans hYZ.2⟩
  value := optionRel_trans h.value h'.value fun hXY hYZ => hXY.trans hYZ

end Report.AgreesAbove

/-- **A verdict depends only on the upper ends.** Bounds of norms whose upper ends are equal as numbers
have reports that agree but for the lower ends of the enclosures; where the upper ends are identical,
so is everything but the enclosures. In particular the report is that on the upper ends as points. -/
theorem certify_upper (hb : b.OfNorms) (hc : c.OfNorms) (h : b.upper.Agrees c.upper) (w : Witness) :
    ∃ report report' lifted, b.certify w = .ok report ∧ c.certify w = .ok report' ∧
      b.upper.lift.certify w = .ok lifted ∧
      report.AgreesAbove report' ∧ report.AgreesAbove lifted ∧
      (c.upper = b.upper → report' = { report with value := report'.value }) ∧
      lifted = { report with value := lifted.value } := by
  have hlift : ∀ {d : Bounds Interval}, d.OfNorms → d.upper.lift.OfNorms := by
    intro d hd
    obtain ⟨hy, hz, hZ⟩ := hd.upper_nonneg
    exact Bounds.ofNorms_lift hy hz hZ
  obtain ⟨report, lifted, hreport, hlifted, hsame, hvalue⟩ := hb.certify_same (hlift hb) rfl w
  obtain ⟨lifted', report', hlifted', hreport', hsame', hvalue'⟩ :=
    (hlift hc).certify_same hc rfl w
  refine ⟨report, report', lifted, hreport, hreport', hlifted, ?_, .of_value hsame hvalue, ?_, hsame⟩
  · -- over the points at the upper ends
    have hpoints : b.upper.lift.Turned c.upper.lift :=
      ⟨Interval.turned_point (Binary64.agrees_iff.mp h.1),
        Interval.turned_point (Binary64.agrees_iff.mp h.2.1),
        Interval.turned_point (Binary64.agrees_iff.mp h.2.2)⟩
    have hagrees := Bounds.certify_agrees w hpoints
    rw [hlifted, hlifted'] at hagrees
    exact ((Report.AgreesAbove.of_value hsame hvalue).trans (.of_agrees hagrees)).trans
      (.of_value hsame' hvalue')
  · intro hupper
    rw [hupper, hlifted] at hlifted'
    cases hlifted'
    rw [hsame', hsame]

/-- Two triples with the upper ends `0.125`, `0.25` and `1` at the midpoint of their roots. -/
theorem certify_upper_midpoint :
    ∃ report report' lifted,
      (Bounds.mk ⟨0, 0.125⟩ ⟨0.125, 0.25⟩ ⟨0.5, 1⟩).certify .midpoint = .ok report ∧
      (Bounds.mk ⟨0.125, 0.125⟩ ⟨0, 0.25⟩ ⟨0, 1⟩).certify .midpoint = .ok report' ∧
      (Bounds.mk 0.125 0.25 1).lift.certify .midpoint = .ok lifted ∧
      report.AgreesAbove report' ∧ report.AgreesAbove lifted := by
  obtain ⟨report, report', lifted, hreport, hreport', hlifted, hagrees, hlift, -⟩ :=
    certify_upper (b := ⟨⟨0, 0.125⟩, ⟨0.125, 0.25⟩, ⟨0.5, 1⟩⟩)
      (c := ⟨⟨0.125, 0.125⟩, ⟨0, 0.25⟩, ⟨0, 1⟩⟩)
      ⟨⟨by decide +kernel, by decide +kernel⟩, ⟨by decide +kernel, by decide +kernel⟩,
        ⟨by decide +kernel, by decide +kernel⟩⟩
      ⟨⟨by decide +kernel, by decide +kernel⟩, ⟨by decide +kernel, by decide +kernel⟩,
        ⟨by decide +kernel, by decide +kernel⟩⟩
      ⟨.refl _, .refl _, .refl _⟩ .midpoint
  exact ⟨report, report', lifted, hreport, hreport', hlifted, hagrees, hlift⟩

end CertifiedZeros
