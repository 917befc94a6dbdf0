import CertifiedZeros.Proofs.Certificate.Verdict

/-! # Better bounds keep a certificate on a band

A band stays where it is when the bounds change. Smaller bounds move the roots outwards, so that the
band stays between them, and the polynomial at its ends stays negative.

* **`Contracting.larger_neg_iff`** — the test of a band looks at both ends.
* **`testAbove_band_better`** — the test of a band stays negative under better bounds.
* **`certify_band_better`** — what a band certifies, it certifies with better bounds. -/

namespace CertifiedZeros

open Binary64 CertifiedZeros.Interval

variable {u u' : Bounds Float} {lo hi : Float} {report : Report}

namespace Bounds

/-- Better bounds are above bounds of norms. -/
theorem Better.ofNorms (hb : u'.Better u) : u.lift.OfNorms :=
  ofNorms_lift (float_le_trans hb.y0_nonneg hb.y0_le) (float_le_trans hb.z0_nonneg hb.z0_le)
    (float_le_trans hb.z2_nonneg hb.z2_le)

namespace Contracting

/-- At a finite radius the polynomial, rounded up, is a number. -/
theorem polynomialAbove_isNumber {e : Float} (h : u.Contracting) (he : 0 ≤ e)
    (hfin : e.isFinite = true) : IsNumber (u.polynomialAbove e) := by
  obtain ⟨hsnum, -, hs0⟩ := h.squareAbove_spec he
  obtain ⟨hnegfin, -⟩ := neg_finite (h.descentBelow_spec he hfin).1
  obtain ⟨hynum, hy0⟩ := nonneg_spec h.y0_nonneg
  have hnegnum := isNumber_of_isFinite hnegfin
  have hsbot : value (u.squareAbove e) ≠ ⊥ := (EReal.bot_lt_zero.trans_le hs0).ne'
  have hdbot : value (-u.descentBelow e) ≠ ⊥ := by
    rw [← coe_real hnegfin]
    exact EReal.coe_ne_bot _
  have hdifference := (ofSum_hi_spec hsnum hnegnum hsbot hdbot).1
  exact (ofSum_hi_spec hdifference hynum (le_ofSum_hi hsnum hnegnum hsbot hdbot).1
    (EReal.bot_lt_zero.trans_le hy0).ne').1

/-- **The test of a band is negative exactly when both ends are.** Neither is a NaN, which the larger
of two numbers would hide. -/
theorem larger_neg_iff (h : u.Contracting) (hlo : 0 ≤ lo) (hhi : 0 ≤ hi)
    (hlofin : lo.isFinite = true) (hhifin : hi.isFinite = true) :
    larger (u.polynomialAbove lo) (u.polynomialAbove hi) < 0 ↔
      u.polynomialAbove lo < 0 ∧ u.polynomialAbove hi < 0 := by
  have hlonum := h.polynomialAbove_isNumber hlo hlofin
  have hhinum := h.polynomialAbove_isNumber hhi hhifin
  obtain ⟨hnum, hval⟩ := larger_spec hlonum hhinum
  rw [lt_iff, lt_iff, lt_iff, hval, max_lt_iff]
  constructor
  · rintro ⟨-, h0, hltlo, hlthi⟩
    exact ⟨⟨hlonum, h0, hltlo⟩, hhinum, h0, hlthi⟩
  · rintro ⟨⟨-, h0, hltlo⟩, -, -, hlthi⟩
    exact ⟨hnum, h0, hltlo, hlthi⟩

end Contracting

/-- **Better bounds have more room** between their roots. -/
theorem Solvable.room_better (h : u.Solvable) (hb : u'.Better u) (hlt : u.smallRoot < u.largeRoot) :
    u'.smallRoot < u'.largeRoot :=
  float_lt_of_lt_of_le (float_lt_of_le_of_lt (h.smallRoot_better hb) hlt) (h.largeRoot_better hb)

/-- **A band tested with better bounds** lies between the roots again, and the polynomial stays
negative at its ends. -/
theorem testAbove_band_better {radii : Interval} {v : Float} (h : u.Solvable) (hb : u'.Better u)
    (htest : (Witness.band lo hi).testAbove u = some (radii, v)) (hv : v < 0) :
    ∃ v', (Witness.band lo hi).testAbove u' = some (radii, v') ∧ v' < 0 := by
  have hsmall := h.smallRoot_better hb
  rw [Witness.testAbove] at htest ⊢
  split_ifs at htest with hband
  cases htest
  obtain ⟨hlo, hle, hhi⟩ := hband
  have hband' : u'.smallRoot < lo ∧ lo ≤ hi ∧ hi < u'.largeRoot :=
    ⟨float_lt_of_le_of_lt hsmall hlo, hle, float_lt_of_lt_of_le hhi (h.largeRoot_better hb)⟩
  refine ⟨_, if_pos hband', ?_⟩
  -- the ends lie strictly between numbers, the lower of which is not negative
  have hlofin := isFinite_of_lt_of_lt hlo (float_lt_of_le_of_lt hle hhi)
  have hhifin := isFinite_of_lt_of_lt (float_lt_of_lt_of_le hlo hle) hhi
  have hlo0 : 0 ≤ lo := float_le_of_lt (float_lt_of_le_of_lt h.smallRoot_nonneg hlo)
  have hhi0 : 0 ≤ hi := float_le_trans hlo0 hle
  have h' := h.better_contracting hb
  obtain ⟨hneglo, hneghi⟩ := (h.larger_neg_iff hlo0 hhi0 hlofin hhifin).mp hv
  exact (h'.larger_neg_iff hlo0 hhi0 hlofin hhifin).mpr
    ⟨h.polynomialAbove_neg_better h' hb hlo0 hlofin hneglo,
      h.polynomialAbove_neg_better h' hb hhi0 hhifin hneghi⟩

end Bounds

/-- **Better bounds never lose a band certificate**: with smaller bounds the same band is certified,
at the same radii. -/
theorem certify_band_better (hb : u'.Better u) (h : u.lift.certify (.band lo hi) = .ok report)
    (hc : report.isCertified = true) :
    ∃ report', u'.lift.certify (.band lo hi) = .ok report' ∧ report'.isCertified = true ∧
      report'.testedAt = report.testedAt := by
  obtain ⟨hs, hlt, radii, v, htest, hv, -, htested⟩ := hb.ofNorms.of_isCertified h hc
  obtain ⟨v', htest', hv'⟩ := Bounds.testAbove_band_better hs hb htest hv
  have hnorms : u'.lift.OfNorms := Bounds.ofNorms_lift hb.y0_nonneg hb.z0_nonneg hb.z2_nonneg
  obtain ⟨enclosure, -, hreport⟩ :=
    hnorms.certify_tested (hs.better hb) (hs.room_better hb hlt) htest'
  refine ⟨_, hreport, ?_, htested.symm⟩
  simp [Report.isCertified, Bounds.testedReport, Bounds.verdictOn, hv']

/-- The band from `0.25` to `0.5` of the bounds `0.125`, `0.25` and `0.5`, with a linear polynomial
instead. -/
theorem certify_band_better_linear :
    ∃ report report', (Bounds.mk 0.125 0.25 0.5).lift.certify (.band 0.25 0.5) = .ok report ∧
      report.isCertified = true ∧
      (Bounds.mk 0.0625 0.25 0).lift.certify (.band 0.25 0.5) = .ok report' ∧
      report'.isCertified = true := by
  have hcertified : ((Bounds.mk 0.125 0.25 0.5).lift.certify (.band 0.25 0.5)).toOption.map
      Report.isCertified = some true := by decide +kernel
  obtain ⟨report, h, hc⟩ := exists_ok_of_map hcertified
  have hbetter : (Bounds.mk 0.0625 0.25 0 : Bounds Float).Better ⟨0.125, 0.25, 0.5⟩ :=
    ⟨by decide +kernel, by decide +kernel, by decide +kernel, by decide +kernel, by decide +kernel,
      by decide +kernel⟩
  obtain ⟨report', h', hc', -⟩ := certify_band_better hbetter h hc
  exact ⟨report, report', h, hc, h', hc'⟩

end CertifiedZeros
