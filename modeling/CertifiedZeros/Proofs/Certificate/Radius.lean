import CertifiedZeros.Proofs.Certificate.Verdict

/-! # The radius of a certificate

A certificate for bounds of norms tells a positive radius. It is finite as well, but for one case: the
polynomial is linear, so that there is no larger root, and twice the smaller root overflows.

* **`Contracting.not_polynomialAbove_neg`** — an infinite square is never certified.
* **`certify_radius`** — the radius is positive, and finite outside of that case.
* **`certify_radius_infinite`** — a certificate with an infinite radius. -/

namespace CertifiedZeros

open Binary64 CertifiedZeros.Interval

variable {b : Bounds Interval} {u : Bounds Float} {w : Witness} {report : Report} {e : Float}

/-- The square of an infinite radius. -/
theorem Interval.powerAbove_of_top (he : value e = ⊤) (hnum : IsNumber e) :
    value (powerAbove e 2) = ⊤ := by
  rw [EReal.eq_top_iff_forall_lt]
  intro r
  obtain ⟨-, hle⟩ := powerAbove_spec hnum (r := |r| + 1) (by positivity) (by rw [he]; exact le_top) 2
  refine lt_of_lt_of_le (EReal.coe_lt_coe_iff.mpr ?_) hle
  nlinarith [le_abs_self r, abs_nonneg r]

namespace Bounds

/-- **With an infinite square** the polynomial, rounded up, is infinite or a NaN. -/
theorem Contracting.not_polynomialAbove_neg (h : u.Contracting)
    (htop : value (u.squareAbove e) = ⊤) : ¬u.polynomialAbove e < 0 := by
  intro hneg
  have hsinf : (u.squareAbove e).isFinite = false := by
    by_contra hfin
    rw [Bool.not_eq_false] at hfin
    exact EReal.coe_ne_top _ ((coe_real hfin).trans htop)
  have hdinf : (u.squareAbove e + -u.descentBelow e).isFinite = false := by
    by_contra hfin
    rw [Bool.not_eq_false] at hfin
    exact Bool.false_ne_true (hsinf.symm.trans (isFinite_of_add hfin).1)
  -- sums with an infinite term carry no rounding error
  have hsum : u.polynomialAbove e = u.squareAbove e + -u.descentBelow e + u.y0 := by
    rw [polynomialAbove, ofSum_eq_point (.inl hsinf)]
    change (ofSum (u.squareAbove e + -u.descentBelow e) u.y0).hi = _
    rw [ofSum_eq_point (.inl hdinf)]
    rfl
  rw [hsum] at hneg
  obtain ⟨hnum, -, hlt⟩ := lt_iff.mp hneg
  obtain ⟨hdnum, -⟩ := isNumber_of_add hnum
  obtain ⟨hsnum, hlnum⟩ := isNumber_of_add hdnum
  have hlbot : value (-u.descentBelow e) ≠ ⊥ :=
    fun hbot => (value_add hsnum hlnum).1.mp hdnum (.inl ⟨htop, hbot⟩)
  have hybot : value u.y0 ≠ ⊥ := (EReal.bot_lt_zero.trans_le (nonneg_spec h.y0_nonneg).2).ne'
  rw [value_add_of_infinite hnum (.inl hdinf), value_add_of_infinite hdnum (.inl hsinf), htop,
    EReal.top_add_of_ne_bot hlbot, EReal.top_add_of_ne_bot hybot] at hlt
  exact absurd hlt not_top_lt

/-- The square of an infinite radius is infinite, unless it is left out. -/
theorem Contracting.squareAbove_of_top (h : u.Contracting) (he : value e = ⊤) (hnum : IsNumber e)
    (hZ : 0 < value u.z2) : value (u.squareAbove e) = ⊤ := by
  have he0 : 0 ≤ e := nonneg_of_value hnum (by rw [he]; exact le_top)
  have hle := (h.squareAbove_spec he0).2.1
  rwa [powerAbove_of_top he hnum, EReal.mul_top_of_pos hZ, top_le_iff] at hle

/-- **The radius between the roots** is positive where the polynomial is negative, and infinite only
for a linear polynomial whose root doubled overflows. -/
theorem Solvable.midRadius_pos (h : u.Solvable) (hlt : u.smallRoot < u.largeRoot)
    (hneg : u.polynomialAbove (midRadius u.smallRoot u.largeRoot) < 0) :
    0 < midRadius u.smallRoot u.largeRoot ∧
      ((midRadius u.smallRoot u.largeRoot).isFinite = true ↔
        ¬((u.z2 == 0) = true ∧ (2 * u.smallRoot).isFinite = false)) := by
  have he0 := h.midRadius_nonneg hlt
  have hpos : ∀ {e : Float}, 0 ≤ e → e.isFinite = true → u.polynomialAbove e < 0 → 0 < e :=
    fun he hfin hneg => (pos_iff hfin).mpr (h.toContracting.pos_of_polynomialAbove_neg he hfin hneg)
  rcases Bool.eq_false_or_eq_true u.largeRoot.isFinite with hfin | hinf
  · -- between finite roots
    have hefin := (h.midRadius_finite hlt hfin).1
    refine ⟨hpos he0 hefin hneg, iff_of_true hefin fun hlinear => ?_⟩
    rw [h.largeRoot_of_zero (h.z2_beq_zero_iff.mp hlinear.1)] at hfin
    exact absurd hfin (by decide +kernel)
  · obtain ⟨hdef, hnum, hval⟩ := h.midRadius_infinite hlt hinf
    rw [hdef] at he0 hneg ⊢
    rcases Bool.eq_false_or_eq_true (2 * u.smallRoot).isFinite with hefin | heinf
    · refine ⟨hpos he0 hefin hneg, iff_of_true hefin fun hlinear => ?_⟩
      exact Bool.false_ne_true (hlinear.2.symm.trans hefin)
    · -- an overflow, which a quadratic polynomial does not survive
      have htop := hnum.value_eq_top (nonneg_spec he0).2 heinf
      have hlinear : (u.z2 == 0) = true := by
        rw [h.z2_beq_zero_iff]
        by_contra hne
        have hZpos : 0 < value u.z2 := by
          rw [← coe_real h.z2_spec.1]
          exact_mod_cast lt_of_le_of_ne h.z2_spec.2 (Ne.symm hne)
        exact h.not_polynomialAbove_neg (h.squareAbove_of_top htop hnum hZpos) hneg
      refine ⟨lt_iff.mpr ⟨zero_isNumber, hnum, ?_⟩, iff_of_false ?_ fun hnot => hnot ⟨hlinear, heinf⟩⟩
      · rw [htop, value_zero]
        exact EReal.zero_lt_top
      · rw [heinf]
        exact Bool.false_ne_true

end Bounds

/-- **A certificate tells a radius**, which is positive. It is finite unless the witness is the midpoint,
the polynomial is linear, and twice its root overflows. -/
theorem certify_radius (hb : b.OfNorms) (h : b.certify w = .ok report)
    (hc : report.isCertified = true) :
    ∃ r₁ r₂ radii, report.roots = some (r₁, r₂) ∧ report.testedAt = some radii ∧
      report.radius? = some radii.lo ∧ 0 < radii.lo ∧ radii.lo ≤ radii.hi ∧
      ((radii.lo.isFinite = true ∧ radii.hi.isFinite = true) ↔
        ¬(w = .midpoint ∧ (b.z2.hi == 0) = true ∧ (2 * r₁).isFinite = false)) := by
  obtain ⟨hs, hlt, radii, v, htest, hv, hroots, htested⟩ := hb.of_isCertified h hc
  refine ⟨_, _, radii, hroots, htested, by rw [Report.radius?, htested]; rfl, ?_⟩
  cases w with
  | midpoint =>
    cases htest
    obtain ⟨hpos, hfin⟩ := hs.midRadius_pos hlt hv
    have hnum := (lt_iff.mp hpos).2.1
    refine ⟨hpos, le_iff.mpr ⟨hnum, hnum, le_rfl⟩, and_self_iff.trans (hfin.trans ?_)⟩
    exact not_congr (by rw [eq_self, true_and]; rfl)
  | band lo hi =>
    rw [Witness.testAbove] at htest
    split_ifs at htest with hband
    cases htest
    obtain ⟨hlo, hle, hhi⟩ := hband
    have hlo0 : 0 < lo := float_lt_of_le_of_lt hs.smallRoot_nonneg hlo
    refine ⟨hlo0, hle, iff_of_true ⟨?_, ?_⟩ (by simp)⟩
    · exact isFinite_of_lt_of_lt hlo (float_lt_of_le_of_lt hle hhi)
    · exact isFinite_of_lt_of_lt (float_lt_of_lt_of_le hlo hle) hhi

/-- The radius of a certificate for the bounds `0.125`, `0.25` and `1`. -/
theorem certify_radius_midpoint :
    ∃ report radii, (Bounds.mk 0.125 0.25 1).lift.certify .midpoint = .ok report ∧
      report.radius? = some radii ∧ 0 < radii := by
  have hcertified : ((Bounds.mk 0.125 0.25 1).lift.certify .midpoint).toOption.map
      Report.isCertified = some true := by decide +kernel
  obtain ⟨report, h, hc⟩ := exists_ok_of_map hcertified
  obtain ⟨-, -, radii, -, -, hradius, hpos, -⟩ := certify_radius
    (Bounds.ofNorms_lift (by decide +kernel) (by decide +kernel) (by decide +kernel)) h hc
  exact ⟨report, radii.lo, h, hradius, hpos⟩

/-- **A certificate with an infinite radius**: the root of `2 ^ 1022 - r / 2` is `2 ^ 1023`, and twice
that overflows. -/
theorem certify_radius_infinite :
    ∃ u : Bounds Float, u.y0.isFinite = true ∧ u.z0.isFinite = true ∧ u.z2.isFinite = true ∧
      u.lift.OfNorms ∧ ∃ report, u.lift.certify .midpoint = .ok report ∧
        report.isCertified = true ∧ report.radius? = some infinity ∧
        report.testedAt = some (.point infinity) := by
  have hcertified : ((Bounds.mk (.ofBits 0x7FD0000000000000) 0.5 0).lift.certify
      .midpoint).toOption.map (fun report => (report.isCertified, report.testedAt))
        = some (true, some (.point infinity)) := by decide +kernel
  obtain ⟨report, h, hreport⟩ := exists_ok_of_map hcertified
  obtain ⟨hc, htested⟩ := Prod.mk.injEq .. ▸ hreport
  refine ⟨_, by decide +kernel, by decide +kernel, by decide +kernel,
    Bounds.ofNorms_lift (by decide +kernel) (by decide +kernel) (by decide +kernel), report, h, hc, ?_,
    htested⟩
  rw [Report.radius?, htested]
  rfl

end CertifiedZeros
