import CertifiedZeros.Proofs.Certificate.Verdict

/-! # The fields of a report

Whatever the intervals and the witness are, NaN among them, a report is that of one of the five exits,
and its fields belong together.

* **`Solvable.midRadius_between`** — rounding keeps the midpoint between the roots.
* **`Report.Coherent`** — the fields that are there fit the verdict.
* **`certify_coherent`** — every report is coherent, and bounds of norms are tested between the
  roots. -/

namespace CertifiedZeros

open Binary64 CertifiedZeros.Interval

variable {b : Bounds Interval} {u : Bounds Float} {w : Witness} {report : Report}

/-! ## The midpoint of the roots -/

/-- **The midpoint lies between the roots**, however it is rounded: half the difference is rounded
to no more than the difference, and twice the smaller root is taken only below an infinite one. -/
theorem Bounds.Solvable.midRadius_between (h : u.Solvable) (hlt : u.smallRoot < u.largeRoot) :
    u.smallRoot ≤ midRadius u.smallRoot u.largeRoot ∧
      midRadius u.smallRoot u.largeRoot ≤ u.largeRoot := by
  obtain ⟨hsfin, hs0⟩ := h.smallRoot_finite hlt
  rcases Bool.eq_false_or_eq_true u.largeRoot.isFinite with hfin | hinf
  · obtain ⟨hefin, hereal, hle⟩ := h.midRadius_finite hlt hfin
    refine ⟨le_of_real_le hsfin hefin hle, le_of_real_le hefin hfin ?_⟩
    rw [hereal]
    have hhalf := rounded_half_sub_le (representable_real hsfin) (representable_real hfin)
      (real_le_real (float_le_of_lt hlt) hsfin hfin)
    exact rounded_le (representable_real hfin) (by linarith)
  · -- twice the smaller root may overflow, but not beyond the larger one
    obtain ⟨hdef, hnum, hval⟩ := h.midRadius_infinite hlt hinf
    have htop : value u.largeRoot = ⊤ := h.largeRoot_isNumber.value_eq_top
      ((h.smallRoot_spec.2.2.trans_lt (lt_iff.mp hlt).2.2).le) hinf
    rw [hdef]
    refine ⟨le_iff.mpr ⟨h.smallRoot_spec.1, hnum, ?_⟩, le_iff.mpr ⟨hnum, h.largeRoot_isNumber, ?_⟩⟩
    · rw [hval, ← coe_real hsfin, ← clamp_of_lt (abs_real_lt hsfin)]
      exact clamp_mono (by linarith)
    · rw [htop]
      exact le_top

/-! ## Coherence -/

/-- **The fields that are there fit the verdict.** -/
def Report.Coherent (r : Report) : Prop :=
  match r.verdict with
  | .notCertified .notContracting | .notCertified .negativeDiscriminant =>
    r.roots = none ∧ r.testedAt = none ∧ r.value = none
  | .notCertified .noInterior | .notCertified .witnessOutside =>
    r.roots.isSome = true ∧ r.testedAt = none ∧ r.value = none
  | .notCertified .notNegative =>
    r.roots.isSome = true ∧ r.testedAt.isSome = true ∧ ∃ v, r.value = some v ∧ ¬v.hi < 0
  | .certified =>
    r.roots.isSome = true ∧ r.testedAt.isSome = true ∧ ∃ v, r.value = some v ∧ v.hi < 0

/-- **Every exit leaves a coherent report** on the upper endpoints. -/
theorem Bounds.Ends.coherent (h : b.Ends w report) : report.bounds = b.upper ∧ report.Coherent := by
  cases h with
  | notContracting => exact ⟨rfl, rfl, rfl, rfl⟩
  | negativeDiscriminant => exact ⟨rfl, rfl, rfl, rfl⟩
  | noInterior => exact ⟨rfl, rfl, rfl, rfl⟩
  | witnessOutside => exact ⟨rfl, rfl, rfl, rfl⟩
  | @tested _ _ _ radii enclosure _ =>
    refine ⟨rfl, ?_⟩
    by_cases hneg : enclosure.hi < 0
    · rw [verdictOn, if_pos hneg]
      exact ⟨rfl, rfl, enclosure, rfl, hneg⟩
    · rw [verdictOn, if_neg hneg]
      exact ⟨rfl, rfl, enclosure, rfl, hneg⟩

/-- **The radii that are tested** lie between the roots, and those of a band strictly so. -/
theorem Witness.test_between {radii enclosure : Interval} (h : b.upper.Solvable)
    (hlt : b.upper.smallRoot < b.upper.largeRoot)
    (htest : w.test b b.upper.smallRoot b.upper.largeRoot = .ok (some (radii, enclosure))) :
    b.upper.smallRoot ≤ radii.lo ∧ radii.lo ≤ radii.hi ∧ radii.hi ≤ b.upper.largeRoot ∧
      ∀ lo hi, w = .band lo hi → b.upper.smallRoot < radii.lo ∧ radii.hi < b.upper.largeRoot := by
  cases w with
  | midpoint =>
    cases htest
    obtain ⟨hlow, hhigh⟩ := h.midRadius_between hlt
    have hnum := (le_iff.mp hlow).2.1
    exact ⟨hlow, le_iff.mpr ⟨hnum, hnum, le_rfl⟩, hhigh, nofun⟩
  | band lo hi =>
    rw [test] at htest
    split_ifs at htest with hband
    · obtain ⟨hlo, hle, hhi⟩ := hband
      rw [Interval.ofEndpoints, if_pos hle] at htest
      cases htest
      exact ⟨float_le_of_lt hlo, hle, float_le_of_lt hhi, fun _ _ _ => ⟨hlo, hhi⟩⟩
    · cases htest

/-- **Every report is coherent**, whatever the intervals and the witness: the certifier returns one
on the upper endpoints, and the fields that are there fit its verdict. Where none of the upper
endpoints is negative, the radii that were tested lie between the reported roots, those of a band
strictly. -/
theorem certify_coherent (b : Bounds Interval) (w : Witness) :
    ∃ report, b.certify w = .ok report ∧ report.bounds = b.upper ∧ report.Coherent ∧
      (0 ≤ b.y0.hi → 0 ≤ b.z0.hi → 0 ≤ b.z2.hi → ∀ radii, report.testedAt = some radii →
        ∃ r₁ r₂, report.roots = some (r₁, r₂) ∧
          r₁ ≤ radii.lo ∧ radii.lo ≤ radii.hi ∧ radii.hi ≤ r₂ ∧
          ∀ lo hi, w = .band lo hi → r₁ < radii.lo ∧ radii.hi < r₂) := by
  obtain ⟨report, hreport, hends⟩ := b.certify_ends w
  obtain ⟨hbounds, hcoherent⟩ := hends.coherent
  refine ⟨report, hreport, hbounds, hcoherent, fun hy hz hZ radii hradii => ?_⟩
  obtain ⟨hroots, hlt, enclosure, htest⟩ := hends.of_testedAt hradii
  obtain ⟨hz1, hd, -, -⟩ := hends.of_roots hroots
  exact ⟨_, _, hroots, Witness.test_between ⟨⟨hy, hz, hZ, hz1⟩, hd⟩ hlt htest⟩

/-- The band from `0.25` to `0.5` for the bounds `0.125`, `0.25` and `0.5`. -/
theorem certify_coherent_band :
    ∃ report r₁ r₂, (Bounds.mk 0.125 0.25 0.5).lift.certify (.band 0.25 0.5) = .ok report ∧
      report.roots = some (r₁, r₂) ∧ r₁ < 0.25 ∧ 0.5 < r₂ := by
  have hfacts : ((Bounds.mk 0.125 0.25 0.5).lift.certify (.band 0.25 0.5)).toOption.map
      Report.testedAt = some (some ⟨0.25, 0.5⟩) := by decide +kernel
  obtain ⟨report, h, -, -, hbetween⟩ :=
    certify_coherent (Bounds.mk 0.125 0.25 0.5).lift (.band 0.25 0.5)
  rw [h] at hfacts
  obtain ⟨r₁, r₂, hroots, -, -, -, hband⟩ := hbetween (by decide +kernel) (by decide +kernel)
    (by decide +kernel) _ (Option.some.inj hfacts)
  exact ⟨report, r₁, r₂, h, hroots, hband _ _ rfl⟩

end CertifiedZeros
