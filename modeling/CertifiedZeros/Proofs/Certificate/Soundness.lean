import CertifiedZeros.Proofs.Certificate.Exits
import CertifiedZeros.Proofs.Certificate.RadiiPolynomial

/-! # What a certificate says

A certified report names radii and an enclosure of the values of the polynomial at their ends.

* **`exists_of_isCertified`** — the report of a certificate, taken apart.
* **`certify_sound`** — at every radius the polynomial is negative, for all reals that the bounds
  stand for; and when the values at the ends belong to the enclosure. -/

namespace CertifiedZeros

open Binary64 CertifiedZeros.Interval

variable {b : Bounds Interval} {w : Witness} {report : Report} {radii enclosure : Interval}

/-! ## Taking a report apart -/

theorem larger_self (a : Float) : Binary64.larger a a = a := by
  unfold Binary64.larger
  split_ifs <;> rfl

theorem smaller_self (a : Float) : Binary64.smaller a a = a := by
  unfold Binary64.smaller
  split_ifs <;> rfl

theorem hull_self (X : Interval) : X.hull X = X := by
  unfold Interval.hull
  rw [smaller_self, larger_self]

/-- A number between two others is finite when it is strictly so. -/
theorem isFinite_of_lt_of_lt {x y z : Float} (h : x < y) (h' : y < z) : y.isFinite = true := by
  obtain ⟨-, hy, hlt⟩ := lt_iff.mp h
  obtain ⟨-, -, hlt'⟩ := lt_iff.mp h'
  by_contra hinf
  rcases hy.value_of_not_isFinite ((Bool.not_eq_true _).mp hinf) with htop | hbot
  · rw [htop] at hlt'
    exact absurd hlt' not_top_lt
  · rw [hbot] at hlt
    exact absurd hlt not_lt_bot

theorem float_lt_of_lt_of_le {x y z : Float} (h : x < y) (h' : y ≤ z) : x < z :=
  lt_iff.mpr ⟨(lt_iff.mp h).1, (le_iff.mp h').2.1, (lt_iff.mp h).2.2.trans_le (le_iff.mp h').2.2⟩

theorem float_lt_of_le_of_lt {x y z : Float} (h : x ≤ y) (h' : y < z) : x < z :=
  lt_iff.mpr ⟨(le_iff.mp h).1, (lt_iff.mp h').2.1, (le_iff.mp h).2.2.trans_lt (lt_iff.mp h').2.2⟩

/-- **What a witness tests**: the polynomial at both ends of the radii, which are finite unless they
are the same. -/
theorem Witness.test_spec {r₁ r₂ : Float} (h : w.test b r₁ r₂ = .ok (some (radii, enclosure))) :
    enclosure = (b.polynomialAt (point radii.lo)).hull (b.polynomialAt (point radii.hi)) ∧
      (radii.lo = radii.hi ∨ radii.lo.isFinite = true ∧ radii.hi.isFinite = true) := by
  cases w with
  | midpoint =>
    simp only [Witness.test, Except.ok.injEq, Option.some.injEq, Prod.mk.injEq] at h
    obtain ⟨rfl, rfl⟩ := h
    exact ⟨(hull_self _).symm, .inl rfl⟩
  | band lo hi =>
    unfold Witness.test at h
    dsimp only at h
    split_ifs at h with hin
    · obtain ⟨hlo, hle, hhi⟩ := hin
      rw [Interval.ofEndpoints, if_pos hle] at h
      simp only [bind, Except.bind, pure, Except.pure, Except.ok.injEq, Option.some.injEq,
        Prod.mk.injEq] at h
      obtain ⟨rfl, rfl⟩ := h
      exact ⟨rfl, .inr ⟨isFinite_of_lt_of_lt hlo (float_lt_of_le_of_lt hle hhi),
        isFinite_of_lt_of_lt (float_lt_of_lt_of_le hlo hle) hhi⟩⟩
    · simp at h

/-- **A certified report** comes from a test between two roots, with a negative enclosure. -/
theorem exists_of_isCertified (h : b.certify w = .ok report) (hc : report.isCertified = true) :
    ∃ r₁ r₂ radii enclosure, b.z0.hi < 1 ∧
      w.test b r₁ r₂ = .ok (some (radii, enclosure)) ∧ enclosure.strictlyBelow 0 = true ∧
      report.testedAt = some radii ∧ report.value = some enclosure := by
  obtain ⟨hz, -, -, radii, enclosure, htest, hneg, rfl⟩ :=
    (Bounds.certify_eq_iff.mp h).of_isCertified hc
  exact ⟨_, _, radii, enclosure, hz, htest, decide_eq_true hneg, rfl, rfl⟩

/-! ## Soundness -/

/-- A real radius, or one finite end, makes both ends finite. -/
theorem isFinite_ends (hends : radii.lo = radii.hi ∨
      radii.lo.isFinite = true ∧ radii.hi.isFinite = true)
    (h : (∃ r : ℝ, r ∈ radii) ∨ ∃ e ∈ [radii.lo, radii.hi], e.isFinite = true) :
    radii.lo.isFinite = true ∧ radii.hi.isFinite = true := by
  rcases hends with heq | hfin
  · rw [← heq, and_self]
    rcases h with ⟨r, hlo, -, hler, hrle⟩ | h
    · rw [← heq] at hrle
      exact isFinite_iff.mpr ⟨hlo, r, le_antisymm hler hrle⟩
    · simpa [← heq] using h
  · exact hfin

/-- **The two ends of a negative enclosure**: the polynomial is negative there, and the enclosure
holds the interval computed at either end. -/
theorem ends_spec {y z Z : ℝ} (h : b.Allows y z Z) (hz1 : z < 1)
    (hfin : radii.lo.isFinite = true ∧ radii.hi.isFinite = true)
    (hneg : ((b.polynomialAt (point radii.lo)).hull
      (b.polynomialAt (point radii.hi))).strictlyBelow 0 = true) :
    b.y0.hi.isFinite = true ∧
      ((b.polynomialAt (point radii.lo)).hull (b.polynomialAt (point radii.hi))).HasNumbers ∧
      ∀ e ∈ [radii.lo, radii.hi], radiiPolynomial y z Z (real e) < 0 ∧
        value ((b.polynomialAt (point radii.lo)).hull (b.polynomialAt (point radii.hi))).lo
          ≤ (radiiPolynomial y z Z (real e) : ℝ) ∧
        value (b.polynomialAt (point e)).hi
          ≤ value ((b.polynomialAt (point radii.lo)).hull (b.polynomialAt (point radii.hi))).hi := by
  obtain ⟨hnlo, hplo⟩ := polynomialAt_hi h hfin.1
  obtain ⟨hnhi, hphi⟩ := polynomialAt_hi h hfin.2
  have hbelow := (lt_iff.mp (of_decide_eq_true hneg)).2.2
  change value (Binary64.larger _ _) < value 0 at hbelow
  rw [(larger_spec hnlo hnhi).2, value_zero, max_lt_iff] at hbelow
  obtain ⟨hyfin, hlo⟩ := hplo hbelow.1
  obtain ⟨-, hhi⟩ := hphi hbelow.2
  obtain ⟨hnlo', hlole⟩ := polynomialAt_lo h hz1 hfin.1 hlo
  obtain ⟨hnhi', hhile⟩ := polynomialAt_lo h hz1 hfin.2 hhi
  obtain ⟨hnum, hvlo, hvhi⟩ := hull_spec ⟨hnlo', hnlo⟩ ⟨hnhi', hnhi⟩
  refine ⟨hyfin, hnum, ?_⟩
  rw [hvlo, hvhi]
  simp only [List.mem_cons, List.not_mem_nil, or_false, forall_eq_or_imp, forall_eq]
  exact ⟨⟨hlo, min_le_of_left_le hlole, le_max_left _ _⟩,
    hhi, min_le_of_right_le hhile, le_max_right _ _⟩

/-- **What a certificate says.** At every radius of the report, for all reals that the bounds stand
for, the polynomial is negative, and the map contracts. The values at the ends of the radii belong
to the reported enclosure exactly when the difference keeps its error there, or when the other
roundings make up for the loss. -/
theorem certify_sound (h : b.certify w = .ok report) (hc : report.isCertified = true) :
    ∃ radii enclosure, report.testedAt = some radii ∧ report.value = some enclosure ∧
      (∀ y z Z, b.Allows y z Z → ∀ r ∈ radii,
        0 < r ∧ z < 1 ∧ z + Z * r < 1 ∧ radiiPolynomial y z Z r < 0) ∧
      ((∃ y z Z, b.Allows y z Z) →
        ((∀ y z Z, b.Allows y z Z → ∀ e ∈ [radii.lo, radii.hi], e.isFinite = true →
            radiiPolynomial y z Z (real e) ∈ enclosure)
          ↔ ∀ e ∈ [radii.lo, radii.hi], e.isFinite = true → b.lossAt e = false ∨
            ((radiiPolynomial (real b.y0.hi) (real b.z0.hi) (real b.z2.hi) (real e) : ℝ) : EReal)
              ≤ value enclosure.hi)) := by
  obtain ⟨r₁, r₂, radii, enclosure, hz, htest, hneg, hradii, henclosure⟩ :=
    exists_of_isCertified h hc
  obtain ⟨rfl, hends⟩ := Witness.test_spec htest
  have hzhi : value b.z0.hi < 1 := by
    have hlt := (lt_iff.mp hz).2.2
    rwa [value_one, EReal.coe_one] at hlt
  have hz1 : ∀ {z : ℝ}, z ∈ b.z0 → z < 1 := fun hz => by
    exact_mod_cast hz.2.2.2.trans_lt hzhi
  refine ⟨radii, _, hradii, henclosure, fun y z Z hallow r hr => ?_, fun ⟨y, z, Z, hallow⟩ => ?_⟩
  · have hfin := isFinite_ends hends (.inl ⟨r, hr⟩)
    obtain ⟨-, -, hspec⟩ := ends_spec hallow (hz1 hallow.2.1) hfin hneg
    obtain ⟨hlor, hrhi⟩ := (mem_iff_real hfin.1 hfin.2).mp hr
    have hp := radiiPolynomial_neg_of_between hallow.2.2.2.2 hlor hrhi (hspec _ (by simp)).1
      (hspec _ (by simp)).1
    obtain ⟨hpos, hcontract⟩ :=
      pos_of_radiiPolynomial_neg hallow.2.2.2.1 hallow.2.2.2.2 (hz1 hallow.2.1) hp
    exact ⟨hpos, hz1 hallow.2.1, hcontract, hp⟩
  · -- where an error is lost the upper ends of the bounds are allowed, and the worst case
    have hworst : ∀ {y z Z : ℝ}, b.Allows y z Z → ∀ e ∈ [radii.lo, radii.hi], e.isFinite = true →
        b.lossAt e = true → 0 < real e ∧ y ≤ real b.y0.hi ∧ z ≤ real b.z0.hi ∧ Z ≤ real b.z2.hi ∧
          b.Allows (real b.y0.hi) (real b.z0.hi) (real b.z2.hi) := fun hallow e he hefin hlost => by
      have hfin := isFinite_ends hends (.inr ⟨e, he, hefin⟩)
      obtain ⟨hyfin, -, hspec⟩ := ends_spec hallow (hz1 hallow.2.1) hfin hneg
      have hpos := (pos_of_radiiPolynomial_neg hallow.2.2.2.1 hallow.2.2.2.2 (hz1 hallow.2.1)
        (hspec e he).1).1
      exact ⟨hpos, allows_hi hallow hzhi hefin hpos hyfin hlost⟩
    constructor
    · intro hmem e he hefin
      rcases Bool.eq_false_or_eq_true (b.lossAt e) with hlost | hkept
      · exact .inr (hmem _ _ _ (hworst hallow e he hefin hlost).2.2.2.2 e he hefin).2.2.2
      · exact .inl hkept
    · intro hkept y z Z hallow e he hefin
      have hfin := isFinite_ends hends (.inr ⟨e, he, hefin⟩)
      obtain ⟨-, hnum, hspec⟩ := ends_spec hallow (hz1 hallow.2.1) hfin hneg
      obtain ⟨-, hlo, hhi⟩ := hspec e he
      refine brackets_iff.mpr ⟨hnum, hlo, ?_⟩
      rcases Bool.eq_false_or_eq_true (b.lossAt e) with hlost | hnone
      · obtain ⟨hpos, hy, hz, hZ, -⟩ := hworst hallow e he hefin hlost
        refine le_trans (EReal.coe_le_coe_iff.mpr (radiiPolynomial_mono hpos.le hy hz hZ))
          ((hkept e he hefin).resolve_left ?_)
        rw [hlost]
        decide
      · exact (le_polynomialAt_hi hallow hefin hnone).trans hhi

/-- The bounds `0.125`, `0.25` and `1` are certified at the midpoint of their roots. -/
theorem certify_sound_midpoint :
    ∃ radii, ((Bounds.mk (point 0.125) (point 0.25) (point 1)).certify .midpoint).toOption.bind
        (·.testedAt) = some radii ∧
      ∀ y z Z, (Bounds.mk (point 0.125) (point 0.25) (point 1)).Allows y z Z → ∀ r ∈ radii,
        0 < r ∧ z < 1 ∧ z + Z * r < 1 ∧ radiiPolynomial y z Z r < 0 := by
  have hcertified : ((Bounds.mk (point 0.125) (point 0.25) (point 1)).certify
      .midpoint).toOption.map (·.isCertified) = some true := by decide +kernel
  cases h : (Bounds.mk (point 0.125) (point 0.25) (point 1)).certify .midpoint with
  | error fault =>
    rw [h] at hcertified
    cases hcertified
  | ok report =>
    rw [h] at hcertified
    obtain ⟨radii, -, hradii, -, hsound, -⟩ := certify_sound h (Option.some.inj hcertified)
    exact ⟨radii, hradii, hsound⟩

/-- The value of a polynomial whose terms are `3 · 2 ^ 970` and just beyond the largest float. -/
theorem lt_radiiPolynomial_of_loss :
    -real (.ofBits 0x7FEFFFFFFFFFFFFE) < radiiPolynomial 0 (-real (.ofBits 0x5FFFFFFFFFFFFFFF))
      (real (.ofBits 0x3CC8000000000000)) (real (.ofBits 0x5FE0000000000000)) := by
  obtain ⟨-, hp⟩ := real_ofBits (u := 0x7FEFFFFFFFFFFFFE) (by decide)
  obtain ⟨-, hz⟩ := real_ofBits (u := 0x5FFFFFFFFFFFFFFF) (by decide)
  obtain ⟨-, hZ⟩ := real_ofBits (u := 0x3CC8000000000000) (by decide)
  obtain ⟨-, hr⟩ := real_ofBits (u := 0x5FE0000000000000) (by decide)
  rw [magnitude, show wordSignificand (UInt64.toNat 0x7FEFFFFFFFFFFFFE) = 2 ^ 53 - 2 by decide,
    show wordExponent (UInt64.toNat 0x7FEFFFFFFFFFFFFE) = 459 + (512 : ℕ) by decide,
    zpow_two_add, show 512 = 53 + 459 by norm_num, pow_add] at hp
  rw [magnitude, show wordSignificand (UInt64.toNat 0x5FFFFFFFFFFFFFFF) = 2 ^ 53 - 1 by decide,
    show wordExponent (UInt64.toNat 0x5FFFFFFFFFFFFFFF) = 459 + (1 : ℕ) by decide,
    zpow_two_add] at hz
  rw [magnitude, show wordSignificand (UInt64.toNat 0x3CC8000000000000) = 3 * 2 ^ 51 by decide,
    show wordExponent (UInt64.toNat 0x3CC8000000000000) = -103 by decide] at hZ
  rw [magnitude, show wordSignificand (UInt64.toNat 0x5FE0000000000000) = 2 ^ 52 by decide,
    show wordExponent (UInt64.toNat 0x5FE0000000000000) = 459 by decide] at hr
  have hu := zpow_two_lt (show (0 : ℤ) < 459 by norm_num)
  rw [zpow_zero] at hu
  rw [← zpow_natCast (2 : ℝ) 459, Nat.cast_ofNat] at hp
  rw [hp, hz, hZ, hr, radiiPolynomial]
  generalize (2 : ℝ) ^ (459 : ℤ) = u at *
  norm_num
  nlinarith

/-- **An enclosure that misses the value** at the ends of a band, which are the same. -/
theorem certify_value_misses :
    ∃ b w report radii enclosure, Bounds.certify b w = .ok report ∧ report.isCertified = true ∧
      report.testedAt = some radii ∧ report.value = some enclosure ∧
      ∃ y z Z, b.Allows y z Z ∧ radii.hi.isFinite = true ∧
        radiiPolynomial y z Z (real radii.hi) ∉ enclosure := by
  obtain ⟨hfz, hz⟩ := neg_finite (x := .ofBits 0x5FFFFFFFFFFFFFFF) (by decide +kernel)
  obtain ⟨hfp, hp⟩ := neg_finite (x := .ofBits 0x7FEFFFFFFFFFFFFE) (by decide +kernel)
  have hfZ : (Float.ofBits 0x3CC8000000000000).isFinite = true := by decide +kernel
  have hfr : (Float.ofBits 0x5FE0000000000000).isFinite = true := by decide +kernel
  have hposZ : 0 < real (.ofBits 0x3CC8000000000000) := (pos_iff hfZ).mp (by decide +kernel)
  have hmiss := lt_radiiPolynomial_of_loss
  have hcert : (Bounds.certify ⟨point 0, point (-.ofBits 0x5FFFFFFFFFFFFFFF),
      point (.ofBits 0x3CC8000000000000)⟩
      (.band (.ofBits 0x5FE0000000000000) (.ofBits 0x5FE0000000000000))).toOption.map
        (fun report => (report.isCertified, report.testedAt, report.value))
      = some (true, some (point (.ofBits 0x5FE0000000000000)),
        some ⟨-infinity, -.ofBits 0x7FEFFFFFFFFFFFFE⟩) := by decide +kernel
  rw [← hz, ← hp] at hmiss
  generalize -Float.ofBits 0x5FFFFFFFFFFFFFFF = z at *
  generalize -Float.ofBits 0x7FEFFFFFFFFFFFFE = p at *
  generalize Float.ofBits 0x3CC8000000000000 = Z at *
  generalize Float.ofBits 0x5FE0000000000000 = r at *
  cases h : Bounds.certify ⟨point 0, point z, point Z⟩ (.band r r) with
  | error fault =>
    rw [h] at hcert
    cases hcert
  | ok report =>
    rw [h] at hcert
    simp only [Except.toOption, Option.map_some, Option.some.injEq, Prod.mk.injEq] at hcert
    obtain ⟨hc, hradii, hvalue⟩ := hcert
    refine ⟨_, _, report, _, _, h, hc, hradii, hvalue, 0, real z, real Z,
      ⟨zero_brackets, mem_point hfz, mem_point hfZ, le_rfl, hposZ.le⟩, hfr, fun hmem => ?_⟩
    have hle := hmem.2.2.2
    rw [mk_hi, ← coe_real hfp, EReal.coe_le_coe_iff] at hle
    exact absurd hle (not_le.mpr hmiss)

end CertifiedZeros
