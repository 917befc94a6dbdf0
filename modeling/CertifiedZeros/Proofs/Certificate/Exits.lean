import CertifiedZeros.Certificate.Basic
import Mathlib.Tactic.Common

/-! # How a certification ends

A certification has five exits. Each leaves a verdict, and fills in what was known by then: the
roots once they are real, the radii and the enclosure once the polynomial was tested.

* **`Bounds.gap`**, **`Bounds.discriminant`**, **`Bounds.halfSum`**, **`Bounds.smallRoot`**,
  **`Bounds.largeRoot`** — the steps of the computation of the roots.
* **`Bounds.Ends`** — how a certification ends, one constructor for each exit, with the comparisons
  that lead there.
* **`Bounds.certify_eq_iff`** — a report is that of its exit; **`Bounds.certify_ends`** — there is one
  for all intervals and witnesses, NaN among them. -/

namespace CertifiedZeros

open Binary64

variable {b : Bounds Interval} {w : Witness} {report : Report} {r₁ r₂ : Float}
  {radii enclosure : Interval}

namespace Bounds

/-! ## The steps of the computation -/

/-- The slope of the linear part. -/
def gap (u : Bounds Float) : Float := 1 - u.z0

/-- The discriminant of the polynomial. -/
def discriminant (u : Bounds Float) : Float := u.gap * u.gap - 4 * u.z2 * u.y0

/-- Half the sum of the slope and the root of the discriminant. -/
def halfSum (u : Bounds Float) : Float := 0.5 * (u.gap + u.discriminant.sqrt)

/-- The smaller root. -/
def smallRoot (u : Bounds Float) : Float := u.y0 / u.halfSum

/-- The larger root, infinite when the polynomial is linear. -/
def largeRoot (u : Bounds Float) : Float := if 0 < u.z2 then u.halfSum / u.z2 else infinity

theorem roots?_eq (u : Bounds Float) :
    u.roots? = if 0 ≤ u.discriminant then some (u.smallRoot, u.largeRoot) else none := rfl

/-! ## The exits -/

/-- The report of a certification that stops short of the test, with or without roots. -/
def stoppedReport (u : Bounds Float) (obstacle : Obstacle) (roots : Option (Float × Float)) :
    Report where
  verdict := .notCertified obstacle
  bounds := u
  roots := roots

/-- The report on a test at `radii` that has found the values `enclosure`. -/
def testedReport (u : Bounds Float) (verdict : Verdict) (radii enclosure : Interval) : Report where
  verdict := verdict
  bounds := u
  roots := some (u.smallRoot, u.largeRoot)
  testedAt := some radii
  value := some enclosure

/-- The verdict on the largest value of the polynomial. -/
def verdictOn (v : Float) : Verdict :=
  if v < 0 then .certified else .notCertified .notNegative

/-- **How a certification ends.** A comparison that fails may do so on a NaN. -/
inductive Ends (b : Bounds Interval) (w : Witness) : Report → Prop where
  /-- The linear part is no contraction. -/
  | notContracting (hz : ¬b.upper.z0 < 1) : Ends b w (b.upper.stoppedReport .notContracting none)
  /-- There are no real roots. -/
  | negativeDiscriminant (hz : b.upper.z0 < 1) (hd : ¬0 ≤ b.upper.discriminant) :
    Ends b w (b.upper.stoppedReport .negativeDiscriminant none)
  /-- The roots are not in order. -/
  | noInterior (hz : b.upper.z0 < 1) (hd : 0 ≤ b.upper.discriminant)
      (hroom : ¬b.upper.smallRoot < b.upper.largeRoot) :
    Ends b w (b.upper.stoppedReport .noInterior (some (b.upper.smallRoot, b.upper.largeRoot)))
  /-- The witness has nothing to test between the roots. -/
  | witnessOutside (hz : b.upper.z0 < 1) (hd : 0 ≤ b.upper.discriminant)
      (hroom : b.upper.smallRoot < b.upper.largeRoot)
      (htest : w.test b b.upper.smallRoot b.upper.largeRoot = .ok none) :
    Ends b w (b.upper.stoppedReport .witnessOutside (some (b.upper.smallRoot, b.upper.largeRoot)))
  /-- The polynomial was tested, and its values decide. -/
  | tested (hz : b.upper.z0 < 1) (hd : 0 ≤ b.upper.discriminant)
      (hroom : b.upper.smallRoot < b.upper.largeRoot) {radii enclosure : Interval}
      (htest : w.test b b.upper.smallRoot b.upper.largeRoot = .ok (some (radii, enclosure))) :
    Ends b w (b.upper.testedReport (verdictOn enclosure.hi) radii enclosure)

end Bounds

/-- **A test never fails**: the ends of a band are put together only when they are in order. -/
theorem Witness.test_ok (w : Witness) (b : Bounds Interval) (r₁ r₂ : Float) :
    ∃ t, w.test b r₁ r₂ = .ok t := by
  cases w with
  | midpoint => exact ⟨_, rfl⟩
  | band lo hi =>
    rw [test]
    split_ifs with hband
    · rw [Interval.ofEndpoints, if_pos hband.2.1]
      exact ⟨_, rfl⟩
    · exact ⟨_, rfl⟩

namespace Bounds

/-- An exit determines the report. -/
theorem Ends.certify_eq (h : b.Ends w report) : b.certify w = .ok report := by
  rw [certify]
  dsimp only
  cases h with
  | notContracting hz => exact if_neg hz
  | negativeDiscriminant hz hd =>
    rw [if_pos hz, roots?_eq, if_neg hd]
    rfl
  | noInterior hz hd hroom =>
    rw [if_pos hz, roots?_eq, if_pos hd]
    exact if_neg hroom
  | witnessOutside hz hd hroom htest =>
    rw [if_pos hz, roots?_eq, if_pos hd]
    dsimp only
    rw [if_pos hroom, htest]
    rfl
  | @tested hz hd hroom radii enclosure htest =>
    rw [if_pos hz, roots?_eq, if_pos hd]
    dsimp only
    rw [if_pos hroom, htest]
    have hbelow : enclosure.strictlyBelow 0 = true ↔ enclosure.hi < 0 := decide_eq_true_iff
    have hverdict : (if enclosure.strictlyBelow 0 = true then Verdict.certified
        else .notCertified .notNegative) = verdictOn enclosure.hi := by
      simp only [hbelow, verdictOn]
    rw [← hverdict]
    rfl

/-- **Every certification comes to one of the exits**, and never fails. -/
theorem certify_ends (b : Bounds Interval) (w : Witness) :
    ∃ report, b.certify w = .ok report ∧ b.Ends w report := by
  have hexit : ∃ report, b.Ends w report := by
    by_cases hz : b.upper.z0 < 1
    swap
    · exact ⟨_, .notContracting hz⟩
    by_cases hd : 0 ≤ b.upper.discriminant
    swap
    · exact ⟨_, .negativeDiscriminant hz hd⟩
    by_cases hroom : b.upper.smallRoot < b.upper.largeRoot
    swap
    · exact ⟨_, .noInterior hz hd hroom⟩
    obtain ⟨t, htest⟩ := w.test_ok b b.upper.smallRoot b.upper.largeRoot
    cases t with
    | none => exact ⟨_, .witnessOutside hz hd hroom htest⟩
    | some p => exact ⟨_, .tested hz hd hroom htest⟩
  obtain ⟨report, hends⟩ := hexit
  exact ⟨report, hends.certify_eq, hends⟩

/-- **The report is that of the exit.** -/
theorem certify_eq_iff : b.certify w = .ok report ↔ b.Ends w report := by
  refine ⟨fun h => ?_, Ends.certify_eq⟩
  obtain ⟨_, hreport, hends⟩ := b.certify_ends w
  rw [h] at hreport
  cases hreport
  exact hends

/-! ## What the fields of a report say -/

namespace Ends

/-- **Reported roots** are real, and those of the upper endpoints. -/
theorem of_roots (h : b.Ends w report) (hroots : report.roots = some (r₁, r₂)) :
    b.upper.z0 < 1 ∧ 0 ≤ b.upper.discriminant ∧ r₁ = b.upper.smallRoot ∧ r₂ = b.upper.largeRoot := by
  cases h with
  | notContracting => cases hroots
  | negativeDiscriminant => cases hroots
  | noInterior hz hd =>
    cases hroots
    exact ⟨hz, hd, rfl, rfl⟩
  | witnessOutside hz hd =>
    cases hroots
    exact ⟨hz, hd, rfl, rfl⟩
  | tested hz hd =>
    cases hroots
    exact ⟨hz, hd, rfl, rfl⟩

/-- Roots that are not in order have no room between them. -/
theorem verdict_of_not_lt (h : b.Ends w report) (hroots : report.roots = some (r₁, r₂))
    (hroom : ¬r₁ < r₂) : report.verdict = .notCertified .noInterior := by
  cases h with
  | notContracting => cases hroots
  | negativeDiscriminant => cases hroots
  | noInterior => rfl
  | witnessOutside _ _ hlt =>
    cases hroots
    exact absurd hlt hroom
  | tested _ _ hlt =>
    cases hroots
    exact absurd hlt hroom

/-- **Radii in a report** were tested between the roots. -/
theorem of_testedAt (h : b.Ends w report) (hradii : report.testedAt = some radii) :
    report.roots = some (b.upper.smallRoot, b.upper.largeRoot) ∧
      b.upper.smallRoot < b.upper.largeRoot ∧
      ∃ enclosure,
        w.test b b.upper.smallRoot b.upper.largeRoot = .ok (some (radii, enclosure)) := by
  cases h with
  | tested _ _ hlt htest =>
    cases hradii
    exact ⟨rfl, hlt, _, htest⟩
  | _ => cases hradii

/-- **A certificate** comes from a test between the roots, with a negative enclosure. -/
theorem of_isCertified (h : b.Ends w report) (hc : report.isCertified = true) :
    b.upper.z0 < 1 ∧ 0 ≤ b.upper.discriminant ∧ b.upper.smallRoot < b.upper.largeRoot ∧
      ∃ radii enclosure,
        w.test b b.upper.smallRoot b.upper.largeRoot = .ok (some (radii, enclosure)) ∧
        enclosure.hi < 0 ∧ report = b.upper.testedReport .certified radii enclosure := by
  have hverdict : report.verdict = .certified := of_decide_eq_true hc
  cases h with
  | @tested hz hd hlt radii enclosure htest =>
    by_cases hneg : enclosure.hi < 0
    · rw [verdictOn, if_pos hneg]
      exact ⟨hz, hd, hlt, radii, enclosure, htest, hneg, rfl⟩
    · change verdictOn enclosure.hi = .certified at hverdict
      rw [verdictOn, if_neg hneg] at hverdict
      cases hverdict
  | _ => cases hverdict

end Ends

end Bounds

end CertifiedZeros
