import CertifiedZeros.Proofs.Binary64.RelativeError
import CertifiedZeros.Proofs.Interval.Membership

/-! # The midpoint of an interval

The midpoint is the sum of the halves of the endpoints. A half is exact unless it is subnormal, and
then it errs by at most half of the smallest positive float. Two such errors together could carry the
sum past an endpoint by less than that float; but the sum and the endpoints are multiples of it, so
the sum stays between them, and rounding it does not change that.

* **`abs_rounded_half_sub_le`** — half of a representable number, up to its error.
* **`rounded_halves_mem`** — the sum of the halves stays between the endpoints.
* **`mid_mem`**, **`contains_mid`** — so does the midpoint. -/

namespace CertifiedZeros.Interval

open Binary64

/-- **Half of a representable number** errs only when it is subnormal. -/
theorem abs_rounded_half_sub_le {r : ℝ} (hr : Representable r) :
    |rounded (1 / 2 * r) - 1 / 2 * r| ≤ underflowError := by
  rcases lt_or_ge |r| ((2 : ℝ) ^ (-1021 : ℤ)) with hsmall | hlarge
  · have hunit : unitExponent (1 / 2 * r) ≤ -1074 := by
      refine unitExponent_le le_rfl (lt_of_le_of_lt ?_ hsmall)
      rw [abs_mul, abs_of_pos one_half_pos]
      linarith [abs_nonneg r]
    rw [abs_sub_comm, ← half_least_eq]
    exact (abs_sub_rounded_le _).trans (div_le_div_of_nonneg_right (zpow_two_le hunit) two_pos.le)
  · rw [rounded_eq (hr.half hlarge), sub_self, abs_zero]
    exact underflowError_pos.le

/-- **The halves of two different numbers**, each rounded, together do not leave the smaller one
behind: what is missing is less than the distance of two multiples of the smallest float. -/
theorem le_rounded_halves {r s : ℝ} (hr : Representable r) (hs : Representable s) (h : r < s) :
    r ≤ rounded (1 / 2 * r) + rounded (1 / 2 * s) := by
  by_contra hlt
  rw [not_le] at hlt
  have hgrid : OnGrid (-1074) (rounded (1 / 2 * r) + rounded (1 / 2 * s) - r) :=
    (((representable_rounded _).onGrid_least).add (representable_rounded _).onGrid_least).sub
      hr.onGrid_least
  have hstep := hgrid.zpow_le_abs (by linarith)
  rw [abs_of_neg (by linarith)] at hstep
  linarith [neg_le_of_abs_le (abs_rounded_half_sub_le hr),
    neg_le_of_abs_le (abs_rounded_half_sub_le hs), half_least_eq]

/-- **The halves stay between the endpoints.** -/
theorem rounded_halves_mem {r s : ℝ} (hr : Representable r) (hs : Representable s) (h : r < s) :
    r ≤ rounded (1 / 2 * r) + rounded (1 / 2 * s) ∧
      rounded (1 / 2 * r) + rounded (1 / 2 * s) ≤ s := by
  refine ⟨le_rounded_halves hr hs h, ?_⟩
  have hneg := le_rounded_halves hs.neg hr.neg (neg_lt_neg h)
  rw [mul_neg, mul_neg, rounded_neg, rounded_neg] at hneg
  linarith

/-- **The midpoint is a finite member.** -/
theorem mid_mem {x : Interval} (hlo : x.lo.isFinite = true) (hhi : x.hi.isFinite = true)
    (h : x.lo ≤ x.hi) : x.mid.isFinite = true ∧ real x.mid ∈ x := by
  unfold mid
  split_ifs with hpoint
  · exact ⟨hlo, lo_mem h hlo⟩
  · have hlt : real x.lo < real x.hi := by
      refine lt_of_le_of_ne (real_le_real h hlo hhi) fun heq => hpoint ?_
      rw [isPoint, beq_iff, ← coe_real hlo, ← coe_real hhi, heq]
      exact ⟨isNumber_of_isFinite hlo, isNumber_of_isFinite hhi, rfl⟩
    obtain ⟨hge, hle⟩ :=
      rounded_halves_mem (representable_real hlo) (representable_real hhi) hlt
    obtain ⟨hloHalf, hloReal⟩ := half_finite hlo
    obtain ⟨hhiHalf, hhiReal⟩ := half_finite hhi
    obtain ⟨hnum, hvalue⟩ := add_spec hloHalf hhiHalf
    rw [hloReal, hhiReal] at hvalue
    -- rounding the sum carries it past neither endpoint
    have habove : value x.lo ≤ value (0.5 * x.lo + 0.5 * x.hi) := by
      rw [hvalue, ← coe_real hlo, ← clamp_of_lt (abs_real_lt hlo)]
      exact clamp_mono (le_rounded (representable_real hlo) hge)
    have hbelow : value (0.5 * x.lo + 0.5 * x.hi) ≤ value x.hi := by
      rw [hvalue, ← coe_real hhi, ← clamp_of_lt (abs_real_lt hhi)]
      exact clamp_mono (rounded_le (representable_real hhi) hle)
    have hfin : (0.5 * x.lo + 0.5 * x.hi).isFinite = true :=
      isFinite_of_between hnum ((coe_real hlo).le.trans habove) (hbelow.trans (coe_real hhi).ge)
    refine ⟨hfin, mem_iff.mpr ⟨isNumber_of_isFinite hlo, isNumber_of_isFinite hhi, ?_, ?_⟩⟩
    · rwa [coe_real hfin]
    · rwa [coe_real hfin]

/-- **An interval with finite endpoints contains its midpoint**, which is finite. -/
theorem contains_mid {x : Interval} (hlo : x.lo.isFinite = true) (hhi : x.hi.isFinite = true)
    (h : x.lo ≤ x.hi) : x.contains x.mid = true ∧ x.mid.isFinite = true := by
  obtain ⟨hfin, hmem⟩ := mid_mem hlo hhi h
  exact ⟨contains_of_mem hfin hmem, hfin⟩

/-- Three and six times the smallest positive float: the first half is rounded, up to two. -/
theorem contains_mid_subnormal :
    (Interval.mk (.ofBits 3) (.ofBits 6)).mid = .ofBits 5 ∧
      (Interval.mk (.ofBits 3) (.ofBits 6)).contains (.ofBits 5) = true ∧
      (Float.ofBits 5).isFinite = true := by
  have hmid : (Interval.mk (.ofBits 3) (.ofBits 6)).mid = .ofBits 5 := by decide +kernel
  have h := contains_mid (x := ⟨.ofBits 3, .ofBits 6⟩) (by decide) (by decide) (by decide +kernel)
  rw [hmid] at h
  exact ⟨hmid, h⟩

end CertifiedZeros.Interval
