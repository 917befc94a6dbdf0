import CertifiedZeros.Binary64.Power
import CertifiedZeros.PhaseNorm
import CertifiedZeros.Proofs.Binary64.Order
import CertifiedZeros.Proofs.Binary64.RelativeError

/-! # The rounding error of repeated squaring

Each product of the powering loop is rounded, and the errors of squares are squared along with them.
The loop is followed by its own recursion, with one invariant for both of its variables:

* **`Near e k t r`** — `r` is the exact number `t` up to `k` roundings, among numbers of at least one
  in size, where nothing underflows, or of at most one, where an underflow adds `e`.
* **`Near.mul`** — a rounded product counts the roundings of both factors, and one more.
* **`powerFrom_near`** — what one round of the loop preserves, and from it the whole loop.
* **`abs_power_sub_le`** — the `n`-th power after `n - 1` roundings.
* **`real_cosineWeight`** — the weights of a cosine series double it without an error. -/

namespace CertifiedZeros.Binary64

variable {e t r s q : ℝ} {k l n : ℕ} {acc x : Float}

/-! ## One product -/

/-- **An approximation after `k` roundings.** -/
structure Near (e : ℝ) (k : ℕ) (t r : ℝ) : Prop where
  /-- Either nothing underflows, or numbers stay within one and an underflow adds `e`. -/
  regime : e = 0 ∧ 1 ≤ |r| ∨ e = underflowError ∧ |r| ≤ 1 ∧ |t| ≤ 1
  error : |r - t| ≤ ((1 + unitRoundoff) ^ k - 1) * |t| + k * (1 + unitRoundoff) ^ k * e

theorem Near.nonneg (h : Near e k t r) : 0 ≤ e := by
  rcases h.regime with ⟨he, -⟩ | ⟨he, -⟩
  · exact he.ge
  · exact he ▸ underflowError_pos.le

/-- An underflow is not enlarged by a computed number. -/
theorem Near.mul_abs_computed_le (h : Near e k t r) : e * |r| ≤ e := by
  rcases h.regime with ⟨he, -⟩ | ⟨-, hr, -⟩
  · rw [he, zero_mul]
  · exact mul_le_of_le_one_right h.nonneg hr

/-- An underflow is not enlarged by an exact number. -/
theorem Near.mul_abs_exact_le (h : Near e k t r) : e * |t| ≤ e := by
  rcases h.regime with ⟨he, -⟩ | ⟨-, -, ht⟩
  · rw [he, zero_mul]
  · exact mul_le_of_le_one_right h.nonneg ht

/-- **The product of two approximations**, before it is rounded. -/
theorem Near.abs_mul_sub_le (hr : Near e k t r) (hq : Near e l s q) :
    |r * q - t * s| ≤ ((1 + unitRoundoff) ^ (k + l) - 1) * |t * s|
      + (k + l) * (1 + unitRoundoff) ^ (k + l) * e := by
  have hk := one_le_pow_roundoff k
  have hl := one_le_pow_roundoff l
  have he := hr.nonneg
  have hsplit : |r * q - t * s| ≤ |r - t| * |q| + |t| * |q - s| := by
    rw [← abs_mul, ← abs_mul, show r * q - t * s = (r - t) * q + t * (q - s) by ring]
    exact abs_add_le _ _
  have hsize : |q| ≤ |s| + |q - s| := by
    have htri := abs_add_le s (q - s)
    rwa [add_sub_cancel] at htri
  have hleft := hr.error
  have hright := hq.error
  rw [pow_add, abs_mul t s]
  generalize (1 + unitRoundoff) ^ k = U at *
  generalize (1 + unitRoundoff) ^ l = V at *
  have hU : 0 ≤ U := zero_le_one.trans hk
  have hVU : U ≤ U * V := le_mul_of_one_le_right hU hl
  -- the first error is scaled by the second computed factor, which is near its exact one
  have hfirst : |r - t| * |q| ≤ (U - 1) * |t| * (|s| + |q - s|) + k * U * e :=
    calc |r - t| * |q| ≤ ((U - 1) * |t| + k * U * e) * |q| :=
          mul_le_mul_of_nonneg_right hleft (abs_nonneg q)
      _ = (U - 1) * |t| * |q| + k * U * (e * |q|) := by ring
      _ ≤ (U - 1) * |t| * (|s| + |q - s|) + k * U * e :=
          add_le_add
            (mul_le_mul_of_nonneg_left hsize (mul_nonneg (sub_nonneg.mpr hk) (abs_nonneg t)))
            (mul_le_mul_of_nonneg_left hq.mul_abs_computed_le (by positivity))
  have hsecond : U * |t| * |q - s| ≤ U * (V - 1) * (|t| * |s|) + l * (U * V) * e :=
    calc U * |t| * |q - s| ≤ U * |t| * ((V - 1) * |s| + l * V * e) :=
          mul_le_mul_of_nonneg_left hright (mul_nonneg hU (abs_nonneg t))
      _ = U * (V - 1) * (|t| * |s|) + l * (U * V) * (e * |t|) := by ring
      _ ≤ U * (V - 1) * (|t| * |s|) + l * (U * V) * e :=
          add_le_add_right (mul_le_mul_of_nonneg_left hr.mul_abs_exact_le
            (mul_nonneg (Nat.cast_nonneg l) (hU.trans hVU))) _
  have hlast : k * U * e ≤ k * (U * V) * e :=
    mul_le_mul_of_nonneg_right (mul_le_mul_of_nonneg_left hVU (Nat.cast_nonneg k)) he
  calc |r * q - t * s| ≤ |r - t| * |q| + |t| * |q - s| := hsplit
    _ ≤ (U - 1) * |t| * (|s| + |q - s|) + k * U * e + |t| * |q - s| := by linarith
    _ = (U - 1) * (|t| * |s|) + U * |t| * |q - s| + k * U * e := by ring
    _ ≤ (U - 1) * (|t| * |s|) + (U * (V - 1) * (|t| * |s|) + l * (U * V) * e)
        + k * (U * V) * e := by linarith
    _ = (U * V - 1) * (|t| * |s|) + (k + l) * (U * V) * e := by ring

/-- **Rounding a product** of two approximations errs relatively, up to an underflow. -/
theorem Near.abs_sub_rounded_le (hr : Near e k t r) (hq : Near e l s q) :
    |r * q - rounded (r * q)| ≤ |r * q| * unitRoundoff + e := by
  rcases hr.regime with ⟨he, hr1⟩ | ⟨he, -⟩
  · have hq1 : 1 ≤ |q| := by
      rcases hq.regime with ⟨-, h⟩ | ⟨h, -⟩
      · exact h
      · exact absurd (h ▸ he) underflowError_pos.ne'
    have hlarge : 1 ≤ |r * q| := by
      rw [abs_mul]
      exact one_le_mul_of_one_le_of_one_le hr1 hq1
    have hnormal : (2 : ℝ) ^ (-1022 : ℤ) ≤ |r * q| :=
      ((zpow_two_le (by norm_num)).trans_eq (zpow_zero 2)).trans hlarge
    have hunit := unit_le_of_normal hnormal
    have herr := Binary64.abs_sub_rounded_le (r * q)
    rw [he]
    linarith
  · exact he ▸ abs_sub_rounded_le_relative (r * q)

/-- **A rounded product** counts the roundings of both factors, and one more. -/
theorem Near.mul (hr : Near e k t r) (hq : Near e l s q) :
    Near e (k + l + 1) (t * s) (rounded (r * q)) := by
  constructor
  · rcases hr.regime with ⟨he, hr1⟩ | ⟨he, hr1, ht1⟩
    · refine .inl ⟨he, ?_⟩
      rcases hq.regime with ⟨-, hq1⟩ | ⟨h, -⟩
      · rw [abs_rounded, abs_mul]
        exact le_rounded representable_one (one_le_mul_of_one_le_of_one_le hr1 hq1)
      · exact absurd (h ▸ he) underflowError_pos.ne'
    · refine .inr ⟨he, ?_⟩
      rcases hq.regime with ⟨h, -⟩ | ⟨-, hq1, hs1⟩
      · exact absurd (he ▸ h) underflowError_pos.ne'
      · rw [abs_rounded, abs_mul, abs_mul]
        exact ⟨rounded_le representable_one (mul_le_one₀ hr1 (abs_nonneg q) hq1),
          mul_le_one₀ ht1 (abs_nonneg s) hs1⟩
  · have hprod := hr.abs_mul_sub_le hq
    have hround := hr.abs_sub_rounded_le hq
    have he := hr.nonneg
    have hgrow := one_le_pow_roundoff (k + l + 1)
    have hsize : |r * q| ≤ |t * s| + |r * q - t * s| := by
      have htri := abs_add_le (t * s) (r * q - t * s)
      rwa [add_sub_cancel] at htri
    have hunit := mul_le_mul_of_nonneg_right hsize unitRoundoff_pos.le
    have hlast : e ≤ (1 + unitRoundoff) ^ (k + l + 1) * e := le_mul_of_one_le_left he hgrow
    rw [pow_succ] at hlast ⊢
    push_cast
    generalize (1 + unitRoundoff) ^ (k + l) = W at *
    calc |rounded (r * q) - t * s|
        ≤ |r * q - t * s| + |r * q - rounded (r * q)| := by
          rw [show rounded (r * q) - t * s = r * q - t * s - (r * q - rounded (r * q)) by ring]
          exact abs_sub _ _
      _ ≤ (1 + unitRoundoff) * |r * q - t * s| + |t * s| * unitRoundoff + e := by linarith
      _ ≤ (1 + unitRoundoff) * ((W - 1) * |t * s| + (k + l) * W * e)
          + |t * s| * unitRoundoff + e := by
          have hpos := unitRoundoff_pos
          gcongr
      _ ≤ (W * (1 + unitRoundoff) - 1) * |t * s|
          + (k + l + 1) * (W * (1 + unitRoundoff)) * e := by linarith

/-! ## The loop -/

/-- A finite power has finite factors. -/
theorem isFinite_of_powerFrom (h : (powerFrom acc x n).isFinite = true) :
    acc.isFinite = true ∧ (n ≠ 0 → x.isFinite = true) := by
  induction acc, x, n using powerFrom.induct with
  | case1 acc x =>
    rw [powerFrom, dif_pos rfl] at h
    exact ⟨h, fun h0 => absurd rfl h0⟩
  | case2 acc x n hn ih =>
    rw [powerFrom, dif_neg hn] at h
    obtain ⟨hacc, hsquare⟩ := ih h
    split_ifs at hacc with hodd
    · exact ⟨(isFinite_of_mul hacc).1, fun _ => (isFinite_of_mul hacc).2⟩
    · exact ⟨hacc, fun _ => (isFinite_of_mul (hsquare (by omega))).1⟩

/-- A product of floats approximates the exact product, if it is finite. -/
theorem Near.float_mul {a b : Float} (ha : Near e k t (real a)) (hb : Near e l s (real b))
    (h : (a * b).isFinite = true) : Near e (k + l + 1) (t * s) (real (a * b)) := by
  rw [real_mul h]
  exact ha.mul hb

/-- **The powering loop** counts the roundings of its accumulator, and one more than those of its
base for every factor of the power. -/
theorem powerFrom_near (h : (powerFrom acc x n).isFinite = true) (hacc : Near e k t (real acc))
    (hx : n ≠ 0 → Near e l s (real x)) :
    Near e (k + n * (l + 1)) (t * s ^ n) (real (powerFrom acc x n)) := by
  induction acc, x, n using powerFrom.induct generalizing k l t s with
  | case1 acc x =>
    rw [powerFrom, dif_pos rfl]
    simpa using hacc
  | case2 acc x n hn ih =>
    rw [powerFrom, dif_neg hn] at h ⊢
    have hbase := hx hn
    obtain ⟨haccfin, hsquarefin⟩ := isFinite_of_powerFrom h
    have hsquare : n / 2 ≠ 0 → Near e (l + l + 1) (s * s) (real (x * x)) := fun h0 =>
      hbase.float_mul hbase (hsquarefin h0)
    -- the square counts twice the roundings of the base and one more, which half the exponent makes up
    rcases Nat.mod_two_eq_zero_or_one n with heven | hodd
    · have hacc' : Near e k t (real (if n % 2 = 1 then acc * x else acc)) := by
        rwa [if_neg (by omega)]
      obtain ⟨m, rfl⟩ : ∃ m, n = 2 * m := ⟨n / 2, by omega⟩
      have hloop := ih h hacc' hsquare
      rw [Nat.mul_div_cancel_left m two_pos] at hloop ⊢
      rw [show k + 2 * m * (l + 1) = k + m * (l + l + 1 + 1) by ring,
        show t * s ^ (2 * m) = t * (s * s) ^ m by rw [pow_mul, pow_two]]
      exact hloop
    · rw [if_pos hodd] at haccfin
      have hacc' : Near e (k + l + 1) (t * s) (real (if n % 2 = 1 then acc * x else acc)) := by
        rw [if_pos hodd]
        exact hacc.float_mul hbase haccfin
      obtain ⟨m, rfl⟩ : ∃ m, n = 2 * m + 1 := ⟨n / 2, by omega⟩
      have hloop := ih h hacc' hsquare
      have hhalf : (2 * m + 1) / 2 = m := by omega
      rw [hhalf] at hloop ⊢
      rw [show k + (2 * m + 1) * (l + 1) = k + l + 1 + m * (l + l + 1 + 1) by ring,
        show t * s ^ (2 * m + 1) = t * s * (s * s) ^ m by rw [pow_succ, pow_mul, pow_two]; ring]
      exact hloop

/-- The product of one with a float is that float. -/
theorem real_one_mul {a : Float} (h : (1 * a).isFinite = true) : real (1 * a) = real a := by
  rw [real_mul h, real_one, one_mul, rounded_eq (representable_real (isFinite_of_mul h).2)]

/-- **A loop that starts at one** has one product without an error. -/
theorem powerFrom_one_near (hn : n ≠ 0) (h : (powerFrom 1 x n).isFinite = true)
    (hx : Near e l s (real x)) : Near e (n * (l + 1) - 1) (s ^ n) (real (powerFrom 1 x n)) := by
  induction n using Nat.strong_induction_on generalizing x l s with
  | _ n ih =>
    rw [powerFrom, dif_neg hn] at h ⊢
    obtain ⟨haccfin, hsquarefin⟩ := isFinite_of_powerFrom h
    have hsquare : n / 2 ≠ 0 → Near e (l + l + 1) (s * s) (real (x * x)) := fun h0 =>
      hx.float_mul hx (hsquarefin h0)
    -- the accumulator stays at one up to the first odd exponent, where its product is exact
    rcases Nat.mod_two_eq_zero_or_one n with heven | hodd
    · rw [if_neg (by omega)] at h ⊢
      obtain ⟨m, rfl⟩ : ∃ m, n = 2 * m := ⟨n / 2, by omega⟩
      rw [Nat.mul_div_cancel_left m two_pos] at h hsquare ⊢
      have hloop := ih m (by omega) (by omega) h (hsquare (by omega))
      rw [show 2 * m * (l + 1) = m * (l + l + 1 + 1) by ring, pow_mul, pow_two]
      exact hloop
    · rw [if_pos hodd] at h haccfin ⊢
      obtain ⟨m, rfl⟩ : ∃ m, n = 2 * m + 1 := ⟨n / 2, by omega⟩
      have hhalf : (2 * m + 1) / 2 = m := by omega
      rw [hhalf] at h hsquare ⊢
      have hloop := powerFrom_near h ((real_one_mul haccfin).symm ▸ hx) hsquare
      rw [show (2 * m + 1) * (l + 1) - 1 = l + m * (l + l + 1 + 1) by
          rw [show (2 * m + 1) * (l + 1) = l + m * (l + l + 1 + 1) + 1 by ring]
          rfl,
        pow_succ', pow_mul, pow_two]
      exact hloop

/-- A float approximates itself without a rounding. -/
theorem near_self (he : e = 0 ∧ 1 ≤ |t| ∨ e = underflowError ∧ |t| ≤ 1) : Near e 0 t t := by
  refine ⟨he.imp_right fun h => ⟨h.1, h.2, h.2⟩, ?_⟩
  simp

/-- **How far a power by repeated squaring may be from the exact one**: `n - 1` roundings, and as
many underflows for a base below one. -/
noncomputable def powerError (t : ℝ) (n : ℕ) : ℝ :=
  ((1 + unitRoundoff) ^ (n - 1) - 1) * |t| ^ n +
    if 1 ≤ |t| then 0 else (n - 1 : ℕ) * (1 + unitRoundoff) ^ (n - 1) * underflowError

theorem float_pow_zero (x : Float) : x ^ 0 = 1 := by
  change powerFrom 1 x 0 = 1
  rw [powerFrom, dif_pos rfl]

/-- **The error of a power** by repeated squaring that does not overflow. -/
theorem abs_power_sub_le (h : (x ^ n).isFinite = true) :
    |real (x ^ n) - real x ^ n| ≤ powerError (real x) n := by
  unfold powerError
  rcases eq_or_ne n 0 with rfl | hn
  · rw [float_pow_zero, real_one]
    simp
  · have hnear : ∀ e, (e = 0 ∧ 1 ≤ |real x| ∨ e = underflowError ∧ |real x| ≤ 1) →
        Near e (n - 1) (real x ^ n) (real (x ^ n)) := fun e he => by
      have hloop := powerFrom_one_near hn h (near_self he)
      rwa [zero_add, mul_one] at hloop
    split_ifs with h1
    · have herr := (hnear 0 (.inl ⟨rfl, h1⟩)).error
      rwa [mul_zero, abs_pow] at herr
    · have herr := (hnear underflowError (.inr ⟨rfl, (not_le.mp h1).le⟩)).error
      rwa [abs_pow] at herr

/-! ## Small powers, and weights -/

theorem float_pow_one (x : Float) : x ^ 1 = 1 * x := by
  change powerFrom 1 x 1 = 1 * x
  simp [powerFrom]

theorem float_pow_two (x : Float) : x ^ 2 = 1 * (x * x) := by
  change powerFrom 1 x 2 = 1 * (x * x)
  simp [powerFrom]

theorem float_pow_three (x : Float) : x ^ 3 = 1 * x * (x * x) := by
  change powerFrom 1 x 3 = 1 * x * (x * x)
  simp [powerFrom]

theorem float_pow_four (x : Float) : x ^ 4 = 1 * (x * x * (x * x)) := by
  change powerFrom 1 x 4 = 1 * (x * x * (x * x))
  simp [powerFrom]

/-- A weight of the cosine norm is an exact double. -/
theorem real_cosineWeight (hn : n ≠ 0) (h : (PhaseNorm.cosineWeight x n).isFinite = true) :
    (x ^ n).isFinite = true ∧ real (PhaseNorm.cosineWeight x n) = 2 * real (x ^ n) := by
  have hdef : PhaseNorm.cosineWeight x n = ((2 : ℕ) : Float) * x ^ n := if_neg hn
  rw [hdef] at h ⊢
  have hfin := (isFinite_of_mul h).2
  have htwo : real ((2 : ℕ) : Float) = 2 := by
    exact_mod_cast (natCast_spec (n := 2) (by norm_num)).2
  rw [real_mul h, htwo, rounded_eq (representable_real hfin).two_mul]
  exact ⟨hfin, rfl⟩

end CertifiedZeros.Binary64
