import CertifiedZeros.PhaseNorm
import CertifiedZeros.Proofs.Aggregate
import CertifiedZeros.Proofs.Binary64.Reflection
import CertifiedZeros.Proofs.Interval.Monotone

/-! # The entrywise norm and the largest column sum, both rounded

In exact arithmetic the sum of all entries of a matrix bounds the sum over any column. The two
computed sums round different partial sums, so this does not carry over by itself. What does is that
every rounded addition is monotone and that a term that is not negative takes nothing away: the
entrywise sum meets the terms of a column in the same order, with others before, between and after
them.

* **`Growing below term`** — terms with these two properties, for a comparison `below` of sums.
* **`foldl_sublist`** — a sum over part of a list, from left to right, stays below the whole.
* **`ofGrid_sum_below`** — so the largest column sum stays below the entrywise sum.
* **`growing_float`**, **`growing_upper`** — floats have the properties, and so have the upper ends
  of intervals, beyond the range of finite floats, too. -/

namespace CertifiedZeros

variable {α β : Type}

/-! ## Sums over part of a list -/

/-- **Sums that grow**: adding one of the terms is monotone for the comparison `below`, and leads to
nothing smaller. A maximum stays below what both operands stay below. -/
structure Growing [Zero α] [Add α] [Magnitude α] (below : α → α → Prop) (term : α → Prop) :
    Prop where
  zero : below 0 0
  add : ∀ {a b x}, below a b → term x → below (a + x) (b + x)
  grow : ∀ {a b x}, below a b → term x → below a (b + x)
  larger : ∀ {a b c}, below a c → below b c → below (Magnitude.larger a b) c

/-- An ordered sum over the coordinates of a vector runs along its list. -/
theorem leftSum_get [Zero α] [Add α] {n : ℕ} (f : β → α) (x : Vector β n) :
    (leftSum fun i => f (x.get i)) = x.toList.foldl (fun acc a => acc + f a) 0 := by
  have hlist : x.toList = (List.finRange n).map x.get := by
    refine List.ext_getElem (by simp) fun i h _ => ?_
    simp [get_eq_getElem]
  rw [hlist, List.foldl_map]
  exact Fin.foldl_eq_foldl_finRange ..

/-- A column is part of the storage of its grid, in order. -/
theorem Grid.column_sublist {m n : ℕ} (g : Grid m n α) (j : Fin n) :
    (g.column j).toList.Sublist g.data.toList := by
  rw [Grid.column, Vector.toList_cast, Vector.toList_extract]
  exact (List.take_sublist _ _).trans (List.drop_sublist _ _)

namespace Growing

variable [Zero α] [Add α] [Magnitude α] {below : α → α → Prop} {term : α → Prop}

/-- **A sum over part of a list stays below the sum over the list**, step by step along the larger
one: a term is added on both sides, or on the larger side alone. -/
theorem foldl_sublist (h : Growing below term) {f : β → α} {part whole : List β}
    (hsub : part.Sublist whole) (hterm : ∀ x ∈ whole, term (f x)) {a b : α} (hab : below a b) :
    below (part.foldl (fun acc x => acc + f x) a) (whole.foldl (fun acc x => acc + f x) b) := by
  induction hsub generalizing a b with
  | slnil => exact hab
  | cons x _ ih =>
    rw [List.forall_mem_cons] at hterm
    exact ih hterm.2 (h.grow hab hterm.1)
  | cons_cons x _ ih =>
    rw [List.forall_mem_cons] at hterm
    exact ih hterm.2 (h.add hab hterm.1)

/-- **The largest column sum stays below the entrywise sum**, for any arithmetic whose sums grow. -/
theorem ofGrid_sum_below [One α] [NatCast α] [Mul α] [Div α] [Pow α ℕ] (h : Growing below term)
    {m n : ℕ} (g : Grid m n α) (hterm : ∀ x ∈ g.data.toList, term (Magnitude.abs x)) :
    below (PhaseNorm.sum.ofGrid g) (PhaseNorm.entrywise.ofGrid g) := by
  have hpart {part : List α} (hsub : part.Sublist g.data.toList) :
      below (part.foldl (fun acc x => acc + Magnitude.abs x) 0)
        (leftSum fun p => Magnitude.abs (g.data.get p)) := by
    rw [leftSum_get]
    exact h.foldl_sublist hsub hterm h.zero
  refine leftMax_induction (P := fun a => below a _) (hpart (List.nil_sublist _)) h.larger
    fun j => ?_
  have hcolumn : (leftSum fun i => Magnitude.abs (g.get i j))
      = (g.column j).toList.foldl (fun acc x => acc + Magnitude.abs x) 0 := by
    rw [← leftSum_get]
    simp only [Grid.get_column]
  rw [hcolumn]
  exact hpart (g.column_sublist j)

end Growing

open Binary64

/-! ## Rounded sums grow -/

/-- **Sums of floats that are not negative** grow. The infinity is one of them. -/
theorem growing_float : Growing (α := Float) (fun a b => 0 ≤ a ∧ a ≤ b) (fun x => 0 ≤ x) where
  zero := ⟨by decide +kernel, by decide +kernel⟩
  add := by
    rintro a b x ⟨ha, hab⟩ hx
    obtain ⟨hxnum, hx0⟩ := nonneg_spec hx
    obtain ⟨hanum, ha0⟩ := nonneg_spec ha
    obtain ⟨-, hbnum, hle⟩ := le_iff.mp hab
    obtain ⟨hsum, hgrow⟩ := add_nonneg_spec hanum hxnum ha0 hx0
    have hsum' := (add_nonneg_spec hbnum hxnum (ha0.trans hle) hx0).1
    exact ⟨nonneg_of_value hsum (ha0.trans hgrow),
      le_iff.mpr ⟨hsum, hsum', value_add_le hsum hsum' hle le_rfl⟩⟩
  grow := by
    rintro a b x ⟨ha, hab⟩ hx
    obtain ⟨hxnum, hx0⟩ := nonneg_spec hx
    obtain ⟨hbnum, hb0⟩ := nonneg_spec (float_le_trans ha hab)
    obtain ⟨hsum, hgrow⟩ := add_nonneg_spec hbnum hxnum hb0 hx0
    exact ⟨ha, float_le_trans hab (le_iff.mpr ⟨hbnum, hsum, hgrow⟩)⟩
  larger := by
    intro a b c ha hb
    change 0 ≤ larger a b ∧ larger a b ≤ c
    rcases larger_eq_or a b with h | h <;> rw [h]
    · exact ha
    · exact hb

/-- The upper end of a sum of upper ends that are not negative, which is not below the exact sum. -/
theorem Interval.add_le_add_hi {X Y : Interval} (hX : 0 ≤ X.hi) (hY : 0 ≤ Y.hi) :
    IsNumber (X + Y).hi ∧ value X.hi + value Y.hi ≤ value (X + Y).hi := by
  obtain ⟨hXnum, hX0⟩ := nonneg_spec hX
  obtain ⟨hYnum, hY0⟩ := nonneg_spec hY
  rw [← EReal.coe_zero] at hX0 hY0
  obtain ⟨hnum, hspec⟩ := ofSum_hi_spec hXnum hYnum (ne_bot_of_coe_le hX0) (ne_bot_of_coe_le hY0)
  rw [add_hi]
  exact ⟨hnum, hspec.mpr (sumBelow_of_nonneg le_rfl hY0)⟩

/-- **The upper ends of interval sums** grow, where they are not negative. -/
theorem growing_upper :
    Growing (α := Interval) (fun A B => 0 ≤ A.hi ∧ A.hi ≤ B.hi) (fun X => 0 ≤ X.hi) where
  zero := ⟨by decide +kernel, by decide +kernel⟩
  add := by
    rintro A B X ⟨hA, hAB⟩ hX
    obtain ⟨hXnum, hX0⟩ := nonneg_spec hX
    obtain ⟨hAnum, hA0⟩ := nonneg_spec hA
    obtain ⟨hsum, hge⟩ := Interval.add_le_add_hi hA hX
    obtain ⟨hsum', hge'⟩ := Interval.add_le_add_hi (float_le_trans hA hAB) hX
    refine ⟨nonneg_of_value hsum ((add_nonneg hA0 hX0).trans hge), le_iff.mpr ⟨hsum, hsum', ?_⟩⟩
    -- no float lies between the smaller exact sum and the end of its interval
    rw [Interval.add_hi]
    refine Interval.ofSum_hi_le (add_nonneg_spec hAnum hXnum hA0 hX0).1 hsum' ?_
    exact (add_le_add_left (le_iff.mp hAB).2.2 _).trans hge'
  grow := by
    rintro A B X ⟨hA, hAB⟩ hX
    obtain ⟨hsum, hge⟩ := Interval.add_le_add_hi (float_le_trans hA hAB) hX
    obtain ⟨-, hBnum, -⟩ := le_iff.mp hAB
    refine ⟨hA, float_le_trans hAB (le_iff.mpr ⟨hBnum, hsum, ?_⟩)⟩
    exact (le_add_of_nonneg_right (nonneg_spec hX).2).trans hge
  larger := by
    intro A B C hA hB
    change 0 ≤ larger A.hi B.hi ∧ larger A.hi B.hi ≤ C.hi
    rcases larger_eq_or A.hi B.hi with h | h <;> rw [h]
    · exact hA
    · exact hB

/-! ## Both norms of a matrix -/

namespace DenseMatrix

/-- **The entrywise norm bounds the largest column sum of a finite matrix**, in floats and in the
upper ends of intervals, also where one of them or both overflow. -/
theorem sum_le_entrywise (a : DenseMatrix Float) (h : a.isFinite = true) :
    (∃ s t, PhaseNorm.sum.operator a = .ok s ∧ PhaseNorm.entrywise.operator a = .ok t ∧ s ≤ t) ∧
      ∃ S T, PhaseNorm.sum.operator a.lift = .ok S ∧ PhaseNorm.entrywise.operator a.lift = .ok T ∧
        S.hi ≤ T.hi := by
  have hfin : ∀ x ∈ a.grid.data.toList, x.isFinite = true := by
    rwa [isFinite, Grid.isFinite, ← Vector.all_toList, List.all_eq_true] at h
  refine ⟨⟨_, _, rfl, rfl, ?_⟩, ⟨_, _, rfl, rfl, ?_⟩⟩
  · refine (growing_float.ofGrid_sum_below a.grid fun x hx => ?_).2
    obtain ⟨habs, hreal⟩ := abs_finite (hfin x hx)
    have hvalue : value x.abs = (|real x| : ℝ) := by rw [← coe_real habs, hreal]
    exact nonneg_of_value (isNumber_of_isFinite habs) (hvalue ▸ EReal.coe_nonneg.mpr (abs_nonneg _))
  · refine (growing_upper.ofGrid_sum_below a.lift.grid fun X hX => ?_).2
    obtain ⟨x, hx, rfl⟩ : ∃ x ∈ a.grid.data.toList, Interval.point x = X := by
      simpa [lift, map, ofGrid, Grid.map] using hX
    obtain ⟨-, hnum, -, hle⟩ := Interval.mem_iff.mp (Interval.abs_mem (Interval.mem_point (hfin x hx)))
    exact nonneg_of_value hnum ((EReal.coe_nonneg.mpr (abs_nonneg _)).trans hle)

/-- Two columns with finite sums, whose entries together overflow. -/
theorem sum_le_entrywise_overflow :
    let g : Grid 2 2 Float := .ofColumns #v[#v[largest, 1], #v[largest, -1]]
    (ofGrid g).isFinite = true ∧ largest ≤ infinity ∧
      PhaseNorm.sum.operator (ofGrid g) = .ok largest ∧
      PhaseNorm.entrywise.operator (ofGrid g) = .ok infinity := by
  intro g
  have hfin : (ofGrid g).isFinite = true := by decide +kernel
  obtain ⟨⟨s, t, hs, ht, hle⟩, -⟩ := sum_le_entrywise (ofGrid g) hfin
  have hsum : PhaseNorm.sum.ofGrid g = largest := by decide +kernel
  have hentrywise : PhaseNorm.entrywise.ofGrid g = infinity := by decide +kernel
  obtain rfl : largest = s := hsum.symm.trans (Except.ok.inj hs)
  obtain rfl : infinity = t := hentrywise.symm.trans (Except.ok.inj ht)
  exact ⟨hfin, hle, hs, ht⟩

end DenseMatrix

end CertifiedZeros
