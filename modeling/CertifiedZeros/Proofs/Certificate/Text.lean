import CertifiedZeros.Certificate.Text
import CertifiedZeros.Proofs.Decimal.Notation

/-! # A report can be read back from its text

The text of a report leaves nothing out. Its lines are what lies between the line breaks, since no
line contains one; a line is recognised by its first characters, and the numbers on it end where the
characters of written numbers do.

* **`scientific_append_inj`** — a number and what follows it.
* **`Interval.text_inj`**, **`Report.boundsLine_inj`**, **`Report.rootsLine_inj`** — the numbers of a
  line.
* **`Report.verdict_of_headline`** — the verdict, with the obstacle.
* **`Report.optionalLine_append_inj`** — whether a line is there, and what it says.
* **`Report.text_injective`** — reports of one text are equal. -/

namespace CertifiedZeros

open Binary64

/-- **A number is read up to the first character that is not part of a number.** -/
theorem scientific_append_inj {x x' : Float} {separator rest rest' : String} {c : Char}
    {l : List Char} (hseparator : separator.toList = c :: l) (hc : isNumeral c = false)
    (h : scientific x ++ (separator ++ rest) = scientific x' ++ (separator ++ rest')) :
    x = x' ∧ rest = rest' := by
  rw [← String.toList_inj] at h
  simp only [String.toList_append, hseparator, List.cons_append] at h
  obtain ⟨htext, hrest⟩ := split_at (notMem_scientific hc) (notMem_scientific hc) h
  exact ⟨scientific_injective (String.toList_inj.mp htext),
    String.toList_inj.mp (List.append_cancel_left hrest)⟩

/-- **An interval is read from its text.** -/
theorem Interval.text_inj {X Y : Interval} (h : X.text = Y.text) : X = Y := by
  simp only [Interval.text, String.append_assoc, String.append_right_inj] at h
  obtain ⟨hlo, hrest⟩ := scientific_append_inj (c := ',') rfl (by decide) h
  have hhi := scientific_injective ((String.append_left_inj _).mp hrest)
  cases X with | mk lo hi => cases Y with | mk lo' hi' =>
  obtain rfl : lo = lo' := hlo
  obtain rfl : hi = hi' := hhi
  rfl

namespace Report

/-! ## Lines -/

theorem boundsLine_inj {b b' : Bounds Float} (h : boundsLine b = boundsLine b') : b = b' := by
  simp only [boundsLine, String.append_assoc, String.append_right_inj] at h
  obtain ⟨hy, hrest⟩ := scientific_append_inj (c := ',') rfl (by decide) h
  obtain ⟨hz, hrest⟩ := scientific_append_inj (c := ',') rfl (by decide) hrest
  cases b with | mk y0 z0 z2 => cases b' with | mk y0' z0' z2' =>
  obtain rfl : y0 = y0' := hy
  obtain rfl : z0 = z0' := hz
  obtain rfl : z2 = z2' := scientific_injective hrest
  rfl

theorem rootsLine_inj : Function.Injective rootsLine := by
  intro p q h
  simp only [rootsLine, String.append_assoc, String.append_right_inj] at h
  obtain ⟨hsmall, hrest⟩ := scientific_append_inj (c := ',') rfl (by decide) h
  exact Prod.ext hsmall (scientific_injective hrest)

theorem radiiLine_inj : Function.Injective radiiLine := fun _ _ h =>
  Interval.text_inj ((String.append_right_inj _).mp h)

theorem valueLine_inj : Function.Injective valueLine := fun _ _ h =>
  Interval.text_inj ((String.append_right_inj _).mp h)

theorem obstacle_text_inj {o o' : Obstacle} (h : o.text = o'.text) : o = o' := by
  cases o <;> cases o' <;> first | rfl | exact absurd h (by decide)

/-- The first letter says whether a zero was certified. -/
theorem headline_of_certified {r : Report} (h : r.verdict = .certified) :
    ∃ l, r.headline.toList = 'c' :: l := by
  unfold headline
  rw [h]
  cases r.testedAt with
  | none => exact ⟨_, rfl⟩
  | some radii =>
    simp only [String.append_assoc]
    split_ifs <;> rw [String.toList_append] <;> exact ⟨_, rfl⟩

theorem headline_of_notCertified {r : Report} {o : Obstacle} (h : r.verdict = .notCertified o) :
    r.headline = "not certified: " ++ o.text := by
  unfold headline
  rw [h]

/-- **The verdict is read from the headline.** -/
theorem verdict_of_headline {r r' : Report} (h : r.headline = r'.headline) :
    r.verdict = r'.verdict := by
  have hother : ∀ {r r' : Report} {o : Obstacle}, r.verdict = .certified →
      r'.verdict = .notCertified o → r.headline ≠ r'.headline := by
    intro r r' o hr hr' heq
    obtain ⟨l, hl⟩ := headline_of_certified hr
    rw [heq, headline_of_notCertified hr', String.toList_append] at hl
    exact absurd (List.head_eq_of_cons_eq hl) (by decide)
  cases hr : r.verdict with
  | certified =>
    cases hr' : r'.verdict with
    | certified => rfl
    | notCertified o' => exact absurd h (hother hr hr')
  | notCertified o =>
    cases hr' : r'.verdict with
    | certified => exact absurd h.symm (hother hr' hr)
    | notCertified o' =>
      rw [headline_of_notCertified hr, headline_of_notCertified hr', String.append_right_inj] at h
      rw [obstacle_text_inj h]

/-! ## Lines that may be missing -/

/-- **An optional line is recognised**, when none of the lines after it could be it. -/
theorem optionalLine_append_inj {α : Type} {write : α → String} (hwrite : Function.Injective write)
    {o o' : Option α} {rest rest' : List String} (hrest : ∀ a, write a ∉ rest)
    (hrest' : ∀ a, write a ∉ rest')
    (h : optionalLine write o ++ rest = optionalLine write o' ++ rest') : o = o' ∧ rest = rest' := by
  cases o with
  | none =>
    cases o' with
    | none => exact ⟨rfl, h⟩
    | some a' =>
      obtain rfl : rest = write a' :: rest' := h
      exact absurd List.mem_cons_self (hrest a')
  | some a =>
    cases o' with
    | none =>
      obtain rfl : write a :: rest = rest' := h
      exact absurd List.mem_cons_self (hrest' a)
    | some a' =>
      obtain ⟨hline, htail⟩ := List.cons_eq_cons.mp h
      exact ⟨congrArg some (hwrite hline), htail⟩

theorem mem_optionalLine {α : Type} {write : α → String} {o : Option α} {line : String}
    (h : line ∈ optionalLine write o) : ∃ a, line = write a := by
  cases o with
  | none => exact absurd h List.not_mem_nil
  | some a => exact ⟨a, List.mem_singleton.mp h⟩

/-- The characters by which a line is recognised. -/
def lineStart (line : String) : List Char := line.toList.take 4

@[simp] theorem lineStart_rootsLine (roots : Float × Float) :
    lineStart (rootsLine roots) = [' ', ' ', 'r', 'o'] := by
  simp [lineStart, rootsLine]

@[simp] theorem lineStart_radiiLine (radii : Interval) :
    lineStart (radiiLine radii) = [' ', ' ', 'r', '0'] := by
  simp [lineStart, radiiLine]

@[simp] theorem lineStart_valueLine (value : Interval) :
    lineStart (valueLine value) = [' ', ' ', 'p', '('] := by
  simp [lineStart, valueLine]

/-- A line that begins in another way is not the optional one. -/
theorem notMem_optionalLine {α : Type} {write : α → String} {line : String}
    (hstart : ∀ a, lineStart line ≠ lineStart (write a)) (o : Option α) :
    line ∉ optionalLine write o := by
  intro h
  obtain ⟨a, rfl⟩ := mem_optionalLine h
  exact hstart a rfl

theorem radiiLine_notMem (radii : Interval) (value : Option Interval) :
    radiiLine radii ∉ optionalLine valueLine value :=
  notMem_optionalLine (by simp) value

theorem rootsLine_notMem (roots : Float × Float) (radii value : Option Interval) :
    rootsLine roots ∉ optionalLine radiiLine radii ++ optionalLine valueLine value := by
  rw [List.mem_append, not_or]
  exact ⟨notMem_optionalLine (by simp) radii, notMem_optionalLine (by simp) value⟩

/-- **A report is read from its lines.** -/
theorem lines_injective : Function.Injective lines := by
  intro r r' h
  simp only [lines, List.append_assoc, List.cons_append, List.nil_append, List.cons.injEq] at h
  obtain ⟨hheadline, hbounds, hoptional⟩ := h
  obtain ⟨hroots, hoptional⟩ := optionalLine_append_inj rootsLine_inj
    (fun _ => rootsLine_notMem _ _ _) (fun _ => rootsLine_notMem _ _ _) hoptional
  obtain ⟨hradii, hoptional⟩ := optionalLine_append_inj radiiLine_inj
    (fun _ => radiiLine_notMem _ _) (fun _ => radiiLine_notMem _ _) hoptional
  -- the last line is an optional line that nothing follows
  rw [← List.append_nil (optionalLine _ r.value), ← List.append_nil (optionalLine _ r'.value)]
    at hoptional
  obtain ⟨hvalue, -⟩ := optionalLine_append_inj valueLine_inj
    (fun _ => List.not_mem_nil) (fun _ => List.not_mem_nil) hoptional
  have hverdict := verdict_of_headline hheadline
  have hbounds' := boundsLine_inj hbounds
  cases r with | mk verdict bounds roots testedAt value =>
  cases r' with | mk verdict' bounds' roots' testedAt' value' =>
  simp only at hverdict hbounds' hroots hradii hvalue
  rw [hverdict, hbounds', hroots, hradii, hvalue]

/-! ## Line breaks -/

theorem newline_notMem_scientific (x : Float) : '\n' ∉ (scientific x).toList :=
  notMem_scientific (by decide)

theorem newline_notMem_text (X : Interval) : '\n' ∉ X.text.toList := by
  simp [Interval.text, newline_notMem_scientific]

theorem newline_notMem_headline (r : Report) : '\n' ∉ r.headline.toList := by
  unfold headline
  cases r.verdict with
  | certified =>
    cases r.testedAt with
    | none => simp
    | some radii =>
      dsimp only
      split_ifs <;> simp [newline_notMem_scientific]
  | notCertified obstacle => cases obstacle <;> simp [Obstacle.text]

/-- **No line contains a line break.** -/
theorem newline_notMem_of_mem {r : Report} {line : String} (h : line ∈ r.lines) :
    '\n' ∉ line.toList := by
  simp only [lines, List.mem_append, List.mem_cons, List.not_mem_nil, or_false] at h
  rcases h with (((rfl | rfl) | hroots) | hradii) | hvalue
  · exact newline_notMem_headline r
  · simp [boundsLine, newline_notMem_scientific]
  · obtain ⟨roots, rfl⟩ := mem_optionalLine hroots
    simp [rootsLine, newline_notMem_scientific]
  · obtain ⟨radii, rfl⟩ := mem_optionalLine hradii
    simp [radiiLine, newline_notMem_text]
  · obtain ⟨value, rfl⟩ := mem_optionalLine hvalue
    simp [valueLine, newline_notMem_text]

/-- **Reports of one text are equal**: the verdict with its obstacle, the bounds, and all that may
be there or not, the roots, the radii and the value of the polynomial, with the signs of their zeros. -/
theorem text_injective : Function.Injective text := by
  intro r r' h
  apply lines_injective
  have hsplit : ∀ r : Report, r.text.toList.splitOn '\n' = r.lines.map String.toList := by
    intro r
    rw [text, String.toList_intercalate]
    refine List.splitOn_intercalate '\n' (fun l hl => ?_) (by simp [lines])
    obtain ⟨line, hline, rfl⟩ := List.mem_map.mp hl
    exact newline_notMem_of_mem hline
  have hlines := hsplit r
  rw [h, hsplit r'] at hlines
  exact (List.map_injective_iff.mpr fun s t => String.toList_inj.mp) hlines.symm

end Report

end CertifiedZeros
