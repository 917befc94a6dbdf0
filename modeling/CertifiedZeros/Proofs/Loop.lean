import Mathlib.Tactic.Common

/-! # Invariants of loops

A loop over `0, 1, …, n - 1` carries its state from one index to the next. What every round keeps,
with the number of rounds that are done, holds at the end.

* **`foldl_invariant`**, **`foldr_invariant`** — loops that run through, up and down.
* **`foldl_iff`** — a condition on the state to which every round adds one of its own.
* **`foldlM_invariant`** — a loop that may stop early with an error; `Q` is what holds then.
* **`foldlM_eq_ok_iff`** — a loop that does not stop, by the states it goes through.
* **`run_bind_eq_ok_iff`**, **`run_foldlM`** — runs with a state beside their results.
* **`foldl_related`**, **`foldr_related`**, **`foldlM_related`** — two loops side by side. -/

namespace CertifiedZeros

variable {σ ε : Type} {n : ℕ} {P : ℕ → σ → Prop} {Q : ε → Prop}

/-- **The invariant of a loop upwards**, indexed by the number of rounds that are done. -/
theorem foldl_invariant {f : σ → Fin n → σ} {s : σ} (start : P 0 s)
    (round : ∀ (i : Fin n) s, P i s → P (i + 1) (f s i)) : P n (Fin.foldl n f s) := by
  induction n with
  | zero => rwa [Fin.foldl_zero]
  | succ n ih =>
    rw [Fin.foldl_succ_last]
    exact round (Fin.last n) _ (ih fun i => round i.castSucc)

/-- **The invariant of a loop downwards**, indexed by the number of rounds that are left. -/
theorem foldr_invariant {f : Fin n → σ → σ} {s : σ} (start : P n s)
    (round : ∀ (i : Fin n) s, P (i + 1) s → P i (f i s)) : P 0 (Fin.foldr n f s) := by
  induction n generalizing s with
  | zero => rwa [Fin.foldr_zero]
  | succ n ih =>
    rw [Fin.foldr_succ_last]
    exact ih (round (Fin.last n) s start) fun i => round i.castSucc

/-- **What every round narrows**: the condition holds at the end if it holds at the start and survives
every round. -/
theorem foldl_iff {f : σ → Fin n → σ} {R : σ → Prop} {C : Fin n → Prop}
    (round : ∀ s i, R (f s i) ↔ R s ∧ C i) (s : σ) : R (Fin.foldl n f s) ↔ R s ∧ ∀ i, C i := by
  induction n with
  | zero =>
    rw [Fin.foldl_zero]
    exact (and_iff_left fun i => i.elim0).symm
  | succ n ih =>
    rw [Fin.foldl_succ_last, round, ih fun s i => round s i.castSucc, and_assoc]
    refine and_congr_right fun _ => ⟨fun ⟨hinit, hlast⟩ i => ?_, fun h =>
      ⟨fun i => h i.castSucc, h (Fin.last n)⟩⟩
    induction i using Fin.lastCases with
    | last => exact hlast
    | cast i => exact hinit i

/-- **The invariant of a loop that may stop.** -/
theorem foldlM_invariant {f : σ → Fin n → Except ε σ} {s : σ} (start : P 0 s)
    (round : ∀ (i : Fin n) s, P i s →
      (∀ t, f s i = .ok t → P (i + 1) t) ∧ ∀ e, f s i = .error e → Q e) :
    (∀ t, Fin.foldlM n f s = .ok t → P n t) ∧ ∀ e, Fin.foldlM n f s = .error e → Q e := by
  induction n with
  | zero =>
    refine ⟨fun t h => ?_, fun e h => ?_⟩
    · rw [Fin.foldlM_zero] at h
      exact Except.ok.inj h ▸ start
    · rw [Fin.foldlM_zero] at h
      exact nomatch h
  | succ n ih =>
    obtain ⟨hok, herror⟩ := ih fun i => round i.castSucc
    have hsplit : Fin.foldlM (n + 1) f s
        = Fin.foldlM n (fun s (i : Fin n) => f s i.castSucc) s >>= (f · (Fin.last n)) :=
      congrFun (Fin.foldlM_succ_last f) s
    rw [hsplit]
    cases hinit : Fin.foldlM n (fun s (i : Fin n) => f s i.castSucc) s with
    | ok t => exact round (Fin.last n) t (hok t hinit)
    | error e =>
      refine ⟨fun t h => (nomatch h), fun e' h => ?_⟩
      cases h
      exact herror e hinit

/-- **A loop that does not stop**, by the states between its rounds. -/
theorem foldlM_eq_ok_iff {f : σ → Fin n → Except ε σ} {s t : σ} :
    Fin.foldlM n f s = .ok t ↔ ∃ states : ℕ → σ, states 0 = s ∧ states n = t ∧
      ∀ i : Fin n, f (states i) i = .ok (states (i + 1)) := by
  induction n generalizing t with
  | zero =>
    rw [Fin.foldlM_zero]
    constructor
    · rintro ⟨⟩
      exact ⟨fun _ => s, rfl, rfl, fun i => i.elim0⟩
    · rintro ⟨states, rfl, rfl, -⟩
      rfl
  | succ n ih =>
    have hsplit : Fin.foldlM (n + 1) f s
        = Fin.foldlM n (fun s (i : Fin n) => f s i.castSucc) s >>= (f · (Fin.last n)) :=
      congrFun (Fin.foldlM_succ_last f) s
    rw [hsplit]
    constructor
    · intro h
      cases hinit : Fin.foldlM n (fun s (i : Fin n) => f s i.castSucc) s with
      | error e =>
        rw [hinit] at h
        cases h
      | ok u =>
        rw [hinit] at h
        obtain ⟨states, hstart, hend, hround⟩ := ih.mp hinit
        let longer : ℕ → σ := fun k => if k ≤ n then states k else t
        have hinner : ∀ k ≤ n, longer k = states k := fun k hk => if_pos hk
        have hlast : longer (n + 1) = t := if_neg (Nat.not_succ_le_self n)
        refine ⟨longer, (hinner 0 n.zero_le).trans hstart, hlast, fun i => ?_⟩
        induction i using Fin.lastCases with
        | last => rwa [Fin.val_last, hinner n (Nat.le_refl n), hend, hlast]
        | cast i =>
          rw [Fin.val_castSucc, hinner i (by omega), hinner (i + 1) (by omega)]
          exact hround i
    · rintro ⟨states, hstart, rfl, hround⟩
      rw [ih.mpr ⟨states, hstart, rfl, fun i => hround i.castSucc⟩]
      exact hround (Fin.last n)

/-- **Two runs in a row** that do not stop, by the state between them. -/
theorem run_bind_eq_ok_iff {α β : Type} {x : StateT σ (Except ε) α} {f : α → StateT σ (Except ε) β}
    {s : σ} {r : β × σ} :
    (x >>= f).run s = .ok r ↔ ∃ a t, x.run s = .ok (a, t) ∧ (f a).run t = .ok r := by
  rw [StateT.run_bind]
  constructor
  · intro h
    cases hx : x.run s with
    | error e =>
      rw [hx] at h
      cases h
    | ok p =>
      rw [hx] at h
      exact ⟨p.1, p.2, rfl, h⟩
  · rintro ⟨a, t, hx, hf⟩
    rw [hx]
    exact hf

/-- A run that does not need the state leaves it alone. -/
theorem run_lift_eq_ok_iff {α : Type} {x : Except ε α} {s : σ} {r : α × σ} :
    (liftM x : StateT σ (Except ε) α).run s = .ok r ↔ x = .ok r.1 ∧ s = r.2 := by
  cases x with
  | error e => exact ⟨fun h => (nomatch h), fun h => nomatch h.1⟩
  | ok a =>
    obtain ⟨b, t⟩ := r
    change Except.ok (a, s) = .ok (b, t) ↔ _
    rw [Except.ok.injEq, Prod.mk.injEq, Except.ok.injEq]

/-- **A loop with a state beside its results**, as a loop over both. -/
theorem run_foldlM {α : Type} {f : α → Fin n → StateT σ (Except ε) α} {a : α} {s : σ} :
    (Fin.foldlM n f a).run s = Fin.foldlM n (fun p i => (f p.1 i).run p.2) (a, s) := by
  induction n with
  | zero =>
    rw [Fin.foldlM_zero, Fin.foldlM_zero]
    rfl
  | succ n ih =>
    have hsplit := congrFun (Fin.foldlM_succ_last f) a
    have hsplit' := congrFun (Fin.foldlM_succ_last fun (p : α × σ) i => (f p.1 i).run p.2) (a, s)
    rw [hsplit, hsplit', StateT.run_bind, ih]

/-- A result that answers with a value is there. -/
theorem exists_ok_of_map {β : Type} {x : Except ε σ} {f : σ → β} {b : β}
    (h : x.toOption.map f = some b) : ∃ s, x = .ok s ∧ f s = b := by
  cases x with
  | error e => cases h
  | ok s => exact ⟨s, rfl, Option.some.inj h⟩

/-! ## Two loops side by side -/

section Related

variable {τ : Type} {R : ℕ → σ → τ → Prop}

/-- **Two loops upwards** whose states are related after every round. -/
theorem foldl_related {f : σ → Fin n → σ} {g : τ → Fin n → τ} {s : σ} {t : τ} (start : R 0 s t)
    (round : ∀ (i : Fin n) s t, R i s t → R (i + 1) (f s i) (g t i)) :
    R n (Fin.foldl n f s) (Fin.foldl n g t) := by
  induction n with
  | zero => rwa [Fin.foldl_zero, Fin.foldl_zero]
  | succ n ih =>
    rw [Fin.foldl_succ_last, Fin.foldl_succ_last]
    exact round (Fin.last n) _ _ (ih fun i => round i.castSucc)

/-- **Two loops downwards.** -/
theorem foldr_related {f : Fin n → σ → σ} {g : Fin n → τ → τ} {s : σ} {t : τ} (start : R n s t)
    (round : ∀ (i : Fin n) s t, R (i + 1) s t → R i (f i s) (g i t)) :
    R 0 (Fin.foldr n f s) (Fin.foldr n g t) := by
  induction n generalizing s t with
  | zero => rwa [Fin.foldr_zero, Fin.foldr_zero]
  | succ n ih =>
    rw [Fin.foldr_succ_last, Fin.foldr_succ_last]
    exact ih (round (Fin.last n) s t start) fun i => round i.castSucc

/-- **Two outcomes of the same kind**: related results, or related errors. -/
def SameOutcome {α β δ : Type} (R : α → β → Prop) (E : ε → δ → Prop) :
    Except ε α → Except δ β → Prop
  | .ok a, .ok b => R a b
  | .error e, .error d => E e d
  | _, _ => False

/-- Outcomes of the same kind are both results or both errors. -/
theorem SameOutcome.cases {α β δ : Type} {R : α → β → Prop} {E : ε → δ → Prop} {x : Except ε α}
    {y : Except δ β} (h : SameOutcome R E x y) :
    (∃ a b, x = .ok a ∧ y = .ok b ∧ R a b) ∨ ∃ e d, x = .error e ∧ y = .error d ∧ E e d := by
  cases x with
  | error e =>
    cases y with
    | error d => exact .inr ⟨e, d, rfl, rfl, h⟩
    | ok b => exact h.elim
  | ok a =>
    cases y with
    | error d => exact h.elim
    | ok b => exact .inl ⟨a, b, rfl, rfl, h⟩

/-- **What follows on an outcome** goes on side by side. -/
theorem SameOutcome.bind {α β α' β' δ : Type} {R : α → β → Prop} {R' : α' → β' → Prop}
    {E : ε → δ → Prop} {x : Except ε α} {y : Except δ β} (h : SameOutcome R E x y)
    {f : α → Except ε α'} {g : β → Except δ β'}
    (next : ∀ a b, R a b → SameOutcome R' E (f a) (g b)) : SameOutcome R' E (x >>= f) (y >>= g) := by
  obtain ⟨a, b, rfl, rfl, hab⟩ | ⟨e, d, rfl, rfl, hed⟩ := h.cases
  · exact next a b hab
  · exact hed

/-- **Two loops that stop together**, if they do. -/
theorem foldlM_related {δ : Type} {E : ε → δ → Prop} {f : σ → Fin n → Except ε σ}
    {g : τ → Fin n → Except δ τ} {s : σ} {t : τ} (start : R 0 s t)
    (round : ∀ (i : Fin n) s t, R i s t → SameOutcome (R (i + 1)) E (f s i) (g t i)) :
    SameOutcome (R n) E (Fin.foldlM n f s) (Fin.foldlM n g t) := by
  induction n with
  | zero =>
    rw [Fin.foldlM_zero, Fin.foldlM_zero]
    exact start
  | succ n ih =>
    have hinit := ih fun i => round i.castSucc
    have hsplit := congrFun (Fin.foldlM_succ_last f) s
    have hsplit' := congrFun (Fin.foldlM_succ_last g) t
    rw [hsplit, hsplit']
    exact hinit.bind fun s t hst => round (Fin.last n) s t hst

end Related

end CertifiedZeros
