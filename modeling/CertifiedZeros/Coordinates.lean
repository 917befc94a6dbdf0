/-! # Coordinates of vectors

The coordinates of a `Vector α n` are read at positions `i : Fin n` by `Vector.get`. This file
says what the operations on vectors do to coordinates, and a loop over them; two vectors with the
same coordinates are equal. -/

namespace CertifiedZeros

variable {n : Nat} {α β : Type}

theorem get_eq_getElem (x : Vector α n) (i : Fin n) : x.get i = x[i.val] := rfl

@[simp] theorem get_ofFn (f : Fin n → α) (i : Fin n) : (Vector.ofFn f).get i = f i := by
  simp [get_eq_getElem]

@[simp] theorem get_map (f : α → β) (x : Vector α n) (i : Fin n) :
    (x.map f).get i = f (x.get i) := by
  simp [get_eq_getElem]

@[simp] theorem get_replicate (a : α) (i : Fin n) : (Vector.replicate n a).get i = a := by
  simp [get_eq_getElem]

theorem get_set (x : Vector α n) (i j : Fin n) (a : α) :
    (x.set i a i.isLt).get j = if i = j then a else x.get j := by
  simp [get_eq_getElem, Vector.getElem_set, Fin.ext_iff]

/-- The position whose entry stands at `i` once those at `p` and `q` are exchanged. -/
def exchanged (p q i : Fin n) : Fin n :=
  if i = p then q else if i = q then p else i

theorem get_swap (x : Vector α n) (p q i : Fin n) :
    (x.swap p q p.isLt q.isLt).get i = x.get (exchanged p q i) := by
  unfold exchanged
  simp only [get_eq_getElem, Vector.getElem_swap, Fin.ext_iff]
  split
  · rfl
  · split <;> rfl

/-- An exchange of a position with itself moves nothing. -/
@[simp] theorem exchanged_self (p i : Fin n) : exchanged p p i = i := by
  unfold exchanged
  split
  · next h => exact h.symm
  · rfl

/-- **One coordinate through a loop**: if every round makes the new coordinate from the old one, so
does the loop. -/
theorem get_foldl {rounds : Nat} {f : Vector α n → Fin rounds → Vector α n}
    {g : α → Fin rounds → α} {p : Fin n} (round : ∀ x i, (f x i).get p = g (x.get p) i)
    (x : Vector α n) : (Fin.foldl rounds f x).get p = Fin.foldl rounds g (x.get p) := by
  induction rounds generalizing x with
  | zero => rw [Fin.foldl_zero, Fin.foldl_zero]
  | succ rounds ih =>
    rw [Fin.foldl_succ, Fin.foldl_succ, ih (g := fun a i => g a i.succ) fun x i => round x i.succ,
      round]

/-- Vectors with the same coordinates are equal. -/
theorem ext_get {x y : Vector α n} (h : ∀ i, x.get i = y.get i) : x = y := by
  apply Vector.ext
  intro i hi
  exact h ⟨i, hi⟩

end CertifiedZeros
