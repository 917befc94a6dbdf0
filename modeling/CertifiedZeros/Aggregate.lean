import CertifiedZeros.Magnitude

/-! # Sums and maxima in order

Rounding makes the order of a sum part of its meaning. All sums and maxima of the library run over
`0, 1, …, n - 1` from left to right and start from zero:

* **`leftSum f`** — `((0 + f 0) + f 1) + …`.
* **`leftMax f`** — the running `larger` of zero and `f 0`, `f 1`, ….

A loop in which a single round moves the state is that round: **`foldl_ite_eq`**. -/

namespace CertifiedZeros

variable {α : Type} [Zero α]

/-- **The sum** `((0 + f 0) + f 1) + …`. -/
@[inline] def leftSum [Add α] {n : Nat} (f : Fin n → α) : α :=
  Fin.foldl n (fun acc i => acc + f i) 0

/-- **The maximum** of zero and the values of `f`, taken from left to right. -/
@[inline] def leftMax [Magnitude α] {n : Nat} (f : Fin n → α) : α :=
  Fin.foldl n (fun acc i => Magnitude.larger acc (f i)) 0

@[simp] theorem leftSum_zero [Add α] (f : Fin 0 → α) : leftSum f = 0 :=
  Fin.foldl_zero ..

theorem leftSum_succ_last [Add α] {n : Nat} (f : Fin (n + 1) → α) :
    leftSum f = leftSum (fun i : Fin n => f i.castSucc) + f (Fin.last n) :=
  Fin.foldl_succ_last ..

@[simp] theorem leftMax_zero [Magnitude α] (f : Fin 0 → α) : leftMax f = 0 :=
  Fin.foldl_zero ..

theorem leftMax_succ_last [Magnitude α] {n : Nat} (f : Fin (n + 1) → α) :
    leftMax f = Magnitude.larger (leftMax fun i : Fin n => f i.castSucc) (f (Fin.last n)) :=
  Fin.foldl_succ_last ..

/-! ## Loops with idle rounds -/

section Idle

variable {σ : Type} {n : Nat}

/-- A loop whose rounds do nothing. -/
theorem foldl_fixed (s : σ) : Fin.foldl n (fun s _ => s) s = s := by
  induction n with
  | zero => exact Fin.foldl_zero ..
  | succ n ih => rw [Fin.foldl_succ_last, ih]

/-- **A loop in which one round counts**: the others leave the state alone. -/
theorem foldl_ite_eq (j : Fin n) (round : Fin n → σ → σ) (s : σ) :
    Fin.foldl n (fun s i => if i = j then round i s else s) s = round j s := by
  induction n generalizing s with
  | zero => exact j.elim0
  | succ n ih =>
    rw [Fin.foldl_succ]
    induction j using Fin.cases with
    | zero => simp only [Fin.succ_ne_zero, if_true, if_false, foldl_fixed]
    | succ j =>
      simp only [(Fin.succ_ne_zero j).symm, if_false, Fin.succ_inj, ih j fun i => round i.succ]

end Idle

end CertifiedZeros
