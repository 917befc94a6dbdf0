import CertifiedZeros.Fault

/-! # Sizes that can be counted and stored

Sizes are plain natural numbers here, but only some of them belong to an object that can exist.

* **`countLimit`** — counts are words of 64 bits.
* **`storageLimit`** — a block of numbers takes at most half of the addresses, so that the distance
  of any two of them is a signed word.
* **`requireRoom n`** — nothing happens when `n` numbers can be stored.
* **`Fault.ofSize n cause`** — what is wrong with an object of size `n`: the size itself, when it is
  no count, and `cause` otherwise. -/

namespace CertifiedZeros

/-- **Counts stay below this**, the number of words of 64 bits. -/
def countLimit : Nat := 0x10000000000000000

/-- **A block of storage holds fewer numbers than this.** An interval takes sixteen bytes, and the
bytes of a block are counted by positive words with a sign. -/
def storageLimit : Nat := 0x800000000000000

/-- **Room for a block of numbers**: nothing happens when it can be stored. -/
def requireRoom (count : Nat) : Except Fault Unit :=
  if count < storageLimit then .ok () else .error .tooLarge

/-- **What is wrong with an object of a given size.** The size is looked at before the cause. -/
def Fault.ofSize (size : Nat) (cause : Fault) : Fault :=
  if size < countLimit then cause else .tooLarge

theorem requireRoom_eq_ok_iff {count : Nat} {u : Unit} :
    requireRoom count = .ok u ↔ count < storageLimit := by
  rw [requireRoom]
  split
  · next h => exact iff_of_true rfl h
  · next h => exact iff_of_false (fun h' => nomatch h') h

theorem requireRoom_of_lt {count : Nat} (h : count < storageLimit) :
    requireRoom count = .ok () :=
  requireRoom_eq_ok_iff.mpr h

theorem Fault.ofSize_of_lt {size : Nat} (cause : Fault) (h : size < countLimit) :
    Fault.ofSize size cause = cause :=
  if_pos h

end CertifiedZeros
