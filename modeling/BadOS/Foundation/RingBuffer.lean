import Mathlib.Tactic

/-! # Ring buffers

A ring of `size` slots holds the part of a history that has not been retired.
Indices count all entries ever made and are reduced modulo `size`; one slot is
kept free, so that equal indices mean an empty ring.
-/

namespace RingBuffer

variable {α : Type*} {size retired i j : ℕ} {slot : ℕ → α} {history : List α} {c : α}

/-- Within `size` of each other, indices are equal when their slots are. -/
theorem mod_eq_mod_iff (hle : i ≤ j) (hlt : j < i + size) : j % size = i % size ↔ j = i := by
  constructor
  · intro hmod
    have hzero := Nat.sub_mod_eq_zero_of_mod_eq hmod
    rw [Nat.mod_eq_of_lt (by omega)] at hzero
    omega
  · rintro rfl
    rfl

/-- The slots hold all entries of the history from `retired` on. -/
structure Holds (size : ℕ) (slot : ℕ → α) (history : List α) (retired : ℕ) : Prop where
  retired_le : retired ≤ history.length
  length_lt : history.length < retired + size
  slot_eq : ∀ i, retired ≤ i → i < history.length → history[i]? = some (slot (i % size))

theorem holds_nil (hsize : 0 < size) : Holds size slot [] 0 :=
  ⟨le_refl _, by simpa using hsize, fun i _ hi => absurd hi (Nat.not_lt_zero i)⟩

theorem Holds.full_iff (hholds : Holds size slot history retired) :
    (history.length + 1) % size = retired % size ↔ history.length + 1 = retired + size := by
  have hle := hholds.retired_le
  have hlt := hholds.length_lt
  constructor
  · intro hmod
    by_contra hne
    have := (mod_eq_mod_iff (show retired ≤ history.length + 1 by omega) (by omega)).mp hmod
    omega
  · intro heq
    rw [heq, Nat.add_mod_right]

/-- Entering an element when the ring is not full. -/
theorem Holds.push (hholds : Holds size slot history retired)
    (hroom : history.length + 1 ≠ retired + size) :
    Holds size (Function.update slot (history.length % size) c) (history ++ [c]) retired := by
  have hle := hholds.retired_le
  have hlt := hholds.length_lt
  refine ⟨?_, ?_, fun i hi hlength => ?_⟩
  · rw [List.length_append]
    omega
  · rw [List.length_append, List.length_singleton]
    omega
  · rw [List.length_append, List.length_singleton] at hlength
    rcases Nat.lt_or_ge i history.length with hold | hnew
    · have hne : i % size ≠ history.length % size := fun hmod => by
        have := (mod_eq_mod_iff hold.le (by omega)).mp hmod.symm
        omega
      rw [Function.update_of_ne hne, List.getElem?_append_left hold]
      exact hholds.slot_eq i hi hold
    · rw [show i = history.length by omega, Function.update_self]
      exact List.getElem?_concat_length

/-- Retiring the oldest entry. -/
theorem Holds.retire (hholds : Holds size slot history retired)
    (hnonempty : retired < history.length) : Holds size slot history (retired + 1) :=
  ⟨hnonempty, by have := hholds.length_lt; omega, fun i hi => hholds.slot_eq i (by omega)⟩

end RingBuffer
