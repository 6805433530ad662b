import Mathlib.Tactic
import Mathlib.Data.Nat.Bitwise

/-! # Bits packed into words

A sequence of words of `w` bits read as one sequence of bits, lowest bit first.
Changing one bit of one word changes that bit of the sequence and no other.
-/

namespace PackedBits

variable {w : ℕ} {words words' : ℕ → ℕ}

/-- Bit `i` of the sequence. -/
def bit (w : ℕ) (words : ℕ → ℕ) (i : ℕ) : Bool := (words (i / w)).testBit (i % w)

/-- The number of set bits below `n`. -/
def count (bits : ℕ → Bool) (n : ℕ) : ℕ := ((Finset.range n).filter (bits · = true)).card

theorem index_eq_iff {i j : ℕ} : i = j ↔ i / w = j / w ∧ i % w = j % w := by
  constructor
  · rintro rfl
    exact ⟨rfl, rfl⟩
  · rintro ⟨hdiv, hmod⟩
    rw [← Nat.div_add_mod i w, ← Nat.div_add_mod j w, hdiv, hmod]

theorem bit_congr {i : ℕ} (h : words' (i / w) = words (i / w)) :
    bit w words' i = bit w words i := by
  unfold bit
  rw [h]

/-- Or-ing one bit into its word sets that bit only. -/
theorem bit_set {i : ℕ} (hword : words' (i / w) = words (i / w) ||| 2 ^ (i % w))
    (hother : ∀ k, k ≠ i / w → words' k = words k) (j : ℕ) :
    bit w words' j = (decide (j = i) || bit w words j) := by
  by_cases hj : j / w = i / w
  · unfold bit
    rw [hj, hword, Nat.testBit_or, Nat.testBit_two_pow, Bool.or_comm]
    congr 1
    simp [index_eq_iff (w := w) (i := j) (j := i), hj, eq_comm]
  · have hne : j ≠ i := by
      rintro rfl
      exact hj rfl
    simp [hne, bit_congr (hother _ hj)]

variable {bits bits' : ℕ → Bool} {i n : ℕ}

/-- Setting a clear bit below the bound raises the count by one. -/
theorem count_set (hi : i < n) (hclear : bits i = false)
    (hset : ∀ j < n, bits' j = (decide (j = i) || bits j)) : count bits' n = count bits n + 1 := by
  have hfilter : (Finset.range n).filter (bits' · = true) =
      insert i ((Finset.range n).filter (bits · = true)) := by
    ext j
    rw [Finset.mem_insert, Finset.mem_filter, Finset.mem_filter, Finset.mem_range]
    constructor
    · rintro ⟨hj, hbit⟩
      rw [hset j hj, Bool.or_eq_true, decide_eq_true_eq] at hbit
      exact hbit.imp_right fun hold => ⟨hj, hold⟩
    · rintro (rfl | ⟨hj, hbit⟩)
      · exact ⟨hi, by simp [hset j hi]⟩
      · exact ⟨hj, by simp [hset j hj, hbit]⟩
  unfold count
  rw [hfilter, Finset.card_insert_of_notMem]
  simp [hclear]

/-- Clearing a set bit below the bound lowers the count by one. -/
theorem count_clear (hi : i < n) (hset : bits i = true)
    (hclear : ∀ j < n, bits' j = (decide (j ≠ i) && bits j)) :
    count bits n = count bits' n + 1 := by
  apply count_set hi
  · simp [hclear i hi]
  · intro j hj
    by_cases hji : j = i
    · simp [hji, hset]
    · simp [hclear j hj, hji]

end PackedBits
