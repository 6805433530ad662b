import Mathlib.Tactic

/-! # Cutting a sequence into blocks

The complete blocks of a sequence and what is left behind them. Cutting can be
resumed: only what is left matters for what comes later.
-/

namespace Blocks

variable {α : Type*} (n : ℕ)

/-- The complete blocks of `n` values, in order. -/
def whole (l : List α) : List (List α) :=
  (List.range (l.length / n)).map fun k => (l.drop (k * n)).take n

/-- The values behind the last complete block. -/
def rest (l : List α) : List α := l.drop (l.length / n * n)

variable {n} {l t : List α}

theorem whole_of_lt (hlt : l.length < n) : whole n l = [] := by
  rw [whole, Nat.div_eq_of_lt hlt]
  rfl

theorem rest_of_lt (hlt : l.length < n) : rest n l = l := by
  rw [rest, Nat.div_eq_of_lt hlt, Nat.zero_mul, List.drop_zero]

theorem length_div_of_le (hn : 0 < n) (hle : n ≤ l.length) :
    l.length / n = (l.drop n).length / n + 1 := by
  rw [List.length_drop]
  exact Nat.div_eq_sub_div hn hle

theorem whole_of_le (hn : 0 < n) (hle : n ≤ l.length) :
    whole n l = l.take n :: whole n (l.drop n) := by
  rw [whole, length_div_of_le hn hle, List.range_succ_eq_map, List.map_cons, List.map_map,
    Nat.zero_mul, List.drop_zero, whole]
  congr 2
  ext k : 1
  rw [Function.comp_apply, List.drop_drop, Nat.succ_mul, Nat.add_comm]

theorem rest_of_le (hn : 0 < n) (hle : n ≤ l.length) : rest n l = rest n (l.drop n) := by
  rw [rest, length_div_of_le hn hle, rest, List.drop_drop, Nat.succ_mul, Nat.add_comm]

/-- Appending after the last complete block is appending to what was left behind it. -/
theorem whole_rest_append (hn : 0 < n) (l t : List α) :
    whole n (l ++ t) = whole n l ++ whole n (rest n l ++ t) ∧
      rest n (l ++ t) = rest n (rest n l ++ t) := by
  induction hlen : l.length using Nat.strong_induction_on generalizing l with
  | _ m ih =>
      by_cases hlt : l.length < n
      · rw [whole_of_lt hlt, rest_of_lt hlt]
        exact ⟨rfl, rfl⟩
      · have hle : n ≤ l.length := not_lt.mp hlt
        have hle' : n ≤ (l ++ t).length := by
          rw [List.length_append]
          omega
        have hless : (l.drop n).length < m := by
          rw [List.length_drop]
          omega
        obtain ⟨hwhole, hrest⟩ := ih _ hless (l.drop n) rfl
        constructor
        · rw [whole_of_le hn hle', whole_of_le hn hle, rest_of_le hn hle,
            List.take_append_of_le_length hle, List.drop_append_of_le_length hle, hwhole,
            List.cons_append]
        · rw [rest_of_le hn hle', List.drop_append_of_le_length hle, hrest, rest_of_le hn hle]

end Blocks
