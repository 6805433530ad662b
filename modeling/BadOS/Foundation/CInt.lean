import Mathlib.Tactic

/-! # C integer conversions

Values of C expressions are mathematical integers; a conversion to a machine
type is applied where the source stores or passes the value. Conversions wrap
modulo the width, as two's complement machines and compilers do.
-/

namespace CInt

/-- Conversion to a 32-bit signed `int`. -/
@[irreducible] def toI32 (x : ℤ) : ℤ := Int.bmod x (2 ^ 32)

/-- Conversion to a 64-bit unsigned integer. -/
@[irreducible] def toU64 (x : ℤ) : ℕ := (x % 2 ^ 64).toNat

/-- Conversion to a 32-bit unsigned integer. -/
@[irreducible] def toU32 (x : ℤ) : ℕ := (x % 2 ^ 32).toNat

/-- Conversion to an 8-bit unsigned integer. -/
@[irreducible] def toU8 (x : ℤ) : ℕ := (x % 2 ^ 8).toNat

theorem toI32_of_range {x : ℤ} (hlo : -2 ^ 31 ≤ x) (hhi : x < 2 ^ 31) : toI32 x = x := by
  unfold toI32
  rw [Int.bmod_eq_of_le] <;> omega

theorem toI32_natCast {n : ℕ} (hn : n < 2 ^ 31) : toI32 n = n :=
  toI32_of_range (by omega) (by omega)

theorem toI32_bounds (x : ℤ) : -2 ^ 31 ≤ toI32 x ∧ toI32 x < 2 ^ 31 := by
  unfold toI32
  have hlo := Int.le_bmod (x := x) (m := 2 ^ 32) (by decide)
  have hhi := Int.bmod_lt (x := x) (m := 2 ^ 32) (by decide)
  omega

/-- Adding a multiple of `2 ^ 32` does not change the stored `int`. -/
theorem toI32_add_mul (x k : ℤ) : toI32 (x + k * 2 ^ 32) = toI32 x := by
  unfold toI32
  rw [Int.mul_comm]
  exact Int.add_mul_bmod_self_left x (2 ^ 32) k

theorem exists_toI32_add_mul (x : ℤ) : ∃ k, x = toI32 x + k * 2 ^ 32 := by
  refine ⟨x.bdiv (2 ^ 32), ?_⟩
  unfold toI32
  exact (Int.bmod_add_bdiv' x (2 ^ 32)).symm

/-- A wrapped operand gives the same stored sum. -/
theorem toI32_toI32_add (x y : ℤ) : toI32 (toI32 x + y) = toI32 (x + y) := by
  unfold toI32
  exact Int.bmod_add_bmod

theorem toU64_natCast {n : ℕ} (hn : n < 2 ^ 64) : toU64 n = n := by
  unfold toU64
  omega

theorem toU32_natCast (n : ℕ) : toU32 n = n % 2 ^ 32 := by
  unfold toU32
  omega

theorem toU8_natCast {n : ℕ} (hn : n < 256) : toU8 n = n := by
  unfold toU8
  omega

theorem toU64_lt (x : ℤ) : toU64 x < 2 ^ 64 := by
  unfold toU64
  omega

end CInt
