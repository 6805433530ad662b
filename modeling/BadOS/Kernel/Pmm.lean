import BadOS.Foundation.PackedBits
import BadOS.Libc.String

/-! # The physical memory manager

A bitmap with one bit for each 4096-byte block, set while the block is in use,
in 32-bit words at `pmm_bitmap`. Block numbers are passed as `int`.
-/

namespace BadOS.Kernel

/-- `BLOCK_SIZE`. -/
def blockSize : ℕ := 4096

structure Pmm where
  mem : Memory
  pmmBitmap : ℕ
  usedBlocks : ℕ
  maxBlocks : ℕ

namespace Pmm

/-! ## Bits of the bitmap -/

/-- The word holding a bit: `bit / 32`, rounding toward zero. -/
def wordOf (bit : ℤ) : ℤ := bit.tdiv 32

/-- The shift count `bit % 32`, of which the processor uses the low five bits. -/
def shiftOf (bit : ℤ) : ℕ := (bit.tmod 32 % 32).toNat

def wordAddr (p : Pmm) (k : ℤ) : ℕ := CInt.toU64 (p.pmmBitmap + 4 * k)

def word (p : Pmm) (k : ℤ) : ℕ := p.mem.load (p.wordAddr k) 4

def setWord (p : Pmm) (k : ℤ) (v : ℕ) : Pmm :=
  { p with mem := p.mem.store (p.wordAddr k) 4 v }

def mmapSet (p : Pmm) (bit : ℤ) : Pmm :=
  p.setWord (wordOf bit) (p.word (wordOf bit) ||| 1 <<< shiftOf bit)

def mmapUnset (p : Pmm) (bit : ℤ) : Pmm :=
  p.setWord (wordOf bit) (p.word (wordOf bit) &&& (0xFFFFFFFF ^^^ 1 <<< shiftOf bit))

def mmapTest (p : Pmm) (bit : ℤ) : ℕ := p.word (wordOf bit) &&& 1 <<< shiftOf bit

/-! ## Set-up -/

def pmmInitialize (mem : Memory) (memSize bitmapStart : ℕ) : Pmm :=
  let maxBlocks := memSize / blockSize
  { mem := Libc.memset mem bitmapStart 0xFF (maxBlocks / 8)
    pmmBitmap := bitmapStart, usedBlocks := maxBlocks, maxBlocks }

/-- `mmap_unset(bit); used_blocks--`. -/
def markFree (p : Pmm) (bit : ℤ) : Pmm :=
  { p.mmapUnset bit with usedBlocks := (p.usedBlocks + 2 ^ 64 - 1) % 2 ^ 64 }

/-- `mmap_set(bit); used_blocks++`. -/
def markUsed (p : Pmm) (bit : ℤ) : Pmm :=
  { p.mmapSet bit with usedBlocks := (p.usedBlocks + 1) % 2 ^ 64 }

/-- The loop of `pmm_init_region`. -/
def markFreeFrom (p : Pmm) (align blocks : ℤ) : Pmm :=
  Loop.times blocks.toNat (fun i p => p.markFree (CInt.toI32 (align + i))) p

/-- The loop of `pmm_deinit_region`. -/
def markUsedFrom (p : Pmm) (align blocks : ℤ) : Pmm :=
  Loop.times blocks.toNat (fun i p => p.markUsed (CInt.toI32 (align + i))) p

def pmmInitRegion (p : Pmm) (base size : ℕ) : Pmm :=
  (p.markFreeFrom (CInt.toI32 (base / blockSize : ℕ)) (CInt.toI32 (size / blockSize : ℕ))).mmapSet 0

/-- `(size + BLOCK_SIZE - 1) / BLOCK_SIZE`, the sum in 64 bits. -/
def roundedBlocks (size : ℕ) : ℕ := (size + blockSize - 1) % 2 ^ 64 / blockSize

def pmmDeinitRegion (p : Pmm) (base size : ℕ) : Pmm :=
  p.markUsedFrom (CInt.toI32 (base / blockSize : ℕ)) (CInt.toI32 (roundedBlocks size))

/-! ## Allocation -/

/-- The address of a block, `i * BLOCK_SIZE` in 64 bits. -/
def blockAddr (i : ℕ) : ℕ := i * blockSize % 2 ^ 64

/-- The block the loop of `pmm_alloc_block` stops at. -/
def findFree (p : Pmm) : Option ℕ :=
  (List.range p.maxBlocks).find? fun i => p.mmapTest (CInt.toI32 i) = 0

/-- The address, 0 when no block is free, and the state after the call. -/
def pmmAllocBlock (p : Pmm) : ℕ × Pmm :=
  match p.findFree with
  | some i => (blockAddr i, p.markUsed (CInt.toI32 i))
  | none => (0, p)

def pmmFreeBlock (p : Pmm) (addr : ℕ) : Pmm :=
  p.markFree (CInt.toI32 (addr / blockSize : ℕ))

/-! ## The bits as a set -/

/-- Whether a bit is set. -/
def isUsed (p : Pmm) (bit : ℤ) : Bool := (p.word (wordOf bit)).testBit (shiftOf bit)

/-- Two block numbers share a bit. -/
abbrev SameBit (b c : ℤ) : Prop := wordOf b = wordOf c ∧ shiftOf b = shiftOf c

variable {p : Pmm} {b c k k' : ℤ} {v n i j : ℕ}

theorem wordOf_natCast (n : ℕ) : wordOf n = (n / 32 : ℕ) := rfl

theorem shiftOf_natCast (n : ℕ) : shiftOf n = n % 32 := by
  have hmod : (n : ℤ).tmod 32 = (n % 32 : ℕ) := rfl
  unfold shiftOf
  rw [hmod]
  omega

theorem wordOf_bounds (hlo : -2 ^ 31 ≤ b) (hhi : b < 2 ^ 31) :
    -2 ^ 26 ≤ wordOf b ∧ wordOf b < 2 ^ 26 := by
  unfold wordOf
  obtain ⟨n, rfl | rfl⟩ := b.eq_nat_or_neg
  · rw [show (n : ℤ).tdiv 32 = (n / 32 : ℕ) from rfl]
    omega
  · rw [Int.neg_tdiv, show (n : ℤ).tdiv 32 = (n / 32 : ℕ) from rfl]
    omega

theorem wordOf_neg (hb : b ≤ -32) : wordOf b < 0 := by
  unfold wordOf
  obtain ⟨n, rfl | rfl⟩ := b.eq_nat_or_neg
  · omega
  · rw [Int.neg_tdiv, show (n : ℤ).tdiv 32 = (n / 32 : ℕ) from rfl]
    omega

theorem shiftOf_lt (b : ℤ) : shiftOf b < 32 := by
  unfold shiftOf
  omega

theorem sameBit_natCast : SameBit (i : ℤ) (j : ℤ) ↔ i = j := by
  unfold SameBit
  rw [wordOf_natCast, wordOf_natCast, shiftOf_natCast, shiftOf_natCast]
  omega

/-- Words in the range of an `int` block number do not overlap. -/
theorem wordAddr_disjoint (p : Pmm) (hne : k ≠ k') (hk : -2 ^ 26 ≤ k ∧ k < 2 ^ 26)
    (hk' : -2 ^ 26 ≤ k' ∧ k' < 2 ^ 26) :
    p.wordAddr k + 4 ≤ p.wordAddr k' ∨ p.wordAddr k' + 4 ≤ p.wordAddr k := by
  unfold wordAddr CInt.toU64
  omega

theorem word_setWord (hk : -2 ^ 26 ≤ k ∧ k < 2 ^ 26) (hk' : -2 ^ 26 ≤ k' ∧ k' < 2 ^ 26)
    (hv : v < 2 ^ 32) : (p.setWord k v).word k' = if k' = k then v else p.word k' := by
  split
  next heq =>
    rw [heq]
    exact Memory.load_store (by omega)
  next hne => exact Memory.load_store_of_disjoint (p.wordAddr_disjoint (Ne.symm hne) hk hk')

theorem word_lt (p : Pmm) (k : ℤ) : p.word k < 2 ^ 32 := Memory.load_lt _ _ 4

theorem mmapTest_eq_zero_iff : p.mmapTest b = 0 ↔ p.isUsed b = false := by
  unfold mmapTest isUsed
  rw [Nat.one_shiftLeft, Nat.and_two_pow]
  cases (p.word (wordOf b)).testBit (shiftOf b) <;> simp

/-- The range of an `int`. -/
def IsInt (b : ℤ) : Prop := -2 ^ 31 ≤ b ∧ b < 2 ^ 31

theorem isInt_toI32 (x : ℤ) : IsInt (CInt.toI32 x) := CInt.toI32_bounds x

theorem isInt_natCast (hn : n < 2 ^ 31) : IsInt (n : ℤ) := by
  unfold IsInt
  omega

theorem isInt_zero : IsInt 0 := by
  unfold IsInt
  omega

theorem isUsed_mmapSet (hb : IsInt b) (hc : IsInt c) :
    (p.mmapSet b).isUsed c = (decide (SameBit c b) || p.isUsed c) := by
  have hwordB := wordOf_bounds hb.1 hb.2
  have hwordC := wordOf_bounds hc.1 hc.2
  have hshift := shiftOf_lt b
  have hbit : 1 <<< shiftOf b < 2 ^ 32 := by
    rw [Nat.one_shiftLeft]
    exact Nat.pow_lt_pow_right (by decide) hshift
  unfold mmapSet isUsed SameBit
  rw [word_setWord hwordB hwordC (Nat.or_lt_two_pow (p.word_lt _) hbit)]
  by_cases hword : wordOf c = wordOf b
  · rw [if_pos hword, hword, Nat.testBit_or, Nat.one_shiftLeft, Nat.testBit_two_pow, Bool.or_comm]
    simp [eq_comm]
  · simp [hword]

theorem isUsed_mmapUnset (hb : IsInt b) (hc : IsInt c) :
    (p.mmapUnset b).isUsed c = (!decide (SameBit c b) && p.isUsed c) := by
  have hwordB := wordOf_bounds hb.1 hb.2
  have hwordC := wordOf_bounds hc.1 hc.2
  have hshift := shiftOf_lt c
  unfold mmapUnset isUsed SameBit
  rw [word_setWord hwordB hwordC (lt_of_le_of_lt Nat.and_le_left (p.word_lt _))]
  by_cases hword : wordOf c = wordOf b
  · have hmask : (0xFFFFFFFF : ℕ) = 2 ^ 32 - 1 := by decide
    rw [if_pos hword, hword, Nat.testBit_and, Nat.testBit_xor, Nat.one_shiftLeft,
      Nat.testBit_two_pow, hmask, Nat.testBit_two_pow_sub_one, Bool.and_comm]
    simp [hshift, eq_comm]
  · simp [hword]

theorem mmapTest_eq (p : Pmm) (b : ℤ) :
    p.mmapTest b = (p.isUsed b).toNat * 2 ^ shiftOf b := by
  unfold mmapTest isUsed
  rw [Nat.one_shiftLeft, Nat.and_two_pow]

/-! ## Specifications -/

section Fields

variable (p : Pmm) (b : ℤ)

@[simp] theorem mmapSet_maxBlocks : (p.mmapSet b).maxBlocks = p.maxBlocks := rfl

@[simp] theorem markUsed_maxBlocks : (p.markUsed b).maxBlocks = p.maxBlocks := rfl

@[simp] theorem markFree_maxBlocks : (p.markFree b).maxBlocks = p.maxBlocks := rfl

@[simp] theorem markUsed_usedBlocks :
    (p.markUsed b).usedBlocks = (p.usedBlocks + 1) % 2 ^ 64 := rfl

@[simp] theorem markFree_usedBlocks :
    (p.markFree b).usedBlocks = (p.usedBlocks + 2 ^ 64 - 1) % 2 ^ 64 := rfl

end Fields

/-- The bits do not depend on the counter. -/
theorem isUsed_congr {q : Pmm} (hmem : q.mem = p.mem) (hbitmap : q.pmmBitmap = p.pmmBitmap) :
    q.isUsed c = p.isUsed c := by
  unfold isUsed word wordAddr
  rw [hmem, hbitmap]

theorem isUsed_markUsed (hb : IsInt b) (hc : IsInt c) :
    (p.markUsed b).isUsed c = (decide (SameBit c b) || p.isUsed c) := by
  rw [← isUsed_mmapSet hb hc]
  exact isUsed_congr rfl rfl

theorem isUsed_markFree (hb : IsInt b) (hc : IsInt c) :
    (p.markFree b).isUsed c = (!decide (SameBit c b) && p.isUsed c) := by
  rw [← isUsed_mmapUnset hb hc]
  exact isUsed_congr rfl rfl

/-- What an allocation can do. -/
theorem pmmAllocBlock_cases (p : Pmm) :
    (∃ i < p.maxBlocks, p.isUsed (CInt.toI32 i) = false ∧
      (∀ j < i, p.isUsed (CInt.toI32 j) = true) ∧
      p.pmmAllocBlock = (blockAddr i, p.markUsed (CInt.toI32 i))) ∨
    (∀ i < p.maxBlocks, p.isUsed (CInt.toI32 i) = true) ∧ p.pmmAllocBlock = (0, p) := by
  cases hfind : p.findFree with
  | none =>
      refine Or.inr ⟨?_, by rw [pmmAllocBlock, hfind]⟩
      intro i hi
      have hnone := List.find?_range_eq_none.mp hfind i hi
      simpa [mmapTest_eq_zero_iff] using hnone
  | some i =>
      obtain ⟨hfree, hi, hused⟩ := List.find?_range_eq_some.mp hfind
      refine Or.inl ⟨i, List.mem_range.mp hi, ?_, ?_, by rw [pmmAllocBlock, hfind]⟩
      · simpa [mmapTest_eq_zero_iff] using hfree
      · intro j hj
        simpa [mmapTest_eq_zero_iff] using hused j hj

end Pmm

end BadOS.Kernel
