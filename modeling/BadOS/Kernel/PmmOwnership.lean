import BadOS.Foundation.Execution
import BadOS.Kernel.Pmm

/-! # Ownership of physical blocks

Callers allocate blocks and give back blocks they hold, in any order. Every
block held is marked in the bitmap, so no block is handed out twice.
-/

namespace BadOS.Kernel

open Execution

/-- The allocator with the addresses its callers hold. -/
structure Custody where
  pmm : Pmm
  outstanding : Finset ℕ

namespace Custody

inductive Call
  | alloc
  | free (addr : ℕ)
deriving DecidableEq

/-- An allocation, its result joining the outstanding addresses. -/
def alloc (s : Custody) : Custody :=
  let result := s.pmm.pmmAllocBlock
  { pmm := result.2
    outstanding := if result.1 = 0 then s.outstanding else insert result.1 s.outstanding }

def free (s : Custody) (addr : ℕ) : Custody :=
  { pmm := s.pmm.pmmFreeBlock addr, outstanding := s.outstanding.erase addr }

inductive Step (s : Custody) : Call → Custody → Prop
  | alloc : Step s .alloc s.alloc
  | free {addr : ℕ} (hheld : addr ∈ s.outstanding) : Step s (.free addr) (s.free addr)

/-- The number of blocks marked in use. -/
def marked (p : Pmm) : ℕ := PackedBits.count (fun b => p.isUsed b) p.maxBlocks

/-- Block 0 and every block held are marked, and the counter follows the marks. -/
structure Inv (p₀ : Pmm) (s : Custody) : Prop where
  maxBlocks_eq : s.pmm.maxBlocks = p₀.maxBlocks
  zero_used : s.pmm.isUsed 0 = true
  held : ∀ addr ∈ s.outstanding, ∃ b < s.pmm.maxBlocks, 0 < b ∧ addr = b * blockSize ∧
    s.pmm.isUsed b = true
  balance : ((s.pmm.usedBlocks : ℤ) - marked s.pmm) % 2 ^ 64 =
    ((p₀.usedBlocks : ℤ) - marked p₀) % 2 ^ 64

variable {p₀ p : Pmm} {s s' : Custody} {call : Call} {calls : List Call} {addr b : ℕ}

/-! ## One call -/

theorem blockAddr_eq (hb : b < 2 ^ 31) : Pmm.blockAddr b = b * blockSize := by
  unfold Pmm.blockAddr blockSize
  omega

theorem isUsed_markUsed_natCast {i : ℕ} (hb : b < 2 ^ 31) (hi : i < 2 ^ 31) :
    (p.markUsed b).isUsed i = (decide (i = b) || p.isUsed i) := by
  rw [Pmm.isUsed_markUsed (Pmm.isInt_natCast hb) (Pmm.isInt_natCast hi)]
  simp only [Pmm.sameBit_natCast]

theorem isUsed_markFree_natCast {i : ℕ} (hb : b < 2 ^ 31) (hi : i < 2 ^ 31) :
    (p.markFree b).isUsed i = (decide (i ≠ b) && p.isUsed i) := by
  rw [Pmm.isUsed_markFree (Pmm.isInt_natCast hb) (Pmm.isInt_natCast hi)]
  simp only [Pmm.sameBit_natCast, decide_not]

/-- An allocation finds the lowest free block, or there is none. -/
theorem alloc_cases (hmax : p.maxBlocks ≤ 2 ^ 31) :
    (∃ b < p.maxBlocks, p.isUsed b = false ∧ (∀ i < b, p.isUsed i = true) ∧
      p.pmmAllocBlock = (b * blockSize, p.markUsed b)) ∨
    (∀ b < p.maxBlocks, p.isUsed b = true) ∧ p.pmmAllocBlock = (0, p) := by
  rcases p.pmmAllocBlock_cases with ⟨b, hb, hfree, hused, halloc⟩ | ⟨hused, halloc⟩
  · refine Or.inl ⟨b, hb, ?_, ?_, ?_⟩
    · rwa [CInt.toI32_natCast (by omega)] at hfree
    · intro i hi
      have := hused i hi
      rwa [CInt.toI32_natCast (by omega)] at this
    · rw [halloc, CInt.toI32_natCast (by omega), blockAddr_eq (by omega)]
  · refine Or.inr ⟨?_, halloc⟩
    intro b hb
    have := hused b hb
    rwa [CInt.toI32_natCast (by omega)] at this

theorem free_eq (hb : b < 2 ^ 31) : p.pmmFreeBlock (b * blockSize) = p.markFree b := by
  have hblock : b * blockSize / blockSize = b := Nat.mul_div_cancel b (by decide)
  rw [Pmm.pmmFreeBlock, hblock, CInt.toI32_natCast hb]

theorem marked_markUsed (hmax : p.maxBlocks < 2 ^ 31) (hb : b < p.maxBlocks)
    (hfree : p.isUsed b = false) : marked (p.markUsed b) = marked p + 1 := by
  unfold marked
  rw [Pmm.markUsed_maxBlocks]
  exact PackedBits.count_set hb hfree fun i hi => isUsed_markUsed_natCast (by omega) (by omega)

theorem marked_markFree (hmax : p.maxBlocks < 2 ^ 31) (hb : b < p.maxBlocks)
    (hused : p.isUsed b = true) : marked p = marked (p.markFree b) + 1 := by
  unfold marked
  rw [Pmm.markFree_maxBlocks]
  exact PackedBits.count_clear hb hused fun i hi => isUsed_markFree_natCast (by omega) (by omega)

theorem alloc_inv (hmax : p₀.maxBlocks < 2 ^ 31) (hinv : Inv p₀ s) : Inv p₀ s.alloc := by
  obtain ⟨hblocks, hzero, hheld, hbalance⟩ := hinv
  rw [← hblocks] at hmax
  unfold alloc
  rcases alloc_cases hmax.le with ⟨b, hb, hfree, hused, halloc⟩ | ⟨-, halloc⟩
  · have hpos : 0 < b := by
      rcases Nat.eq_zero_or_pos b with rfl | hpos
      · exact absurd (hzero.symm.trans hfree) (by decide)
      · exact hpos
    have hkeep : ∀ i : ℕ, i < 2 ^ 31 → s.pmm.isUsed i = true →
        (s.pmm.markUsed b).isUsed i = true := by
      intro i hi hold
      rw [isUsed_markUsed_natCast (by omega) hi, hold, Bool.or_true]
    have haddr : b * blockSize ≠ 0 := Nat.mul_ne_zero (by omega) (by decide)
    rw [halloc]
    dsimp only
    rw [if_neg haddr]
    refine ⟨hblocks, hkeep 0 (by decide) hzero, ?_, ?_⟩
    · intro addr haddr
      rcases Finset.mem_insert.mp haddr with rfl | hold
      · refine ⟨b, hb, hpos, rfl, ?_⟩
        rw [isUsed_markUsed_natCast (by omega) (by omega)]
        simp
      · obtain ⟨c, hc, hcpos, rfl, hcused⟩ := hheld addr hold
        exact ⟨c, hc, hcpos, rfl, hkeep c (by omega) hcused⟩
    · rw [← hbalance, marked_markUsed hmax hb hfree, Pmm.markUsed_usedBlocks]
      omega
  · rw [halloc]
    exact ⟨hblocks, hzero, hheld, hbalance⟩

theorem free_inv (hmax : p₀.maxBlocks < 2 ^ 31) (hinv : Inv p₀ s) (haddr : addr ∈ s.outstanding) :
    Inv p₀ (s.free addr) := by
  obtain ⟨hblocks, hzero, hheld, hbalance⟩ := hinv
  rw [← hblocks] at hmax
  obtain ⟨b, hb, hpos, rfl, hused⟩ := hheld addr haddr
  have hkeep : ∀ i : ℕ, i < 2 ^ 31 → i ≠ b → s.pmm.isUsed i = true →
      (s.pmm.markFree b).isUsed i = true := by
    intro i hi hne hold
    rw [isUsed_markFree_natCast (by omega) hi, hold, decide_eq_true hne, Bool.and_true]
  unfold free
  rw [free_eq (by omega)]
  refine ⟨hblocks, hkeep 0 (by decide) (by omega) hzero, ?_, ?_⟩
  · intro addr haddr
    obtain ⟨hne, hold⟩ := Finset.mem_erase.mp haddr
    obtain ⟨c, hc, hcpos, rfl, hcused⟩ := hheld addr hold
    have hcb : c ≠ b := fun heq => hne (by rw [heq])
    exact ⟨c, hc, hcpos, rfl, hkeep c (by omega) hcb hcused⟩
  · have hcount := marked_markFree hmax hb hused
    rw [← hbalance]
    dsimp only [Pmm.markFree_usedBlocks]
    omega

theorem step_inv (hmax : p₀.maxBlocks < 2 ^ 31) (hstep : Step s call s') (hinv : Inv p₀ s) :
    Inv p₀ s' := by
  cases hstep with
  | alloc => exact alloc_inv hmax hinv
  | free hheld => exact free_inv hmax hinv hheld

/-! ## Runs -/

/-- What an allocation of `addr` from `s` to `s'` gives. -/
structure Grants (s : Custody) (addr : ℕ) (s' : Custody) : Prop where
  null_iff : addr = 0 ↔ ∀ b < s.pmm.maxBlocks, s.pmm.mmapTest b ≠ 0
  null_same : addr = 0 → s' = s
  aligned : addr % blockSize = 0
  below : addr ≠ 0 → addr < s.pmm.maxBlocks * blockSize
  was_free : addr ≠ 0 → s.pmm.mmapTest (addr / blockSize : ℕ) = 0
  lowest : ∀ b < addr / blockSize, s.pmm.mmapTest b ≠ 0
  fresh : addr ∉ s.outstanding
  others : ∀ b : ℕ, b < 2 ^ 31 → b ≠ addr / blockSize → s'.pmm.mmapTest b = s.pmm.mmapTest b

theorem mmapTest_ne_zero_iff : p.mmapTest b ≠ 0 ↔ p.isUsed b = true := by
  rw [Ne, Pmm.mmapTest_eq_zero_iff, Bool.not_eq_false]

theorem mmapTest_congr {q : Pmm} (h : q.isUsed b = p.isUsed b) : q.mmapTest b = p.mmapTest b := by
  rw [Pmm.mmapTest_eq, Pmm.mmapTest_eq, h]

theorem Inv.zero_not_mem (hinv : Inv p₀ s) : 0 ∉ s.outstanding := by
  intro hmem
  obtain ⟨b, -, hpos, haddr, -⟩ := hinv.held 0 hmem
  unfold blockSize at haddr
  omega

theorem alloc_grants (hmax : p₀.maxBlocks < 2 ^ 31) (hinv : Inv p₀ s) :
    Grants s s.pmm.pmmAllocBlock.1 s.alloc := by
  have hmax' : s.pmm.maxBlocks < 2 ^ 31 := hinv.maxBlocks_eq ▸ hmax
  rcases alloc_cases hmax'.le with ⟨b, hb, hfree, hused, halloc⟩ | ⟨hused, halloc⟩
  · have hpos : b ≠ 0 := by
      rintro rfl
      exact absurd (hinv.zero_used.symm.trans hfree) (by decide)
    -- Block 0 is in use, so a granted address is not the null of a failed call.
    have haddr : b * blockSize ≠ 0 := Nat.mul_ne_zero hpos (by decide)
    have hblock : b * blockSize / blockSize = b := Nat.mul_div_cancel b (by decide)
    have hpmm : s.alloc.pmm = s.pmm.markUsed b := by rw [alloc, halloc]
    rw [halloc]
    constructor
    · refine iff_of_false haddr fun hall => hall b hb ?_
      exact Pmm.mmapTest_eq_zero_iff.mpr hfree
    · exact fun hzero => absurd hzero haddr
    · exact Nat.mul_mod_left b blockSize
    · exact fun _ => Nat.mul_lt_mul_of_pos_right hb (by decide)
    · intro _
      rw [hblock]
      exact Pmm.mmapTest_eq_zero_iff.mpr hfree
    · intro i hi
      rw [hblock] at hi
      exact mmapTest_ne_zero_iff.mpr (hused i hi)
    · intro hmem
      obtain ⟨c, -, -, hc, hcused⟩ := hinv.held _ hmem
      have hcb : b = c := Nat.eq_of_mul_eq_mul_right (by decide) hc
      rw [← hcb, hfree] at hcused
      exact absurd hcused (by decide)
    · intro i hi hne
      rw [hblock] at hne
      apply mmapTest_congr
      rw [hpmm, isUsed_markUsed_natCast (by omega) hi, decide_eq_false hne, Bool.false_or]
  · have hsame : s.alloc = s := by rw [alloc, halloc, if_pos rfl]
    rw [halloc, hsame]
    constructor
    · exact iff_of_true rfl fun b hb => mmapTest_ne_zero_iff.mpr (hused b hb)
    · exact fun _ => rfl
    · rfl
    · exact fun h => absurd rfl h
    · exact fun h => absurd rfl h
    · intro i hi
      exact absurd hi (by simp)
    · exact hinv.zero_not_mem
    · exact fun _ _ _ => rfl

/-- Giving back a block clears its bit and no other. -/
theorem free_clears (hmax : p₀.maxBlocks < 2 ^ 31) (hinv : Inv p₀ s)
    (haddr : addr ∈ s.outstanding) :
    (s.free addr).pmm.mmapTest (addr / blockSize : ℕ) = 0 ∧
      ∀ b : ℕ, b < 2 ^ 31 → b ≠ addr / blockSize →
        (s.free addr).pmm.mmapTest b = s.pmm.mmapTest b := by
  have hmax' : s.pmm.maxBlocks < 2 ^ 31 := hinv.maxBlocks_eq ▸ hmax
  obtain ⟨b, hb, -, rfl, -⟩ := hinv.held addr haddr
  have hblock : b * blockSize / blockSize = b := Nat.mul_div_cancel b (by decide)
  have hpmm : (s.free (b * blockSize)).pmm = s.pmm.markFree b := free_eq (by omega)
  rw [hblock, hpmm]
  constructor
  · rw [Pmm.mmapTest_eq_zero_iff, isUsed_markFree_natCast (by omega) (by omega)]
    simp
  · intro i hi hne
    apply mmapTest_congr
    rw [isUsed_markFree_natCast (by omega) hi, decide_eq_true hne, Bool.true_and]

theorem run_inv (hmax : p₀.maxBlocks < 2 ^ 31) (hinv : Inv p₀ s) (hrun : Run Step s calls s') :
    Inv p₀ s' :=
  hrun.invariant (Inv p₀) hinv fun _ _ _ hstep => step_inv hmax hstep

/-- Blocks free or held during a run were free at its start. -/
structure Initial (p : Pmm) (s : Custody) : Prop where
  maxBlocks_eq : s.pmm.maxBlocks = p.maxBlocks
  free : ∀ b < p.maxBlocks, s.pmm.isUsed b = false → p.isUsed b = false
  held : ∀ addr ∈ s.outstanding, ∃ b < p.maxBlocks, addr = b * blockSize ∧ p.isUsed b = false

theorem step_initial (hmax : p.maxBlocks ≤ 2 ^ 31) (hstep : Step s call s')
    (hinitial : Initial p s) : Initial p s' := by
  obtain ⟨hblocks, hfree, hheld⟩ := hinitial
  cases hstep with
  | alloc =>
      unfold alloc
      rcases alloc_cases (p := s.pmm) (by omega) with ⟨b, hb, hbfree, -, halloc⟩ | ⟨-, halloc⟩
      · have hbfree' := hfree b (by omega) hbfree
        rw [halloc]
        refine ⟨hblocks, ?_, ?_⟩
        · intro i hi hnow
          rw [isUsed_markUsed_natCast (by omega) (by omega), Bool.or_eq_false_iff] at hnow
          exact hfree i hi hnow.2
        · intro addr hmem
          dsimp only at hmem
          split at hmem
          · exact hheld addr hmem
          · rcases Finset.mem_insert.mp hmem with rfl | hold
            · exact ⟨b, by omega, rfl, hbfree'⟩
            · exact hheld addr hold
      · rw [halloc]
        exact ⟨hblocks, hfree, hheld⟩
  | @free addr hmem =>
      obtain ⟨b, hb, rfl, hbfree⟩ := hheld addr hmem
      unfold free
      rw [free_eq (by omega)]
      refine ⟨hblocks, ?_, fun addr hold => hheld addr (Finset.mem_of_mem_erase hold)⟩
      intro i hi hnow
      by_cases hib : i = b
      · rwa [hib]
      · rw [isUsed_markFree_natCast (by omega) (by omega), decide_eq_true hib,
          Bool.true_and] at hnow
        exact hfree i hi hnow

/-- Whatever is handed out during a run was free at its start. -/
theorem run_outstanding (hmax : p.maxBlocks ≤ 2 ^ 31) (hrun : Run Step ⟨p, ∅⟩ calls s) :
    ∀ addr ∈ s.outstanding, ∃ b < p.maxBlocks, addr = b * blockSize ∧ p.isUsed b = false :=
  (hrun.invariant (Initial p) ⟨rfl, fun _ _ h => h, fun _ h => absurd h (Finset.notMem_empty _)⟩
    fun _ _ _ hstep hinitial => step_initial hmax hstep hinitial).held

/-- In every run of calls in which only held addresses are given back, each
allocation grants the lowest free block or nothing, each call changes at most
its own bit, a block given back is as free as before its allocation, and the
counter keeps its distance from the number of marked blocks. -/
theorem run_exclusive (hmax : p.maxBlocks < 2 ^ 31) (hzero : p.mmapTest 0 ≠ 0)
    (hrun : Run Step ⟨p, ∅⟩ calls s) :
    s.pmm.maxBlocks = p.maxBlocks ∧ Grants s s.pmm.pmmAllocBlock.1 s.alloc ∧
      (∀ addr ∈ s.outstanding, ∀ b : ℕ, b < 2 ^ 31 → b ≠ addr / blockSize →
        (s.free addr).pmm.mmapTest b = s.pmm.mmapTest b) ∧
      (∀ addr later s', s.pmm.pmmAllocBlock.1 = addr → addr ≠ 0 → Run Step s.alloc later s' →
        addr ∈ s'.outstanding →
        (s'.free addr).pmm.mmapTest (addr / blockSize : ℕ) =
          s.pmm.mmapTest (addr / blockSize : ℕ)) ∧
      ((s.pmm.usedBlocks : ℤ) - marked s.pmm) % 2 ^ 64 =
        ((p.usedBlocks : ℤ) - marked p) % 2 ^ 64 := by
  have hstart : Inv p ⟨p, ∅⟩ := by
    refine ⟨rfl, mmapTest_ne_zero_iff.mp (by simpa using hzero), ?_, rfl⟩
    intro addr hmem
    exact absurd hmem (Finset.notMem_empty addr)
  have hinv := run_inv hmax hstart hrun
  have hgrants := alloc_grants hmax hinv
  refine ⟨hinv.maxBlocks_eq, hgrants, ?_, ?_, hinv.balance⟩
  · exact fun addr haddr => (free_clears hmax hinv haddr).2
  · rintro addr later s' rfl hne hlater hheld
    have hinv' := run_inv hmax (alloc_inv hmax hinv) hlater
    rw [(free_clears hmax hinv' hheld).1, hgrants.was_free hne]

/-- Eight blocks, the first in use. -/
def eightBlocks : Pmm :=
  { mem := fun x => if x = 0 then 1 else 0, pmmBitmap := 0, usedBlocks := 1, maxBlocks := 8 }

theorem eightBlocks_exclusive : ∃ s,
    Run Step ⟨eightBlocks, ∅⟩ [.alloc, .alloc, .free 0x1000] s ∧
      Grants s s.pmm.pmmAllocBlock.1 s.alloc := by
  have hheld : 0x1000 ∈ (Custody.mk eightBlocks ∅).alloc.alloc.outstanding := by decide +kernel
  have hrun : Run Step ⟨eightBlocks, ∅⟩ [.alloc, .alloc, .free 0x1000] _ :=
    .cons .alloc (.cons .alloc (.cons (.free hheld) (.nil _)))
  have hexclusive := run_exclusive (by decide) (by decide +kernel) hrun
  exact ⟨_, hrun, hexclusive.2.1⟩

end Custody

end BadOS.Kernel
