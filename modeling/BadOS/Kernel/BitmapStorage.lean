import BadOS.Kernel.BootMemory

/-! # The storage of the frame bitmap

The bits are read and written through 32-bit words, while `_start` reserves the
bitmap by whole bytes. Allocation never reaches the words when the reserved
blocks cover them all.
-/

namespace BadOS.Kernel

open Execution

namespace Custody

variable {p : Pmm} {b n : ℕ}

/-- Allocations use up the free blocks from below. -/
theorem exists_run_below (hmax : p.maxBlocks ≤ 2 ^ 31)
    (hb : b < p.maxBlocks) (hfree : p.isUsed b = false) (hn : n ≤ b) :
    ∃ calls s, Run Step ⟨p, ∅⟩ calls s ∧ s.pmm.maxBlocks = p.maxBlocks ∧
      s.pmm.isUsed b = false ∧ ∀ i < n, s.pmm.isUsed i = true := by
  induction n with
  | zero => exact ⟨[], _, .nil _, rfl, hfree, fun i hi => absurd hi (Nat.not_lt_zero i)⟩
  | succ n ih =>
      obtain ⟨calls, s, hrun, hblocks, hstill, hbelow⟩ := ih (by omega)
      by_cases hused : s.pmm.isUsed n = true
      · exact ⟨calls, s, hrun, hblocks, hstill, Nat.forall_lt_succ_right.mpr ⟨hbelow, hused⟩⟩
      · rw [Bool.not_eq_true] at hused
        rcases alloc_cases (p := s.pmm) (by omega) with ⟨c, hc, hclear, hlow, halloc⟩ | ⟨hall, -⟩
        · have hcn : c = n := by
            rcases lt_trichotomy c n with hlt | heq | hgt
            · exact absurd (hclear.symm.trans (hbelow c hlt)) (by decide)
            · exact heq
            · exact absurd (hused.symm.trans (hlow n hgt)) (by decide)
          have hpmm : s.alloc.pmm = s.pmm.markUsed n := by rw [alloc, halloc, hcn]
          refine ⟨calls ++ [.alloc], s.alloc, hrun.append (.cons .alloc (.nil _)), ?_, ?_, ?_⟩
          · rw [hpmm, Pmm.markUsed_maxBlocks, hblocks]
          · rw [hpmm, isUsed_markUsed_natCast (by omega) (by omega), hstill, Bool.or_false,
              decide_eq_false (by omega)]
          · intro i hi
            rw [hpmm, isUsed_markUsed_natCast (by omega) (by omega)]
            rcases Nat.lt_succ_iff_lt_or_eq.mp hi with hlt | rfl
            · rw [hbelow i hlt, Bool.or_true]
            · simp
        · exact absurd (hused.symm.trans (hall n (by omega))) (by decide)

/-- Every free block is handed out in some run. -/
theorem exists_run_alloc (hmax : p.maxBlocks ≤ 2 ^ 31)
    (hb : b < p.maxBlocks) (hfree : p.isUsed b = false) :
    ∃ calls s, Run Step ⟨p, ∅⟩ calls s ∧ s.pmm.pmmAllocBlock.1 = b * blockSize := by
  obtain ⟨calls, s, hrun, hblocks, hstill, hbelow⟩ :=
    exists_run_below hmax hb hfree le_rfl
  refine ⟨calls, s, hrun, ?_⟩
  rcases alloc_cases (p := s.pmm) (by omega) with ⟨c, hc, hclear, hlow, halloc⟩ | ⟨hall, -⟩
  · have hcb : c = b := by
      rcases lt_trichotomy c b with hlt | heq | hgt
      · exact absurd (hclear.symm.trans (hbelow c hlt)) (by decide)
      · exact heq
      · exact absurd (hstill.symm.trans (hlow b hgt)) (by decide)
    rw [halloc, hcb]
  · exact absurd (hstill.symm.trans (hall b (by omega))) (by decide)

/-- An address handed out after a run was free at its start. -/
theorem run_alloc (hmax : p.maxBlocks ≤ 2 ^ 31) {calls : List Call} {s : Custody}
    (hrun : Run Step ⟨p, ∅⟩ calls s) (hne : s.pmm.pmmAllocBlock.1 ≠ 0) :
    ∃ b < p.maxBlocks, s.pmm.pmmAllocBlock.1 = b * blockSize ∧ p.isUsed b = false := by
  have hnext : Run Step ⟨p, ∅⟩ (calls ++ [.alloc]) s.alloc :=
    hrun.append (.cons .alloc (.nil _))
  refine run_outstanding hmax hnext _ ?_
  rw [alloc, if_neg hne]
  exact Finset.mem_insert_self _ _

end Custody

namespace MemoryMap

variable {map : MemoryMap} {b : ℕ}

/-- Entries are page-aligned ranges of 52-bit physical addresses. -/
structure Physical (map : MemoryMap) : Prop where
  aligned : ∀ e ∈ map, e.base % 4096 = 0 ∧ e.length % 4096 = 0
  below : ∀ e ∈ map, e.base + e.length ≤ 2 ^ 52

/-- The physical address of the word that holds the bit of block `b`. -/
def wordPhys (map : MemoryMap) (b : ℕ) : ℤ :=
  map.bitmapPhys + 4 * Pmm.wordOf (CInt.toI32 b)

/-- The block at `addr` contains a byte of the word of block `b`. -/
def Overlaps (map : MemoryMap) (addr b : ℕ) : Prop :=
  (addr : ℤ) < map.wordPhys b + 4 ∧ map.wordPhys b < addr + blockSize

/-- The usable entry chosen for the bitmap holds every word of it. -/
def HoldsBitmap (map : MemoryMap) : Prop :=
  ∃ e ∈ map, e.type = LimineMemmapEntry.usable ∧ 0x100000 ≤ e.length ∧
    e.base = map.bitmapPhys ∧ ∀ b < map.memSize / 4096,
      e.base ≤ map.wordPhys b ∧ map.wordPhys b + 4 ≤ e.base + e.length

/-- No allocation returns a block with a word of the bitmap. -/
def ProtectsBitmap (map : MemoryMap) (p : Pmm) : Prop :=
  ∀ calls s, Run Custody.Step ⟨p, ∅⟩ calls s → s.pmm.pmmAllocBlock.1 ≠ 0 →
    ∀ b < p.maxBlocks, ¬ map.Overlaps s.pmm.pmmAllocBlock.1 b

/-- The word is read at its address in the direct map. -/
theorem wordAddr_eq (p : Pmm) {hhdmOffset : ℕ}
    (hbitmap : p.pmmBitmap = (hhdmOffset + map.bitmapPhys) % 2 ^ 64) :
    p.wordAddr (Pmm.wordOf (CInt.toI32 b)) = CInt.toU64 (hhdmOffset + map.wordPhys b) := by
  unfold Pmm.wordAddr wordPhys CInt.toU64
  rw [hbitmap]
  omega

/-! ## The range of the block numbers -/

theorem foldl_scanEntry_le (hbelow : ∀ e ∈ map, e.type = LimineMemmapEntry.usable →
    e.base + e.length ≤ 2 ^ 52) (found : ℕ × ℕ) :
    found.1 ≤ (map.foldl scanEntry found).1 ∧ ∀ e ∈ map, e.type = LimineMemmapEntry.usable →
      e.base + e.length ≤ (map.foldl scanEntry found).1 := by
  induction map generalizing found with
  | nil => exact ⟨le_rfl, fun e he => absurd he List.not_mem_nil⟩
  | cons e rest ih =>
      obtain ⟨hgrow, hrest⟩ := ih (fun e' he' => hbelow e' (List.mem_cons_of_mem _ he'))
        (scanEntry found e)
      have hend := hbelow e List.mem_cons_self
      have hfound : found.1 ≤ (scanEntry found e).1 := by
        unfold scanEntry
        dsimp only
        split <;> omega
      refine ⟨hfound.trans hgrow, ?_⟩
      intro e' he' husable
      rcases List.mem_cons.mp he' with rfl | hmem
      · refine le_trans ?_ hgrow
        unfold scanEntry
        dsimp only
        split
        · omega
        · next hnot =>
          have hend := hend husable
          simp only [husable, true_and, not_lt] at hnot
          omega
      · exact hrest e' hmem husable

theorem wordPhys_natCast (hb : b < 2 ^ 31) :
    map.wordPhys b = map.bitmapPhys + 4 * (b / 32 : ℕ) := by
  rw [wordPhys, CInt.toI32_natCast hb, Pmm.wordOf_natCast]

/-- A bitmap inside its entry numbers its blocks with non-negative `int`s. -/
theorem HoldsBitmap.memBlocks_le (hholds : map.HoldsBitmap) : map.memSize / 4096 ≤ 2 ^ 31 := by
  obtain ⟨e, -, -, -, hbase, hwords⟩ := hholds
  by_contra hlarge
  have hword := (hwords (2 ^ 31) (by omega)).1
  have hindex : Pmm.wordOf (CInt.toI32 (2 ^ 31 : ℕ)) = -2 ^ 26 := by decide +kernel
  rw [wordPhys, hindex, hbase] at hword
  omega

theorem Reserved.isUsed {p : Pmm} (hreserved : map.Reserved b) (hb : b < 2 ^ 31)
    (hphys : map.bitmapPhys < 2 ^ 43) (hsize : map.bitmapSize < 2 ^ 40) :
    (p.pmmDeinitRegion map.bitmapPhys map.bitmapSize).isUsed b = true :=
  (Pmm.isUsed_pmmDeinitRegion hb hphys hsize).mpr (Or.inr hreserved)

/-- A usable block outside the reservation tests free after boot. -/
theorem bootPmm_free (hmap : map.Physical) (hsize : map.memSize < 2 ^ 43)
    (hphys : map.bitmapPhys < 2 ^ 43) (hpos : 0 < b) (hb : b < 2 ^ 31) (husable : map.Usable b)
    (hfree : ¬ map.Reserved b) (hhdmOffset : ℕ) (mem : Memory) :
    (map.bootPmm hhdmOffset mem).isUsed b = false := by
  have hbelow : ∀ e ∈ map, e.type = LimineMemmapEntry.usable → e.base + e.length < 2 ^ 43 :=
    fun e he htype =>
      ((foldl_scanEntry_le (fun e' he' _ => hmap.below e' he') _).2 e he htype).trans_lt hsize
  have hbitmap : map.bitmapSize < 2 ^ 40 := by
    unfold bitmapSize
    omega
  rw [← Bool.not_eq_true, bootPmm, Pmm.isUsed_pmmDeinitRegion hb hphys hbitmap,
    foldl_initEntry hmap.aligned hbelow hb]
  rintro ((⟨hzero, -⟩ | ⟨-, hnot⟩) | hreserved)
  · omega
  · exact hnot husable
  · exact hfree hreserved

/-! ## When the bitmap is protected -/

/-- The words of the bitmap end inside the reserved blocks. -/
def WordsReserved (map : MemoryMap) : Prop :=
  map.memSize / 4096 % 32768 = 0 ∨ 8 ≤ map.memSize / 4096 % 32768

/-- Reserved words are never handed out. -/
theorem WordsReserved.protectsBitmap (hmap : map.Physical) (hholds : map.HoldsBitmap)
    (hwords : map.WordsReserved) (hhdmOffset : ℕ) (mem : Memory) :
    map.ProtectsBitmap (map.bootPmm hhdmOffset mem) := by
  have hblocks := hholds.memBlocks_le
  have hmax := bootPmm_maxBlocks map hhdmOffset mem
  obtain ⟨e, he, husable, hlength, hbase, -⟩ := hholds
  have hend := (foldl_scanEntry_le (fun e' he' _ => hmap.below e' he') (0, 0)).2 e he husable
  change e.base + e.length ≤ map.memSize at hend
  have haligned := (hmap.aligned e he).1
  intro calls s hrun hne b hb hoverlap
  rw [hmax] at hb
  obtain ⟨c, hc, haddr, hfree⟩ := Custody.run_alloc (by rw [hmax]; exact hblocks) hrun hne
  rw [Overlaps, haddr, wordPhys_natCast (by omega)] at hoverlap
  rw [hmax] at hc
  have hreserved : map.Reserved c := by
    unfold WordsReserved at hwords
    unfold Reserved bitmapSize
    unfold blockSize at hoverlap
    rw [hbase] at haligned
    omega
  have hbitmap : map.bitmapSize < 2 ^ 40 := by
    unfold bitmapSize
    omega
  have hused := hreserved.isUsed (by omega) (by omega) hbitmap
    (p := map.initRegions (Pmm.pmmInitialize mem map.memSize
      ((hhdmOffset + map.bitmapPhys) % 2 ^ 64)))
  exact absurd (hfree.symm.trans hused) (by decide)

/-- Otherwise the block behind the reservation holds the last word, and is free. -/
theorem not_protectsBitmap (hmap : map.Physical) (hholds : map.HoldsBitmap)
    (hwords : ¬ map.WordsReserved) (hhdmOffset : ℕ) (mem : Memory) :
    ¬ map.ProtectsBitmap (map.bootPmm hhdmOffset mem) := by
  have hblocks := hholds.memBlocks_le
  have hmax := bootPmm_maxBlocks map hhdmOffset mem
  unfold WordsReserved at hwords
  obtain ⟨e, he, husable, hlength, hbase, hinside⟩ := hholds
  have hend := (foldl_scanEntry_le (fun e' he' _ => hmap.below e' he') (0, 0)).2 e he husable
  change e.base + e.length ≤ map.memSize at hend
  obtain ⟨halignedBase, halignedLength⟩ := hmap.aligned e he
  have hlast := (hinside (map.memSize / 4096 - 1) (by omega)).2
  rw [wordPhys_natCast (by omega)] at hlast
  have hspill : map.Usable (map.bitmapPhys / 4096 + map.memSize / 4096 / 32768) := by
    refine ⟨e, he, husable, ?_⟩
    unfold LimineMemmapEntry.Covers blockSize
    omega
  have hfree : ¬ map.Reserved (map.bitmapPhys / 4096 + map.memSize / 4096 / 32768) := by
    unfold Reserved bitmapSize
    omega
  have hclear := bootPmm_free hmap (by omega) (by omega) (by omega) (by omega) hspill hfree
    hhdmOffset mem
  obtain ⟨calls, s, hrun, haddr⟩ := Custody.exists_run_alloc (by rw [hmax]; exact hblocks)
    (by rw [hmax]; omega) hclear
  intro hprotects
  refine hprotects calls s hrun ?_ (map.memSize / 4096 - 1) (by rw [hmax]; omega) ?_
  · rw [haddr]
    unfold blockSize
    omega
  · rw [Overlaps, haddr, wordPhys_natCast (by omega)]
    unfold blockSize
    omega

/-- The bitmap protects its storage exactly when its last word does not start a
page of its own that the byte count of the reservation leaves out. -/
theorem protectsBitmap_iff (hmap : map.Physical) (hholds : map.HoldsBitmap) (hhdmOffset : ℕ)
    (mem : Memory) :
    map.ProtectsBitmap (map.bootPmm hhdmOffset mem) ↔ map.WordsReserved := by
  constructor
  · intro hprotects
    by_contra hwords
    exact not_protectsBitmap hmap hholds hwords hhdmOffset mem hprotects
  · exact fun hwords => hwords.protectsBitmap hmap hholds hhdmOffset mem

theorem gapMap_holdsBitmap : gapMap.HoldsBitmap := by
  have hsize : gapMap.memSize / 4096 = 259 := by decide
  have hphys : gapMap.bitmapPhys = 0x1000 := by decide
  refine ⟨⟨0x1000, 0x100000, 0⟩, by decide, by decide, by decide, by decide, ?_⟩
  intro b hb
  rw [wordPhys_natCast (by omega), hphys]
  dsimp only
  omega

theorem gapMap_protectsBitmap :
    gapMap.ProtectsBitmap (gapMap.bootPmm 0xFFFF800000000000 fun _ => 0) :=
  (protectsBitmap_iff ⟨by decide, by decide⟩ gapMap_holdsBitmap _ _).mpr (by
    unfold WordsReserved
    decide)

/-- 32769 blocks: the reservation of 4096 bytes leaves out the last word. -/
def spillMap : MemoryMap := [⟨0x1000, 0x8000000, 0⟩]

theorem spillMap_holdsBitmap : spillMap.HoldsBitmap := by
  have hsize : spillMap.memSize / 4096 = 32769 := by decide
  have hphys : spillMap.bitmapPhys = 0x1000 := by decide
  refine ⟨⟨0x1000, 0x8000000, 0⟩, by decide, by decide, by decide, by decide, ?_⟩
  intro b hb
  rw [wordPhys_natCast (by omega), hphys]
  dsimp only
  omega

/-- The last word's block is handed out. -/
theorem spillMap_unprotected :
    spillMap.Physical ∧ spillMap.HoldsBitmap ∧
      ¬ spillMap.ProtectsBitmap (spillMap.bootPmm 0xFFFF800000000000 fun _ => 0) := by
  have hphysical : spillMap.Physical := ⟨by decide, by decide⟩
  refine ⟨hphysical, spillMap_holdsBitmap, ?_⟩
  refine not_protectsBitmap hphysical spillMap_holdsBitmap ?_ _ _
  unfold WordsReserved
  decide

end MemoryMap

end BadOS.Kernel
