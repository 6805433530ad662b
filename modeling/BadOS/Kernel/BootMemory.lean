import BadOS.Kernel.PmmOwnership

/-! # Setting up the frame allocator

The part of the kernel's `_start` that builds the bitmap from the bootloader's
memory map, and which blocks test free afterwards.
-/

namespace BadOS.Kernel

structure LimineMemmapEntry where
  base : ℕ
  length : ℕ
  type : ℕ
deriving DecidableEq

namespace LimineMemmapEntry

/-- `LIMINE_MEMMAP_USABLE`. -/
def usable : ℕ := 0

/-- The block lies inside the entry. -/
abbrev Covers (e : LimineMemmapEntry) (b : ℕ) : Prop :=
  e.base ≤ b * blockSize ∧ (b + 1) * blockSize ≤ e.base + e.length

end LimineMemmapEntry

abbrev MemoryMap := List LimineMemmapEntry

namespace MemoryMap

/-- One round of the first loop, on `mem_size` and `bitmap_phys`. -/
def scanEntry (found : ℕ × ℕ) (e : LimineMemmapEntry) : ℕ × ℕ :=
  let memSize :=
    if e.type = LimineMemmapEntry.usable ∧ found.1 < (e.base + e.length) % 2 ^ 64 then
      (e.base + e.length) % 2 ^ 64
    else found.1
  let bitmapPhys :=
    if e.type = LimineMemmapEntry.usable ∧ 0x100000 ≤ e.length ∧ found.2 = 0 then e.base
    else found.2
  (memSize, bitmapPhys)

def scan (map : MemoryMap) : ℕ × ℕ := map.foldl scanEntry (0, 0)

def memSize (map : MemoryMap) : ℕ := map.scan.1

def bitmapPhys (map : MemoryMap) : ℕ := map.scan.2

/-- One round of the second loop. -/
def initEntry (p : Pmm) (e : LimineMemmapEntry) : Pmm :=
  if e.type = LimineMemmapEntry.usable then p.pmmInitRegion e.base e.length else p

def initRegions (map : MemoryMap) (p : Pmm) : Pmm := map.foldl initEntry p

def bitmapSize (map : MemoryMap) : ℕ := map.memSize / 4096 / 8

/-- The set-up in `_start`, with the memory the bitmap is placed in. -/
def bootPmm (map : MemoryMap) (hhdmOffset : ℕ) (mem : Memory) : Pmm :=
  let p := Pmm.pmmInitialize mem map.memSize ((hhdmOffset + map.bitmapPhys) % 2 ^ 64)
  (map.initRegions p).pmmDeinitRegion map.bitmapPhys map.bitmapSize

/-- What the bootloader promises: entries are page-aligned, the first page is
never usable, and usable memory ends below 8 TiB. -/
structure WellFormed (map : MemoryMap) : Prop where
  aligned : ∀ e ∈ map, e.base % 4096 = 0 ∧ e.length % 4096 = 0
  first : ∀ e ∈ map, e.type = LimineMemmapEntry.usable → ¬ e.Covers 0
  below : ∀ e ∈ map, e.type = LimineMemmapEntry.usable → e.base + e.length < 2 ^ 43

/-- The block lies inside a usable entry. -/
def Usable (map : MemoryMap) (b : ℕ) : Prop :=
  ∃ e ∈ map, e.type = LimineMemmapEntry.usable ∧ e.Covers b

instance (map : MemoryMap) : DecidablePred map.Usable := fun b =>
  inferInstanceAs (Decidable (∃ e ∈ map, e.type = LimineMemmapEntry.usable ∧ e.Covers b))

/-- The block holds a part of the bitmap. -/
def Reserved (map : MemoryMap) (b : ℕ) : Prop :=
  map.bitmapPhys / 4096 ≤ b ∧ b < map.bitmapPhys / 4096 + (map.bitmapSize + 4095) / 4096

end MemoryMap

namespace Pmm

variable {p : Pmm} {c : ℤ} {b : ℕ}

/-! ## Marking regions -/

theorem isUsed_markFreeFrom (hc : IsInt c) (a : ℤ) (n : ℕ) :
    (p.markFreeFrom a n).isUsed c = true ↔
      p.isUsed c = true ∧ ∀ i < n, ¬ SameBit c (CInt.toI32 (a + i)) := by
  rw [markFreeFrom, Int.toNat_natCast]
  induction n with
  | zero => simp
  | succ n ih =>
      rw [Loop.times_succ, isUsed_markFree (isInt_toI32 _) hc, Bool.and_eq_true, ih,
        Nat.forall_lt_succ_right, Bool.not_eq_true', decide_eq_false_iff_not]
      tauto

theorem isUsed_markUsedFrom (hc : IsInt c) (a : ℤ) (n : ℕ) :
    (p.markUsedFrom a n).isUsed c = true ↔
      p.isUsed c = true ∨ ∃ i < n, SameBit c (CInt.toI32 (a + i)) := by
  rw [markUsedFrom, Int.toNat_natCast]
  induction n with
  | zero => simp
  | succ n ih =>
      rw [Loop.times_succ, isUsed_markUsed (isInt_toI32 _) hc, Bool.or_eq_true, ih,
        Nat.exists_lt_succ_right, decide_eq_true_eq, or_comm, or_assoc]

/-- Block numbers counted up from `a` as `int`s. -/
theorem exists_sameBit_iff {a n : ℕ} (hb : b < 2 ^ 31) (hn : a + n ≤ 2 ^ 31 + 2 ^ 30) :
    (∃ i < n, SameBit (b : ℤ) (CInt.toI32 ((a : ℤ) + (i : ℕ)))) ↔ a ≤ b ∧ b < a + n := by
  constructor
  · rintro ⟨i, hi, hsame⟩
    by_cases hrange : a + i < 2 ^ 31
    · rw [← Nat.cast_add, CInt.toI32_natCast hrange, sameBit_natCast] at hsame
      omega
    · -- Past the largest `int` the count goes on below zero, before the bitmap.
      have hwrap : CInt.toI32 ((a : ℤ) + (i : ℕ)) = (a : ℤ) + i - 2 ^ 32 :=
        calc CInt.toI32 ((a : ℤ) + (i : ℕ))
            = CInt.toI32 ((a : ℤ) + i - 2 ^ 32 + 1 * 2 ^ 32) := by
              congr 1
              omega
          _ = CInt.toI32 ((a : ℤ) + i - 2 ^ 32) := CInt.toI32_add_mul _ _
          _ = (a : ℤ) + i - 2 ^ 32 := CInt.toI32_of_range (by omega) (by omega)
      rw [hwrap] at hsame
      have hword := hsame.1
      have hneg := wordOf_neg (show (a : ℤ) + i - 2 ^ 32 ≤ -32 by omega)
      rw [wordOf_natCast] at hword
      omega
  · rintro ⟨hlo, hhi⟩
    refine ⟨b - a, by omega, ?_⟩
    rw [show (a : ℤ) + ((b - a : ℕ) : ℤ) = (b : ℤ) by omega, CInt.toI32_natCast hb]
    exact ⟨rfl, rfl⟩

theorem isUsed_pmmInitRegion {base size : ℕ} (hb : b < 2 ^ 31) (hrange : base + size < 2 ^ 43) :
    (p.pmmInitRegion base size).isUsed b = true ↔
      b = 0 ∨ p.isUsed b = true ∧ ¬ (base / 4096 ≤ b ∧ b < base / 4096 + size / 4096) := by
  have hzero : SameBit (b : ℤ) (0 : ℤ) ↔ b = 0 := sameBit_natCast (j := 0)
  unfold pmmInitRegion blockSize
  rw [isUsed_mmapSet isInt_zero (isInt_natCast hb), Bool.or_eq_true, decide_eq_true_eq, hzero,
    CInt.toI32_natCast (by omega), CInt.toI32_natCast (by omega),
    isUsed_markFreeFrom (isInt_natCast hb), ← exists_sameBit_iff hb (by omega)]
  simp only [not_exists, not_and]

theorem isUsed_pmmDeinitRegion {base size : ℕ} (hb : b < 2 ^ 31) (hbase : base < 2 ^ 43)
    (hsize : size < 2 ^ 40) :
    (p.pmmDeinitRegion base size).isUsed b = true ↔
      p.isUsed b = true ∨
        base / 4096 ≤ b ∧ b < base / 4096 + (size + 4095) / 4096 := by
  have hround : roundedBlocks size = (size + 4095) / 4096 := by
    unfold roundedBlocks blockSize
    omega
  unfold pmmDeinitRegion blockSize
  rw [hround, CInt.toI32_natCast (by omega), CInt.toI32_natCast (by omega),
    isUsed_markUsedFrom (isInt_natCast hb), exists_sameBit_iff hb (by omega)]

/-- Every bit of a byte of ones is set. -/
theorem testBit_ones (b : ℕ) : (0xFF : UInt8).toNat.testBit (b % 8) = true := by
  have hr : b % 8 < 8 := Nat.mod_lt _ (by decide)
  generalize b % 8 = r at hr
  decide +revert

/-- The bits after the fill: below the last whole byte they are set, above it
they are what memory held before. -/
theorem isUsed_pmmInitialize {mem : Memory} {memSize start : ℕ} (hb : b < 2 ^ 31)
    (hstart : start + 2 ^ 32 ≤ 2 ^ 64) :
    (pmmInitialize mem memSize start).isUsed b =
      (decide (b < memSize / 4096 / 8 * 8) || (mem (start + b / 8)).toNat.testBit (b % 8)) := by
  have haddr : CInt.toU64 ((start : ℤ) + 4 * (b / 32 : ℕ)) = start + 4 * (b / 32) := by
    unfold CInt.toU64
    omega
  have hbyte : start + 4 * (b / 32) + b % 32 / 8 = start + b / 8 := by omega
  have hbit : b % 32 % 8 = b % 8 := by omega
  have hff : UInt8.ofNat (CInt.toU8 0xFF) = 0xFF := by decide +kernel
  unfold isUsed word wordAddr pmmInitialize
  dsimp only [blockSize]
  rw [wordOf_natCast, shiftOf_natCast, haddr, Memory.testBit_load (by omega), hbyte, hbit,
    Libc.memset_eq_fill, hff]
  by_cases hfilled : b < memSize / 4096 / 8 * 8
  · rw [Memory.fill_inside (by omega) (by omega), testBit_ones, decide_eq_true hfilled,
      Bool.true_or]
  · rw [Memory.fill_outside (by omega), decide_eq_false hfilled, Bool.false_or]

end Pmm

namespace MemoryMap

variable {map : MemoryMap} {b : ℕ}

/-! ## The two loops over the map -/

theorem foldl_scanEntry (hbelow : ∀ e ∈ map, e.type = LimineMemmapEntry.usable →
    e.base + e.length < 2 ^ 43) (found : ℕ × ℕ) (hsize : found.1 < 2 ^ 43)
    (hphys : found.2 < 2 ^ 43) :
    (map.foldl scanEntry found).1 < 2 ^ 43 ∧ (map.foldl scanEntry found).2 < 2 ^ 43 ∧
      (found.1 < (map.foldl scanEntry found).1 →
        ∃ e ∈ map, e.type = LimineMemmapEntry.usable) := by
  induction map generalizing found with
  | nil => exact ⟨hsize, hphys, fun h => absurd h (lt_irrefl _)⟩
  | cons e rest ih =>
      have hrest : ∀ e ∈ rest, e.type = LimineMemmapEntry.usable → e.base + e.length < 2 ^ 43 :=
        fun e he => hbelow e (List.mem_cons_of_mem _ he)
      have hhead := hbelow e List.mem_cons_self
      rw [List.foldl_cons]
      by_cases husable : e.type = LimineMemmapEntry.usable
      · have hend := hhead husable
        have hscan : (scanEntry found e).1 < 2 ^ 43 ∧ (scanEntry found e).2 < 2 ^ 43 := by
          unfold scanEntry
          dsimp only
          constructor <;> split <;> omega
        obtain ⟨hsize', hphys', -⟩ := ih hrest _ hscan.1 hscan.2
        exact ⟨hsize', hphys', fun _ => ⟨e, List.mem_cons_self, husable⟩⟩
      · have hscan : scanEntry found e = found := by simp [scanEntry, husable]
        rw [hscan]
        obtain ⟨hsize', hphys', hexists⟩ := ih hrest _ hsize hphys
        refine ⟨hsize', hphys', fun hlt => ?_⟩
        obtain ⟨e', he', husable'⟩ := hexists hlt
        exact ⟨e', List.mem_cons_of_mem _ he', husable'⟩

theorem covers_iff {e : LimineMemmapEntry} (haligned : e.base % 4096 = 0 ∧ e.length % 4096 = 0) :
    e.Covers b ↔ e.base / 4096 ≤ b ∧ b < e.base / 4096 + e.length / 4096 := by
  unfold LimineMemmapEntry.Covers blockSize
  omega

theorem foldl_initEntry (haligned : ∀ e ∈ map, e.base % 4096 = 0 ∧ e.length % 4096 = 0)
    (hbelow : ∀ e ∈ map, e.type = LimineMemmapEntry.usable → e.base + e.length < 2 ^ 43)
    (hb : b < 2 ^ 31) {p : Pmm} :
    (map.initRegions p).isUsed b = true ↔
      (b = 0 ∧ ∃ e ∈ map, e.type = LimineMemmapEntry.usable) ∨
        p.isUsed b = true ∧ ¬ map.Usable b := by
  unfold initRegions
  induction map generalizing p with
  | nil => simp [Usable]
  | cons e rest ih =>
      rw [List.foldl_cons, ih (fun e he => haligned e (List.mem_cons_of_mem _ he))
        (fun e he => hbelow e (List.mem_cons_of_mem _ he))]
      by_cases husable : e.type = LimineMemmapEntry.usable
      · have hcovers := covers_iff (b := b) (haligned e List.mem_cons_self)
        have hlater : MemoryMap.Usable rest b →
            ∃ e' ∈ rest, e'.type = LimineMemmapEntry.usable := by
          rintro ⟨e', he', husable', -⟩
          exact ⟨e', he', husable'⟩
        rw [initEntry, if_pos husable,
          Pmm.isUsed_pmmInitRegion hb (hbelow e List.mem_cons_self husable), ← hcovers]
        have hsplit : MemoryMap.Usable (e :: rest) b ↔ e.Covers b ∨ MemoryMap.Usable rest b := by
          simp [MemoryMap.Usable, husable]
        have hexists : ∃ e' ∈ e :: rest, e'.type = LimineMemmapEntry.usable :=
          ⟨e, List.mem_cons_self, husable⟩
        rw [hsplit, and_iff_left hexists, not_or]
        -- What is left is propositional: an entry frees its blocks, and takes back block 0.
        clear hcovers hsplit hexists haligned hbelow
        generalize e.Covers b = here
        generalize (∃ e' ∈ rest, e'.type = LimineMemmapEntry.usable) = more at hlater ⊢
        generalize MemoryMap.Usable rest b = later at hlater ⊢
        generalize (p.isUsed b = true) = old
        generalize (b = 0) = zero
        tauto
      · have hsplit : MemoryMap.Usable (e :: rest) b ↔ MemoryMap.Usable rest b := by
          simp [MemoryMap.Usable, husable]
        have hexists : (∃ e' ∈ e :: rest, e'.type = LimineMemmapEntry.usable) ↔
            ∃ e' ∈ rest, e'.type = LimineMemmapEntry.usable := by
          simp [husable]
        rw [initEntry, if_neg husable, hsplit, hexists]

/-! ## The bitmap after boot -/

/-- Memory held a set bit for the block where the bitmap is placed. -/
def StaleBit (map : MemoryMap) (hhdmOffset : ℕ) (mem : Memory) (b : ℕ) : Prop :=
  (mem (hhdmOffset + map.bitmapPhys + b / 8)).toNat.testBit (b % 8) = true

theorem maxBlocks_times {f : ℕ → Pmm → Pmm} (n : ℕ) (p : Pmm)
    (hf : ∀ i q, (f i q).maxBlocks = q.maxBlocks) :
    (Loop.times n f p).maxBlocks = p.maxBlocks := by
  induction n with
  | zero => rfl
  | succ n ih => rw [Loop.times_succ, hf, ih]

theorem markFreeFrom_maxBlocks (p : Pmm) (align blocks : ℤ) :
    (p.markFreeFrom align blocks).maxBlocks = p.maxBlocks :=
  maxBlocks_times _ p fun _ q => q.markFree_maxBlocks _

theorem markUsedFrom_maxBlocks (p : Pmm) (align blocks : ℤ) :
    (p.markUsedFrom align blocks).maxBlocks = p.maxBlocks :=
  maxBlocks_times _ p fun _ q => q.markUsed_maxBlocks _

theorem initEntry_maxBlocks (p : Pmm) (e : LimineMemmapEntry) :
    (initEntry p e).maxBlocks = p.maxBlocks := by
  unfold initEntry
  split
  · rw [Pmm.pmmInitRegion, Pmm.mmapSet_maxBlocks, markFreeFrom_maxBlocks]
  · rfl

theorem initRegions_maxBlocks (map : MemoryMap) (p : Pmm) :
    (map.initRegions p).maxBlocks = p.maxBlocks := by
  unfold initRegions
  induction map generalizing p with
  | nil => rfl
  | cons e rest ih => rw [List.foldl_cons, ih, initEntry_maxBlocks]

theorem bootPmm_maxBlocks (map : MemoryMap) (hhdmOffset : ℕ) (mem : Memory) :
    (map.bootPmm hhdmOffset mem).maxBlocks = map.memSize / 4096 := by
  rw [bootPmm, Pmm.pmmDeinitRegion, markUsedFrom_maxBlocks, initRegions_maxBlocks]
  rfl

theorem memSize_lt (hmap : map.WellFormed) : map.memSize < 2 ^ 43 :=
  (foldl_scanEntry hmap.below _ (by decide) (by decide)).1

theorem not_usable_zero (hmap : map.WellFormed) : ¬ map.Usable 0 := by
  rintro ⟨e, he, htype, hcovers⟩
  exact hmap.first e he htype hcovers

/-- Which blocks are marked after boot. -/
theorem bootPmm_isUsed (hmap : map.WellFormed) {hhdmOffset : ℕ}
    (hhdm : hhdmOffset + 2 ^ 44 ≤ 2 ^ 64) (mem : Memory) (hb : b < map.memSize / 4096) :
    (map.bootPmm hhdmOffset mem).isUsed b = true ↔
      map.Reserved b ∨ ¬ map.Usable b ∧
        (b = 0 ∨ b < map.memSize / 4096 / 8 * 8 ∨ map.StaleBit hhdmOffset mem b) := by
  have hsize := memSize_lt hmap
  obtain ⟨-, hphys, hexists⟩ :=
    foldl_scanEntry hmap.below (0, 0) (by decide) (by decide)
  change map.bitmapPhys < 2 ^ 43 at hphys
  have hstart : (hhdmOffset + map.bitmapPhys) % 2 ^ 64 = hhdmOffset + map.bitmapPhys :=
    Nat.mod_eq_of_lt (by omega)
  have hblock : b < 2 ^ 31 := by omega
  have husable := hexists (show 0 < map.memSize by omega)
  have hbitmapSize : map.bitmapSize < 2 ^ 40 := by
    unfold bitmapSize
    omega
  have hzero : b = 0 → ¬ map.Usable b := fun h => h ▸ not_usable_zero hmap
  rw [bootPmm, Pmm.isUsed_pmmDeinitRegion hblock hphys hbitmapSize,
    foldl_initEntry hmap.aligned hmap.below hblock,
    hstart, Pmm.isUsed_pmmInitialize hblock (by omega), and_iff_left husable, Bool.or_eq_true,
    decide_eq_true_eq, or_comm]
  apply or_congr Iff.rfl
  unfold StaleBit
  constructor
  · rintro (hb₀ | ⟨hold, hnot⟩)
    · exact ⟨hzero hb₀, Or.inl hb₀⟩
    · exact ⟨hnot, Or.inr hold⟩
  · rintro ⟨hnot, hb₀ | hold⟩
    · exact Or.inl hb₀
    · exact Or.inr ⟨hold, hnot⟩

/-- The free blocks are those in usable memory that do not hold the bitmap, and
no others are ever handed out. -/
structure OnlyUsableFree (map : MemoryMap) (p : Pmm) : Prop where
  free_iff : ∀ b < p.maxBlocks, p.mmapTest b = 0 ↔ map.Usable b ∧ ¬ map.Reserved b
  granted : ∀ calls s, Execution.Run Custody.Step ⟨p, ∅⟩ calls s →
    ∀ addr ∈ s.outstanding, map.Usable (addr / blockSize) ∧ ¬ map.Reserved (addr / blockSize)

/-- The blocks behind the last whole byte of the fill that are not usable had
their bits set before. -/
def TailMarked (map : MemoryMap) (hhdmOffset : ℕ) (mem : Memory) : Prop :=
  ∀ b < map.memSize / 4096, map.memSize / 4096 / 8 * 8 ≤ b → b ≠ 0 → ¬ map.Usable b →
    ¬ map.Reserved b → map.StaleBit hhdmOffset mem b

/-- After boot only usable memory is free, exactly when memory happened to hold
set bits for the unusable blocks the fill leaves out. -/
theorem bootPmm_onlyUsableFree_iff (hmap : map.WellFormed) {hhdmOffset : ℕ}
    (hhdm : hhdmOffset + 2 ^ 44 ≤ 2 ^ 64) (mem : Memory) :
    OnlyUsableFree map (map.bootPmm hhdmOffset mem) ↔ map.TailMarked hhdmOffset mem := by
  have hsize := memSize_lt hmap
  have hmax := bootPmm_maxBlocks map hhdmOffset mem
  have hfree : ∀ b < map.memSize / 4096, (map.bootPmm hhdmOffset mem).mmapTest b = 0 ↔
      ¬ map.Reserved b ∧ (map.Usable b ∨
        ¬ (b = 0 ∨ b < map.memSize / 4096 / 8 * 8 ∨ map.StaleBit hhdmOffset mem b)) := by
    intro b hb
    rw [Pmm.mmapTest_eq_zero_iff, ← Bool.not_eq_true, bootPmm_isUsed hmap hhdm mem hb, not_or,
      not_and_or, not_not]
  constructor
  · rintro ⟨hiff, -⟩ b hb htail hne hnot hreserved
    by_contra hstale
    have hclear := (hfree b hb).mpr ⟨hreserved, Or.inr (by
      rintro (h | h | h)
      · exact hne h
      · omega
      · exact hstale h)⟩
    exact hnot ((hiff b (hmax ▸ hb)).mp hclear).1
  · intro htail
    have hiff : ∀ b < (map.bootPmm hhdmOffset mem).maxBlocks,
        (map.bootPmm hhdmOffset mem).mmapTest b = 0 ↔ map.Usable b ∧ ¬ map.Reserved b := by
      intro b hb
      rw [hmax] at hb
      rw [hfree b hb, and_comm]
      apply and_congr_left
      intro hreserved
      constructor
      · rintro (husable | hclear)
        · exact husable
        · by_contra hnot
          simp only [not_or, not_lt] at hclear
          exact hclear.2.2 (htail b hb hclear.2.1 hclear.1 hnot hreserved)
      · exact Or.inl
    refine ⟨hiff, ?_⟩
    intro calls s hrun addr hmem
    obtain ⟨b, hb, rfl, hinitial⟩ := Custody.run_outstanding (by rw [hmax]; omega) hrun addr hmem
    rw [Nat.mul_div_cancel b (by decide)]
    exact (hiff b hb).mp (Pmm.mmapTest_eq_zero_iff.mpr hinitial)

/-- A megabyte of usable memory, one page that is not usable, and one that is. -/
def gapMap : MemoryMap := [⟨0x1000, 0x100000, 0⟩, ⟨0x102000, 0x1000, 0⟩]

theorem gapMap_wellFormed : gapMap.WellFormed := by
  constructor <;> decide

/-- On memory that held zeros, the page in the gap tests free. -/
theorem gapMap_frees_gap :
    ¬ OnlyUsableFree gapMap (gapMap.bootPmm 0xFFFF800000000000 fun _ => 0) := by
  rintro ⟨hiff, -⟩
  have hblocks : gapMap.memSize / 4096 = 259 := by decide
  have hgap : (257 : ℕ) < gapMap.memSize / 4096 := by
    rw [hblocks]
    decide
  have hhdm : 0xFFFF800000000000 + 2 ^ 44 ≤ 2 ^ 64 := by decide
  have hnot : ¬ gapMap.Usable 257 := by decide
  have hclear : ¬ (gapMap.bootPmm 0xFFFF800000000000 fun _ => 0).isUsed (257 : ℕ) = true := by
    rw [bootPmm_isUsed gapMap_wellFormed hhdm _ hgap, hblocks]
    rintro (hreserved | ⟨-, hzero | hfilled | hstale⟩)
    · exact absurd hreserved.2 (by decide)
    · exact absurd hzero (by decide)
    · exact absurd hfilled (by decide)
    · simp [StaleBit] at hstale
  have hfree := (hiff 257 (by rwa [bootPmm_maxBlocks])).mp
    (Pmm.mmapTest_eq_zero_iff.mpr (Bool.not_eq_true _ ▸ hclear))
  exact hnot hfree.1

/-- On memory that held ones, it does not. -/
theorem gapMap_onlyUsableFree :
    OnlyUsableFree gapMap (gapMap.bootPmm 0xFFFF800000000000 fun _ => 0xFF) :=
  (bootPmm_onlyUsableFree_iff gapMap_wellFormed (by decide) _).mpr
    fun b _ _ _ _ _ => Pmm.testBit_ones b

end MemoryMap

end BadOS.Kernel
