import BadOS.Kernel.BitmapPlacement
import BadOS.Kernel.PhysicalBoot

/-! # The machine that is handed over

`_start` sets up the frame allocator in the memory that the bootloader hands over. The
bitmap has its room in usable memory, so neither the tables nor the ramdisk change, and
the machine is ready for the rest of the boot.
-/

namespace BadOS.Kernel

open Kex

namespace Pmm

/-- `q` has the bitmap of `p`, after stores to its words. -/
structure Stores (lo len : ℕ) (p q : Pmm) : Prop where
  bitmap_eq : q.pmmBitmap = p.pmmBitmap
  maxBlocks_eq : q.maxBlocks = p.maxBlocks
  outside : ∀ x, x < lo ∨ lo + len ≤ x → q.mem x = p.mem x

variable {p q r : Pmm} {lo len a n : ℕ} {b : ℤ}

theorem Stores.refl (lo len : ℕ) (p : Pmm) : Stores lo len p p := ⟨rfl, rfl, fun _ _ => rfl⟩

theorem Stores.trans (hfirst : Stores lo len p q) (hsecond : Stores lo len q r) :
    Stores lo len p r :=
  ⟨hsecond.bitmap_eq.trans hfirst.bitmap_eq, hsecond.maxBlocks_eq.trans hfirst.maxBlocks_eq,
    fun x hx => (hsecond.outside x hx).trans (hfirst.outside x hx)⟩

theorem WordInside.setWord (hb : p.WordInside lo len b) (v : ℕ) :
    Stores lo len p (p.setWord (wordOf b) v) := by
  obtain ⟨hlo, hhi⟩ := hb
  exact ⟨rfl, rfl, fun x hx => Memory.store_outside (by omega)⟩

theorem WordInside.mmapSet (hb : p.WordInside lo len b) : Stores lo len p (p.mmapSet b) :=
  hb.setWord _

theorem WordInside.markFree (hb : p.WordInside lo len b) : Stores lo len p (p.markFree b) := by
  have hword := hb.setWord (p.word (wordOf b) &&& (0xFFFFFFFF ^^^ 1 <<< shiftOf b))
  exact ⟨rfl, rfl, hword.outside⟩

theorem WordInside.markUsed (hb : p.WordInside lo len b) : Stores lo len p (p.markUsed b) := by
  have hword := hb.setWord (p.word (wordOf b) ||| 1 <<< shiftOf b)
  exact ⟨rfl, rfl, hword.outside⟩

theorem BitmapIn.of_stores (hbitmap : p.BitmapIn lo len) (hstores : Stores lo len p q) :
    q.BitmapIn lo len := hbitmap.congr hstores.bitmap_eq hstores.maxBlocks_eq

/-- A loop that marks the blocks from `a` on stores to the bitmap. -/
theorem BitmapIn.times (hbitmap : p.BitmapIn lo len) (hn : a + n ≤ p.maxBlocks)
    {mark : Pmm → ℤ → Pmm}
    (hmark : ∀ q : Pmm, ∀ b, q.WordInside lo len b → Stores lo len q (mark q b)) :
    Stores lo len p
      (Loop.times n (fun i p => mark p (CInt.toI32 ((a : ℤ) + (i : ℕ)))) p) := by
  refine Loop.times_invariant (fun _ q => Stores lo len p q) _ n p (.refl lo len p) ?_
  intro i hi q hq
  have hword := (hbitmap.of_stores hq).wordInside (i := a + i) (by rw [hq.maxBlocks_eq]; omega)
  rw [Nat.cast_add] at hword
  exact hq.trans (hmark q _ hword)

theorem BitmapIn.pmmInitRegion (hbitmap : p.BitmapIn lo len) {base size : ℕ}
    (hpos : 0 < p.maxBlocks) (hrange : base / 4096 + size / 4096 ≤ p.maxBlocks)
    (hbelow : base + size < 2 ^ 43) : Stores lo len p (p.pmmInitRegion base size) := by
  have hblocks : Stores lo len p (p.markFreeFrom (CInt.toI32 (base / 4096 : ℕ))
      (CInt.toI32 (size / 4096 : ℕ))) := by
    rw [CInt.toI32_natCast (by omega), CInt.toI32_natCast (by omega), markFreeFrom,
      Int.toNat_natCast]
    exact hbitmap.times hrange fun q b hb => hb.markFree
  have hzero := (hbitmap.of_stores hblocks).wordInside (i := 0)
    (by rw [hblocks.maxBlocks_eq]; exact hpos)
  have hbit : CInt.toI32 ((0 : ℕ) : ℤ) = 0 := CInt.toI32_natCast (by norm_num)
  rw [hbit] at hzero
  exact hblocks.trans hzero.mmapSet

theorem BitmapIn.pmmDeinitRegion (hbitmap : p.BitmapIn lo len) {base size : ℕ}
    (hrange : base / 4096 + (size + 4095) / 4096 ≤ p.maxBlocks) (hbase : base < 2 ^ 43)
    (hsize : size < 2 ^ 40) :
    Stores lo len p (p.pmmDeinitRegion base size) := by
  have hround : roundedBlocks size = (size + 4095) / 4096 := by
    unfold roundedBlocks blockSize
    omega
  have hblocks : Stores lo len p (p.markUsedFrom (CInt.toI32 (base / 4096 : ℕ))
      (CInt.toI32 ((size + 4095) / 4096 : ℕ))) := by
    rw [CInt.toI32_natCast (by omega), CInt.toI32_natCast (by omega), markUsedFrom,
      Int.toNat_natCast]
    exact hbitmap.times hrange fun q b hb => hb.markUsed
  rw [← hround] at hblocks
  exact hblocks

end Pmm

namespace Machine

/-- The memory and the allocator are those of `p`. -/
def withPmm (m : Machine) (p : Pmm) : Machine := { m with mem := p.mem, pmm := p }

@[simp] theorem withPmm_mem (m : Machine) (p : Pmm) : (m.withPmm p).mem = p.mem := rfl

@[simp] theorem withPmm_cr3 (m : Machine) (p : Pmm) : (m.withPmm p).cr3 = m.cr3 := rfl

@[simp] theorem withPmm_pmm (m : Machine) (p : Pmm) : (m.withPmm p).pmm = p := rfl

@[simp] theorem withPmm_granted (m : Machine) (p : Pmm) : (m.withPmm p).granted = m.granted := rfl

@[simp] theorem withPmm_physPmm (m : Machine) (p : Pmm) : (m.withPmm p).physPmm = p := rfl

end Machine

namespace MemoryMap

variable {map rest : MemoryMap} {m : Machine} {p : Pmm} {lo len rd hhdmOffset : ℕ} {mem : Memory}

/-- The loop over the usable entries stores to the bitmap. -/
theorem initRegions_stores (hbitmap : p.BitmapIn lo len) (hpos : 0 < p.maxBlocks)
    (haligned : ∀ e ∈ map, e.base % 4096 = 0 ∧ e.length % 4096 = 0)
    (hends : ∀ e ∈ map, e.type = LimineMemmapEntry.usable →
      e.base / 4096 + e.length / 4096 ≤ p.maxBlocks ∧ e.base + e.length < 2 ^ 43) :
    Pmm.Stores lo len p (map.initRegions p) := by
  unfold initRegions
  induction map generalizing p with
  | nil => exact .refl lo len p
  | cons e rest ih =>
      have hentry : Pmm.Stores lo len p (initEntry p e) := by
        unfold initEntry
        split
        · next husable =>
          obtain ⟨hrange, hbelow⟩ := hends e List.mem_cons_self husable
          exact hbitmap.pmmInitRegion hpos hrange hbelow
        · exact .refl lo len p
      have hmax := hentry.maxBlocks_eq
      refine hentry.trans (ih (hbitmap.of_stores hentry) (by rw [hmax]; exact hpos)
        (fun e' he' => haligned e' (List.mem_cons_of_mem e he')) fun e' he' husable => ?_)
      rw [hmax]
      exact hends e' (List.mem_cons_of_mem e he') husable

/-- The bitmap that is set up is in the bytes of its words, and nothing else changes. -/
theorem bootPmm_stores (hmap : map.WellFormed) (hholds : map.HoldsBitmap) (mem : Memory) :
    (map.bootPmm 0 mem).BitmapIn map.bitmapPhys (bitmapBytes map.memSize) ∧
      ∀ x, x < map.bitmapPhys ∨ map.bitmapPhys + bitmapBytes map.memSize ≤ x →
        (map.bootPmm 0 mem).mem x = mem x := by
  have hsize := memSize_lt hmap
  obtain ⟨e, he, husable, hlength, hbase, hwords⟩ := hholds
  have hends := (foldl_scanEntry_le (fun e he husable => (hmap.below e he husable).le.trans
    (by decide)) (0, 0)).2
  have hfits := (forall_wordPhys_iff hsize hbase).mp hwords
  have hend := hends e he husable
  change e.base + e.length ≤ map.memSize at hend
  have hbelow := hmap.below e he husable
  obtain ⟨halignedBase, halignedLength⟩ := hmap.aligned e he
  generalize hstart : Pmm.pmmInitialize mem map.memSize ((0 + map.bitmapPhys) % 2 ^ 64) = start
  have hmax : start.maxBlocks = map.memSize / 4096 := by rw [← hstart]; rfl
  have hin : start.BitmapIn map.bitmapPhys (bitmapBytes map.memSize) := by
    refine ⟨?_, ?_, ?_, ?_⟩
    · rw [← hstart]
      change (0 + map.bitmapPhys) % 2 ^ 64 = _
      omega
    · rw [hmax]
      exact le_refl _
    · omega
    · omega
  have hregions : Pmm.Stores map.bitmapPhys (bitmapBytes map.memSize) start
      (map.initRegions start) := by
    refine initRegions_stores hin (by omega) hmap.aligned fun e he husable => ?_
    have hend := hends e he husable
    change e.base + e.length ≤ map.memSize at hend
    have haligned := hmap.aligned e he
    exact ⟨by omega, hmap.below e he husable⟩
  have hdeinit : Pmm.Stores map.bitmapPhys (bitmapBytes map.memSize) (map.initRegions start)
      ((map.initRegions start).pmmDeinitRegion map.bitmapPhys map.bitmapSize) := by
    refine (hin.of_stores hregions).pmmDeinitRegion ?_ (by omega) ?_
    · rw [hregions.maxBlocks_eq, hmax]
      unfold bitmapSize
      unfold bitmapBytes at hfits
      omega
    · unfold bitmapSize
      omega
  have hall := hregions.trans hdeinit
  unfold bootPmm
  dsimp only
  rw [hstart]
  refine ⟨hin.of_stores hall, fun x hx => (hall.outside x hx).trans ?_⟩
  have hmem : start.mem = Libc.memset mem ((0 + map.bitmapPhys) % 2 ^ 64) 0xFF
      (map.memSize / 4096 / 8) := by rw [← hstart]; rfl
  rw [hmem, Libc.memset_eq_fill]
  unfold bitmapBytes at hx
  exact Memory.fill_outside (by omega)

/-! ## The hand-over -/

instance (map : MemoryMap) : DecidablePred map.Reserved := fun _ =>
  inferInstanceAs (Decidable (_ ∧ _))

/-- The number of usable frames that do not hold the bitmap. -/
def available (map : MemoryMap) : ℕ :=
  ((Finset.range (map.memSize / 4096)).filter fun b => map.Usable b ∧ ¬ map.Reserved b).card

/-- The machine when `_start` calls `vmm_initialize`: the bitmap has been set up in its
memory. -/
def setUp (map : MemoryMap) (m : Machine) : Machine := m.withPmm (map.bootPmm 0 m.mem)

/-- What the bootloader hands over: the bitmap has room where it is placed, with its last
word in the blocks reserved for it, and neither the tables of the bootloader nor the ramdisk
are in usable memory. -/
structure Handover (map : MemoryMap) (hhdmOffset : ℕ) (m : Machine) (rd len : ℕ) : Prop where
  wellFormed : map.WellFormed
  hhdm : hhdmOffset + 2 ^ 44 ≤ 2 ^ 64
  room : map.HoldsBitmap
  words : map.WordsReserved
  tail : map.TailMarked 0 m.mem
  granted : m.granted = []
  tree : m.TreeOn {288}
  tables : ∀ q ∈ paths {288}, ∀ f, m.node q = some f →
    ¬ map.Usable f ∧ Machine.Apart (4096 * f) rd len
  ramdisk : ∀ b, map.Usable b → Machine.Apart (4096 * b) rd len
  below : rd + len ≤ 2 ^ 44

/-- A block with a byte of the bitmap is usable. -/
theorem HoldsBitmap.usable (hmap : map.WellFormed) (hholds : map.HoldsBitmap) {b : ℕ}
    (hlo : map.bitmapPhys < 4096 * b + 4096)
    (hhi : 4096 * b < map.bitmapPhys + bitmapBytes map.memSize) : map.Usable b := by
  have hsize := memSize_lt hmap
  obtain ⟨e, he, husable, -, hbase, hwords⟩ := hholds
  have hfits := (forall_wordPhys_iff hsize hbase).mp hwords
  have haligned := hmap.aligned e he
  refine ⟨e, he, husable, ?_⟩
  unfold LimineMemmapEntry.Covers blockSize
  omega

theorem HoldsBitmap.bitmapBytes_pos (hmap : map.WellFormed) (hholds : map.HoldsBitmap) :
    0 < bitmapBytes map.memSize := by
  obtain ⟨e, he, husable, hlength, -, -⟩ := hholds
  have hend := (foldl_scanEntry_le (fun e he husable => (hmap.below e he husable).le.trans
    (by decide)) (0, 0)).2 e he husable
  change e.base + e.length ≤ map.memSize at hend
  unfold bitmapBytes
  omega

theorem setUp_cr3 (map : MemoryMap) (m : Machine) : (map.setUp m).cr3 = m.cr3 := m.withPmm_cr3 _

theorem setUp_granted (map : MemoryMap) (m : Machine) : (map.setUp m).granted = m.granted :=
  m.withPmm_granted _

theorem setUp_pmm (map : MemoryMap) (m : Machine) : (map.setUp m).pmm = map.bootPmm 0 m.mem :=
  m.withPmm_pmm _

theorem setUp_mem (map : MemoryMap) (m : Machine) :
    (map.setUp m).mem = (map.bootPmm 0 m.mem).mem := m.withPmm_mem _

theorem setUp_maxBlocks (map : MemoryMap) (m : Machine) :
    (map.setUp m).pmm.maxBlocks = map.memSize / 4096 := by
  rw [setUp_pmm, bootPmm_maxBlocks]

theorem setUp_physPmm (map : MemoryMap) (m : Machine) :
    (map.setUp m).physPmm = (map.setUp m).pmm := by
  rw [setUp_pmm]
  exact m.withPmm_physPmm _

section Handover

variable (hboot : map.Handover hhdmOffset m rd len)

include hboot

theorem Handover.isUsed_iff {b : ℕ} (hb : b < map.memSize / 4096) :
    (map.bootPmm 0 m.mem).isUsed b = true ↔ ¬ (map.Usable b ∧ ¬ map.Reserved b) := by
  have honly := (bootPmm_onlyUsableFree_iff hboot.wellFormed (by decide) m.mem).mpr hboot.tail
  have hfree := honly.free_iff b (by rwa [bootPmm_maxBlocks])
  rw [Pmm.mmapTest_eq_zero_iff] at hfree
  rw [← hfree, Bool.not_eq_false]

theorem Handover.sound : (map.setUp m).pmm.Sound := by
  have hsize := memSize_lt hboot.wellFormed
  have hmax := setUp_maxBlocks map m
  refine ⟨?_, fun hpos => ?_⟩
  · rw [hmax]
    omega
  · rw [hmax] at hpos
    rw [setUp_pmm]
    exact (hboot.isUsed_iff hpos).mpr fun h => not_usable_zero hboot.wellFormed h.1

theorem Handover.freeBlocks_eq : (map.setUp m).pmm.freeBlocks = map.available := by
  have hmarked : Custody.marked (map.bootPmm 0 m.mem) =
      ((Finset.range (map.memSize / 4096)).filter
        fun b => ¬ (map.Usable b ∧ ¬ map.Reserved b)).card := by
    unfold Custody.marked PackedBits.count
    rw [bootPmm_maxBlocks]
    exact congrArg Finset.card (Finset.filter_congr fun b hb =>
      hboot.isUsed_iff (Finset.mem_range.mp hb))
  have hsplit := Finset.card_filter_add_card_filter_not (s := Finset.range (map.memSize / 4096))
    fun b => map.Usable b ∧ ¬ map.Reserved b
  rw [Finset.card_range] at hsplit
  rw [setUp_pmm]
  unfold Pmm.freeBlocks available
  rw [hmarked, bootPmm_maxBlocks]
  omega

/-- A block that is free once the bitmap is set up. -/
theorem Handover.usable_of_free {i : ℕ} (hi : i < (map.setUp m).pmm.maxBlocks)
    (hfree : (map.setUp m).pmm.isUsed (CInt.toI32 i) = false) :
    map.Usable i ∧ ¬ map.Reserved i := by
  have hsize := memSize_lt hboot.wellFormed
  have hmax := setUp_maxBlocks map m
  rw [hmax] at hi
  rw [CInt.toI32_natCast (by omega), setUp_pmm] at hfree
  by_contra hnot
  have hused := (hboot.isUsed_iff hi).mpr hnot
  exact absurd (hfree.symm.trans hused) (by decide)

/-- The bitmap is in no table. -/
theorem Handover.tables_apart {q : List (Fin 512)} (hq : q ∈ paths {288}) {f : ℕ}
    (hf : m.node q = some f) :
    Machine.Apart (4096 * f) map.bitmapPhys (bitmapBytes map.memSize) := by
  have hnot := (hboot.tables q hq f hf).1
  unfold Machine.Apart
  by_contra hmeets
  exact hnot (hboot.room.usable hboot.wellFormed (by omega) (by omega))

theorem Handover.sameTables : Machine.SameTables {288} m (map.setUp m) := by
  refine ⟨setUp_cr3 map m, fun x hx => ?_⟩
  rw [setUp_mem]
  refine (bootPmm_stores hboot.wellFormed hboot.room m.mem).2 x ?_
  obtain ⟨q, hq, hnode⟩ := hx
  have hapart := hboot.tables_apart hq hnode
  unfold Machine.Apart at hapart
  omega

/-- The bitmap and the ramdisk are apart. -/
theorem Handover.ramdisk_apart (hpos : 0 < len) :
    rd + len ≤ map.bitmapPhys ∨ map.bitmapPhys + bitmapBytes map.memSize ≤ rd := by
  have hbytes := hboot.room.bitmapBytes_pos hboot.wellFormed
  by_contra hmeets
  obtain ⟨e, he, -, -, hbase, -⟩ := hboot.room
  have haligned := (hboot.wellFormed.aligned e he).1
  rcases Nat.lt_or_ge rd map.bitmapPhys with hbefore | hbehind
  · have hapart := hboot.ramdisk (map.bitmapPhys / 4096)
      (hboot.room.usable hboot.wellFormed (by omega) (by omega))
    unfold Machine.Apart at hapart
    omega
  · have hapart := hboot.ramdisk (rd / 4096)
      (hboot.room.usable hboot.wellFormed (by omega) (by omega))
    unfold Machine.Apart at hapart
    omega

/-- Setting up the bitmap leaves the ramdisk alone. -/
theorem Handover.ramdisk_eq {x : ℕ} (hlo : rd ≤ x) (hhi : x < rd + len) :
    (map.setUp m).mem x = m.mem x := by
  have hapart := hboot.ramdisk_apart (by omega)
  rw [setUp_mem]
  exact (bootPmm_stores hboot.wellFormed hboot.room m.mem).2 x (by omega)

theorem Handover.bootReady : Machine.BootReady (map.setUp m) rd len := by
  have hsize := memSize_lt hboot.wellFormed
  have hmax := setUp_maxBlocks map m
  have hsame := hboot.sameTables
  refine ⟨by omega, hsame.treeOn hboot.tree, ?_, fun i hi hfree => ?_, fun q hq f hf => ?_⟩
  · rw [setUp_granted]
    exact hboot.granted
  · obtain ⟨husable, -⟩ := hboot.usable_of_free hi hfree
    refine ⟨fun q hq hnode => ?_, hboot.ramdisk i husable⟩
    rw [hsame.node_eq hq] at hnode
    exact (hboot.tables q hq i hnode).1 husable
  · rw [hsame.node_eq hq] at hf
    exact (hboot.tables q hq f hf).2

/-- The machine that is set up is ready for the boot, its bitmap in its memory. -/
theorem Handover.physReady (hpos : 0 < len) :
    Machine.PhysReady (map.setUp m) rd len map.bitmapPhys (bitmapBytes map.memSize) := by
  have hready := hboot.bootReady
  have hsame := hboot.sameTables
  have hbitmap := (bootPmm_stores hboot.wellFormed hboot.room m.mem).1
  rw [← setUp_pmm] at hbitmap
  refine ⟨hready, ?_, setUp_physPmm map m, hbitmap, hboot.ramdisk_apart hpos⟩
  refine ⟨hready.maxBlocks, hready.tree, hready.granted, fun i hi hfree => ?_, fun q hq f hf => ?_⟩
  · refine ⟨(hready.unused i hi hfree).1, ?_⟩
    obtain ⟨-, hreserved⟩ := hboot.usable_of_free hi hfree
    have hwords := hboot.words
    obtain ⟨e, he, -, -, hbase, -⟩ := hboot.room
    have haligned := (hboot.wellFormed.aligned e he).1
    unfold Reserved bitmapSize at hreserved
    unfold WordsReserved at hwords
    unfold Machine.Apart bitmapBytes
    omega
  · rw [hsame.node_eq hq] at hf
    exact hboot.tables_apart hq hf

end Handover

end MemoryMap

end BadOS.Kernel
