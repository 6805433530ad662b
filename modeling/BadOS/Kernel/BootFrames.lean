import BadOS.Kernel.KexImage
import BadOS.Kernel.Ledger

/-! # Frames in use after boot

`_start` makes a clean root table, maps the heap and the video and loads a KEX
file. Every frame these steps take from the allocator has one role.
-/

namespace BadOS.Kernel

open Kex RadixTree

namespace Machine

/-- `heap_start`. -/
def heapStart : ℕ := 0xFFFF900000000000

/-- The pages of the 16 MiB heap. -/
def heapPages : ℕ := 16 * 1024 * 1024 / 4096

/-- The loop that maps the heap. -/
def mapHeap (m : Machine) (alloc : Allocator := allocBlock) : Machine :=
  Loop.times heapPages (fun i m => m.mapNewPage .heap (heapStart + 4096 * i) 3 alloc) m

/-- `pages_needed` of the video. -/
def pagesNeeded (vidPhys vidSize : ℕ) : ℕ := (vidSize + vidPhys % 4096 + 4095) % 2 ^ 64 / 4096

/-- The loop that maps the video at 0x80000000. -/
def mapVideo (m : Machine) (vidPhys vidSize : ℕ) (alloc : Allocator := allocBlock) : Machine :=
  Loop.times (pagesNeeded vidPhys vidSize) (fun i m =>
    m.vmmMapPage ((4096 * (vidPhys / 4096) + i * 4096) % 2 ^ 64)
      ((0x80000000 + i * 4096) % 2 ^ 64) 0x7 alloc) m

/-- The slots of the lower half. -/
def lowerSlots : Set (Fin 512) := {i | i.val < 256}

/-- The slots of the lower half and of the heap. -/
def bootSlots : Set (Fin 512) := {i | i.val < 256 ∨ i.val = 288}

/-- The machine when `_start` calls `vmm_initialize`: the free frames are neither
tables of the bootloader nor part of the ramdisk. -/
structure BootReady (m : Machine) (file len : ℕ) : Prop where
  maxBlocks : m.pmm.maxBlocks ≤ 2 ^ 40
  tree : m.TreeOn {288}
  granted : m.granted = []
  unused : ∀ i < m.pmm.maxBlocks, m.pmm.isUsed (CInt.toI32 i) = false →
    (∀ q ∈ paths {288}, m.node q ≠ some i) ∧ Apart (4096 * i) file len
  apart : ∀ q ∈ paths {288}, ∀ f, m.node q = some f → Apart (4096 * f) file len

variable {old base m m' : Machine} {slots : Set (Fin 512)} {file len n k virt : ℕ}
variable {new more : List (FrameRole × ℕ)} {role : FrameRole}

/-! ## The clean root table -/

theorem tables_of_outside {mem mem' : Memory} {f : ℕ}
    (h : ∀ x, x / 4096 = f → mem' x = mem x) (i : Fin 512) : tables mem' f i = tables mem f i := by
  apply Memory.load_congr
  intro k hk
  have hi := i.isLt
  exact h _ (by omega)

/-- A loop that sets the entries from `lo` on sets these and nothing else. -/
theorem times_setEntry (mem : Memory) (lo count : ℕ) (hcount : lo + count ≤ 512)
    (value : ℕ → Memory → ℕ) (v : Fin 512 → ℕ) (hbound : ∀ i, v i < 2 ^ 64)
    (hvalue : ∀ i < count, ∀ (hi : lo + i < 512) (mem' : Memory),
      (∀ x, x / 4096 ≠ n → mem' x = mem x) → value i mem' = v ⟨lo + i, hi⟩) :
    (∀ j : Fin 512, tables (Loop.times count (fun i mem =>
      BadOS.Kernel.setEntry mem (4096 * n) (lo + i) (value i mem)) mem) n j =
        if lo ≤ j.val ∧ j.val < lo + count then v j else tables mem n j) ∧
    ∀ x, x / 4096 ≠ n → Loop.times count (fun i mem =>
      BadOS.Kernel.setEntry mem (4096 * n) (lo + i) (value i mem)) mem x = mem x := by
  apply Loop.times_invariant (fun c (mem' : Memory) =>
    (∀ j : Fin 512, tables mem' n j =
      if lo ≤ j.val ∧ j.val < lo + c then v j else tables mem n j) ∧
    ∀ x, x / 4096 ≠ n → mem' x = mem x)
  · refine ⟨fun j => ?_, fun _ _ => rfl⟩
    rw [if_neg (by omega)]
  · intro i hi mem' hinv
    obtain ⟨hentries, houtside⟩ := hinv
    have hlt : lo + i < 512 := by omega
    have hset := tables_setEntry mem' n ⟨lo + i, hlt⟩ (hbound ⟨lo + i, hlt⟩)
    dsimp only at hset
    rw [hvalue i hi hlt mem' houtside]
    refine ⟨fun j => ?_, fun x hx => ?_⟩
    · rw [hset, RadixTree.setEntry]
      by_cases hj : j.val = lo + i
      · obtain rfl : j = ⟨lo + i, hlt⟩ := Fin.ext hj
        rw [if_pos ⟨rfl, rfl⟩, if_pos (by dsimp only; omega)]
      · rw [if_neg (fun h => hj (congrArg Fin.val h.2)), hentries j]
        by_cases hin : lo ≤ j.val ∧ j.val < lo + i
        · rw [if_pos hin, if_pos (by omega)]
        · rw [if_neg hin, if_neg (by omega)]
    · rw [← houtside x hx]
      exact Memory.store_outside (by omega)

/-- The lower half of the new root table is empty, the upper half is copied. -/
theorem vmmInitialize_spec (hframe : m.pmm.pmmAllocBlock.1 = 4096 * n) (hn : n < 2 ^ 40)
    (hroot : n ≠ m.root) :
    m.vmmInitialize.root = n ∧
      (∀ j : Fin 512, tables m.vmmInitialize.mem n j =
        if j.val < 256 then 0 else tables m.mem m.root j) ∧
      ∀ x, x / 4096 ≠ n → m.vmmInitialize.mem x = m.mem x := by
  have hold : m.getActivePageDir = 4096 * m.root := and_addrMask m.cr3
  have hmem : m.vmmInitialize.mem = Loop.times 256 (fun i mem =>
      BadOS.Kernel.setEntry mem (4096 * n) (256 + i) (entry mem (4096 * m.root) (256 + i)))
      (Loop.times 512 (fun i mem => BadOS.Kernel.setEntry mem (4096 * n) i 0) m.mem) := by
    unfold vmmInitialize allocBlock
    dsimp only
    rw [hframe, hold]
  obtain ⟨hzero, hkept⟩ := times_setEntry (n := n) m.mem 0 512 (by decide) (fun _ _ => 0)
    (fun _ => 0) (fun _ => by decide) (fun _ _ _ _ _ => rfl)
  simp only [Nat.zero_add] at hzero hkept
  generalize hcleared : Loop.times 512
    (fun i mem => BadOS.Kernel.setEntry mem (4096 * n) i 0) m.mem = cleared at hmem hzero hkept
  have hsame : ∀ mem' : Memory, (∀ x, x / 4096 ≠ n → mem' x = cleared x) → ∀ j : Fin 512,
      tables mem' m.root j = tables m.mem m.root j := by
    intro mem' hmem' j
    apply tables_of_outside
    intro x hx
    rw [hmem' x (by omega), hkept x (by omega)]
  obtain ⟨hcopied, hkept'⟩ := times_setEntry (n := n) cleared 256 256 (by decide)
    (fun i mem => entry mem (4096 * m.root) (256 + i)) (tables m.mem m.root)
    (fun i => Memory.load_lt _ _ 8) (fun i hi hlt mem' hmem' => hsame mem' hmem' ⟨256 + i, hlt⟩)
  rw [hmem]
  refine ⟨?_, fun j => ?_, fun x hx => (hkept' x hx).trans (hkept x hx)⟩
  · have hcr3 : m.vmmInitialize.cr3 = m.pmm.pmmAllocBlock.1 := rfl
    rw [root, hcr3, hframe, frameOf]
    omega
  · have hj := j.isLt
    rw [hcopied j, hzero j]
    by_cases hlow : j.val < 256
    · rw [if_neg (by omega), if_pos (by omega), if_pos hlow]
    · rw [if_pos (by omega), if_neg hlow]

/-- Stores that agree on the tables of a path lead to the same table. -/
theorem node_eq_of_agree {store store' : ℕ → Fin 512 → ℕ} {root : ℕ} {q : List (Fin 512)}
    (h : ∀ r i, r ++ [i] <+: q → ∀ f, RadixTree.node childFrame store root r = some f →
      store' f i = store f i) :
    RadixTree.node childFrame store' root q = RadixTree.node childFrame store root q := by
  have hclosed : PrefixClosed (Set.univ : Set (List (Fin 512))) := fun _ _ _ => Set.mem_univ _
  apply node_congr hclosed (Set.mem_univ q)
  intro r i _ hpre f hf
  rw [h r i hpre f hf]

theorem ne_root_of_unused (hunused : ∀ q ∈ paths {288}, m.node q ≠ some n) : n ≠ m.root :=
  fun h => hunused [] (by simp [paths]) (by rw [h]; rfl)

/-- Below the new root are the tables the bootloader has in the slot of the heap. -/
theorem vmmInitialize_node (hframe : m.pmm.pmmAllocBlock.1 = 4096 * n) (hn : n < 2 ^ 40)
    (hunused : ∀ q ∈ paths {288}, m.node q ≠ some n) {q : List (Fin 512)}
    (hq : q ∈ paths bootSlots) (hne : q ≠ []) :
    (q ∈ paths {288} ∧ m.vmmInitialize.node q = m.node q) ∨ m.vmmInitialize.node q = none := by
  have hroot := ne_root_of_unused hunused
  obtain ⟨hnew, hentries, hkept⟩ := vmmInitialize_spec hframe hn hroot
  cases q with
  | nil => exact absurd rfl hne
  | cons i rest =>
      have hslot : i.val < 256 ∨ i.val = 288 := hq.2 i rfl
      have hentry := hentries i
      rcases hslot with hlow | hheap
      · right
        rw [node, hnew, RadixTree.node, hentry, if_pos hlow, childFrame_zero, Option.bind_none]
      · left
        obtain rfl : i = 288 := Fin.ext hheap
        have hmem : (288 : Fin 512) :: rest ∈ paths {288} :=
          ⟨hq.1, fun j hj => (Option.some_injective _ hj).symm⟩
        refine ⟨hmem, ?_⟩
        rw [node, node, hnew, RadixTree.node, RadixTree.node, hentry, if_neg (by decide)]
        generalize hchild : childFrame (tables m.mem m.root 288) = child
        cases child with
        | none => rw [Option.bind_none, Option.bind_none]
        | some f =>
            rw [Option.bind_some, Option.bind_some]
            apply node_eq_of_agree
            intro r j hpre g hg
            have hpath : (288 : Fin 512) :: r ∈ paths {288} := by
              have hlength := hpre.length_le
              have := hq.1
              simp only [List.length_append, List.length_cons, List.length_nil] at hlength this
              exact ⟨by simp only [List.length_cons]; omega,
                fun j hj => (Option.some_injective _ hj).symm⟩
            have hnode : m.node (288 :: r) = some g := by
              rw [node, RadixTree.node, hchild]
              exact hg
            have hgn : g ≠ n := fun h => hunused _ hpath (h ▸ hnode)
            exact tables_of_outside (fun x hx => hkept x (by omega)) j

theorem vmmInitialize_tree (htree : m.TreeOn {288}) (hframe : m.pmm.pmmAllocBlock.1 = 4096 * n)
    (hn : n < 2 ^ 40) (hunused : ∀ q ∈ paths {288}, m.node q ≠ some n) :
    m.vmmInitialize.TreeOn bootSlots := by
  have hroot := ne_root_of_unused hunused
  obtain ⟨hnew, -, hkept⟩ := vmmInitialize_spec hframe hn hroot
  have hnode : ∀ q ∈ paths bootSlots, ∀ f, m.vmmInitialize.node q = some f →
      q = [] ∧ f = n ∨ q ≠ [] ∧ q ∈ paths {288} ∧ m.node q = some f := by
    intro q hq f hf
    by_cases hne : q = []
    · rw [hne, node, RadixTree.node, hnew] at hf
      exact Or.inl ⟨hne, (Option.some_injective _ hf).symm⟩
    · rcases vmmInitialize_node hframe hn hunused hq hne with ⟨hpath, heq⟩ | hnone
      · exact Or.inr ⟨hne, hpath, heq ▸ hf⟩
      · rw [hnone] at hf
        cases hf
  constructor
  · intro p hp q hq f hpf hqf
    rcases hnode p hp f hpf with ⟨rfl, rfl⟩ | ⟨-, hp', hold⟩ <;>
      rcases hnode q hq f hqf with ⟨rfl, hf⟩ | ⟨-, hq', hold'⟩
    · rfl
    · exact absurd hold' (hunused q hq')
    · exact absurd (hf ▸ hold) (hunused p hp')
    · exact htree.tree p hp' q hq' f hold hold'
  · intro p hp hne hlength f hpf i hpresent
    rcases hnode p hp f hpf with ⟨rfl, -⟩ | ⟨-, hp', hold⟩
    · exact absurd rfl hne
    · have hfn : f ≠ n := fun h => hunused p hp' (h ▸ hold)
      rw [tables_of_outside (fun x hx => hkept x (by omega)) i] at hpresent ⊢
      exact htree.noLarge p hp' hne hlength f hold i hpresent

/-! ## Frames granted since the clean root table -/

theorem GrownFrom.mapNewPage (hgrown : GrownFrom base slots new m)
    (hslot : slot virt 39 ∈ slots) (role : FrameRole) (flags : ℕ)
    (hlog : ∀ more, (m.mapNewPage role virt flags).granted = more ++ base.granted →
      FreshLog base slots more) :
    ∃ more a, GrownFrom base slots (more ++ (role, a) :: new) (m.mapNewPage role virt flags) ∧
      Maps slots m a virt flags (m.mapNewPage role virt flags) := by
  obtain ⟨more, hnext, -, hmaps⟩ :=
    (hgrown.allocBlock role).vmmMapPage hslot m.pmm.pmmAllocBlock.1 flags hlog
  exact ⟨more, _, hnext, hmaps.lookup_eq, hmaps.outside⟩

/-- Frames granted later are fresh for the tables grown so far. -/
theorem GrownFrom.freshLog (hgrown : GrownFrom base slots new m)
    (hlog : FreshLog base slots (more ++ new)) : FreshLog m slots more := by
  have hnodup := hlog.nodup
  rw [List.map_append] at hnodup
  refine ⟨hnodup.of_append_left, fun g hg => ?_⟩
  obtain ⟨hframe, hunused⟩ := hlog.fresh g (List.mem_append_left new hg)
  refine ⟨hframe, fun q hq hnode => ?_⟩
  rcases hgrown.node q hq _ hnode with hold | ⟨role, -, hgrant⟩
  · exact hunused q hq hold
  · have haligned := hframe.2.1
    rw [show 4096 * (g.2 / 4096) = g.2 by omega] at hgrant
    have hdisjoint := List.disjoint_of_nodup_append hnodup
    exact hdisjoint (List.mem_map_of_mem hg) (List.mem_map.mpr ⟨_, hgrant, rfl⟩)

/-! ## The steps of the boot -/

theorem vmmInitialize_allocs (m : Machine) : Allocs m m.vmmInitialize :=
  .alloc .pml4 (.refl rfl rfl) rfl rfl

theorem vmmInitialize_granted (m : Machine) :
    m.vmmInitialize.granted = (.pml4, m.pmm.pmmAllocBlock.1) :: m.granted := rfl

/-- Every granted frame was free when the boot began. -/
theorem BootReady.granted_frame (hready : BootReady old file len) (hallocs : Allocs old m)
    (hnull : m.NeverNull) {g : FrameRole × ℕ} (hg : g ∈ m.granted) :
    ∃ i < 2 ^ 40, 0 < i ∧ g.2 = 4096 * i ∧ (∀ q ∈ paths {288}, old.node q ≠ some i) ∧
      Apart (4096 * i) file len := by
  have hledger := (Ledger.refl hready.granted).allocs hready.maxBlocks hallocs
  obtain ⟨i, hi, haddr, hfree, -⟩ := hledger.marked g hg (hnull g hg)
  obtain ⟨hunused, hapart⟩ := hready.unused i hi hfree
  have hne := hnull g hg
  have hmax := hready.maxBlocks
  exact ⟨i, by omega, by omega, haddr, hunused, hapart⟩

theorem BootReady.nodup (hready : BootReady old file len) (hallocs : Allocs old m)
    (hnull : m.NeverNull) : (m.granted.map Prod.snd).Nodup :=
  ((Ledger.refl hready.granted).allocs hready.maxBlocks hallocs).nodup hnull

/-- The frame of the root table. -/
theorem BootReady.rootFrame (hready : BootReady old file len)
    (hnull : old.vmmInitialize.NeverNull) :
    ∃ i < 2 ^ 40, 0 < i ∧ old.pmm.pmmAllocBlock.1 = 4096 * i ∧
      (∀ q ∈ paths {288}, old.node q ≠ some i) ∧ Apart (4096 * i) file len := by
  have hmem : (.pml4, old.pmm.pmmAllocBlock.1) ∈ old.vmmInitialize.granted := by
    rw [vmmInitialize_granted]
    exact List.mem_cons_self
  exact hready.granted_frame (vmmInitialize_allocs old) hnull hmem

theorem BootReady.root_eq (hready : BootReady old file len)
    (hnull : old.vmmInitialize.NeverNull) :
    4096 * old.vmmInitialize.root = old.pmm.pmmAllocBlock.1 := by
  obtain ⟨i, hi, -, hframe, hunused, -⟩ := hready.rootFrame hnull
  have hroot := ne_root_of_unused hunused
  rw [(vmmInitialize_spec hframe hi hroot).1, hframe]

/-- The tables below the new root are the root and tables of the bootloader. -/
theorem BootReady.node_cases (hready : BootReady old file len)
    (hnull : old.vmmInitialize.NeverNull) {q : List (Fin 512)} (hq : q ∈ paths bootSlots) {f : ℕ}
    (hf : old.vmmInitialize.node q = some f) :
    q = [] ∧ 4096 * f = old.pmm.pmmAllocBlock.1 ∨
      q ≠ [] ∧ q ∈ paths {288} ∧ old.node q = some f := by
  obtain ⟨i, hi, -, hframe, hunused, -⟩ := hready.rootFrame hnull
  by_cases hne : q = []
  · rw [hne, node, RadixTree.node] at hf
    rw [← hready.root_eq hnull, Option.some_injective _ hf]
    exact Or.inl ⟨hne, rfl⟩
  · rcases vmmInitialize_node hframe hi hunused hq hne with ⟨hpath, heq⟩ | hnone
    · exact Or.inr ⟨hne, hpath, heq ▸ hf⟩
    · rw [hnone] at hf
      cases hf

theorem BootReady.ready (hready : BootReady old file len)
    (hnull : old.vmmInitialize.NeverNull) : Ready old.vmmInitialize bootSlots file len := by
  obtain ⟨i, hi, -, hframe, hunused, hapart⟩ := hready.rootFrame hnull
  refine ⟨vmmInitialize_tree hready.tree hframe hi hunused, fun q hq f hf => ?_⟩
  rcases hready.node_cases hnull hq hf with ⟨-, haddr⟩ | ⟨-, hpath, hold⟩
  · rw [haddr, hframe]
    exact hapart
  · exact hready.apart q hpath f hold

theorem BootReady.file_eq (hready : BootReady old file len)
    (hnull : old.vmmInitialize.NeverNull) : SameFile old.mem old.vmmInitialize.mem file len := by
  obtain ⟨i, hi, -, hframe, hunused, hapart⟩ := hready.rootFrame hnull
  have hroot := ne_root_of_unused hunused
  intro x hlo hhi
  apply (vmmInitialize_spec hframe hi hroot).2.2
  unfold Apart at hapart
  omega

/-- What the allocator grants after `vmm_initialize`. -/
theorem BootReady.freshLog (hready : BootReady old file len)
    (hallocs : Allocs old.vmmInitialize m) (hnull : m.NeverNull)
    (hgranted : m.granted = more ++ old.vmmInitialize.granted) :
    FreshLog old.vmmInitialize bootSlots more ∧ ∀ g ∈ more, Apart g.2 file len := by
  have hall := (vmmInitialize_allocs old).trans hallocs
  have hnull₀ := hnull.of_allocs hallocs
  have hnodup := hready.nodup hall hnull
  rw [hgranted, List.map_append] at hnodup
  have hsub : ∀ g ∈ more, g ∈ m.granted := fun g hg => by
    rw [hgranted]
    exact List.mem_append_left _ hg
  refine ⟨⟨hnodup.of_append_left, fun g hg => ?_⟩, fun g hg => ?_⟩
  · obtain ⟨i, hi, hpos, haddr, hunused, -⟩ := hready.granted_frame hall hnull (hsub g hg)
    have hblock : g.2 / 4096 = i := by omega
    refine ⟨⟨by omega, by omega, by omega⟩, fun q hq hnode => ?_⟩
    rw [hblock] at hnode
    rcases hready.node_cases hnull₀ hq hnode with ⟨-, hroot⟩ | ⟨-, hpath, hold⟩
    · have hdisjoint := List.disjoint_of_nodup_append hnodup
      refine hdisjoint (List.mem_map_of_mem hg) ?_
      rw [haddr, hroot, vmmInitialize_granted, List.map_cons]
      exact List.mem_cons_self
    · exact hunused q hpath hold
  · obtain ⟨i, -, -, haddr, -, hapart⟩ := hready.granted_frame hall hnull (hsub g hg)
    rw [haddr]
    exact hapart

/-- The boot has come from `old` to `m`: the first `count` pages of the heap are
mapped to frames granted for it. -/
structure Booted (old : Machine) (file len : ℕ) (new : List (FrameRole × ℕ)) (count : ℕ)
    (m : Machine) : Prop where
  grown : GrownFrom old.vmmInitialize bootSlots new m
  file_eq : SameFile old.mem m.mem file len
  heap : ∀ i < count, ∃ a, (.heap, a) ∈ new ∧
    m.lookup (pathTo (heapStart + 4096 * i)) (slot (heapStart + 4096 * i) 12) =
      some (leafEntry a 3)

theorem slot_heapPage (hk : k < heapPages) : slot (heapStart + 4096 * k) 39 ∈ bootSlots := by
  right
  change index _ _ = 288
  unfold heapPages at hk
  unfold heapStart
  rw [index_eq]
  omega

theorem page_heapPage_injective {i j : ℕ} (hi : i < heapPages) (hj : j < heapPages)
    (h : page (heapStart + 4096 * i) = page (heapStart + 4096 * j)) : i = j := by
  unfold heapPages at hi hj
  unfold page heapStart at h
  omega

/-- Mapping a page that is none of the heap keeps what has been done. -/
theorem Booted.map (hready : BootReady old file len) (hbooted : Booted old file len new k m)
    (hgrown : GrownFrom old.vmmInitialize bootSlots (more ++ new) m')
    (hallocs : Allocs old.vmmInitialize m') (hnull : m'.NeverNull) {phys flags : ℕ}
    (hmaps : Maps bootSlots m phys virt flags m')
    (hk : k ≤ heapPages) (hother : ∀ i < k, page (heapStart + 4096 * i) ≠ page virt) :
    Booted old file len (more ++ new) k m' := by
  have hapart := (hready.freshLog hallocs hnull hgrown.granted).2
  have hready₀ := hready.ready (hnull.of_allocs hallocs)
  refine ⟨hgrown, fun x hlo hhi => ?_, fun i hi => ?_⟩
  · rw [← hbooted.file_eq x hlo hhi]
    exact hmaps.outside x fun q hq => hgrown.file_not_table hready₀ hapart hlo hhi hq
  · obtain ⟨a, hgrant, hleaf⟩ := hbooted.heap i hi
    have hpath := (mem_paths_of_slot (slot_heapPage (by omega : i < heapPages))).2.2
    refine ⟨a, List.mem_append_right more hgrant, ?_⟩
    rw [hmaps.lookup_eq _ hpath rfl, if_neg, hleaf]
    exact fun h => hother i hi (page_eq_iff.mpr h)

/-- The allocator grants fresh frames as long as it does not fail. -/
theorem BootReady.fresh_of_allocs (hready : BootReady old file len)
    (hallocs : Allocs old.vmmInitialize m) (hnull : m.NeverNull) :
    ∀ more, m.granted = more ++ old.vmmInitialize.granted →
      FreshLog old.vmmInitialize bootSlots more :=
  fun _ hgranted => (hready.freshLog hallocs hnull hgranted).1

theorem Booted.mapHeapPage (hready : BootReady old file len)
    (hbooted : Booted old file len new k m) (hallocs : Allocs old.vmmInitialize m)
    (hk : k < heapPages) (hnull : (m.mapNewPage .heap (heapStart + 4096 * k) 3).NeverNull) :
    ∃ new', Booted old file len new' (k + 1)
      (m.mapNewPage .heap (heapStart + 4096 * k) 3) := by
  have hslot := slot_heapPage hk
  have hallocs' := hallocs.trans (mapNewPage_allocs m .heap (heapStart + 4096 * k) 3)
  obtain ⟨more, a, hgrown, hmaps⟩ := hbooted.grown.mapNewPage hslot .heap 3
    (hready.fresh_of_allocs hallocs' hnull)
  generalize m.mapNewPage .heap (heapStart + 4096 * k) 3 = m' at *
  have hlist : more ++ (.heap, a) :: new = (more ++ [(.heap, a)]) ++ new := by simp
  rw [hlist] at hgrown
  have hkept := hbooted.map hready hgrown hallocs' hnull hmaps (by omega) fun i hi h =>
    absurd (page_heapPage_injective (by omega) hk h) (by omega)
  refine ⟨_, hkept.grown, hkept.file_eq, fun i hi => ?_⟩
  rcases Nat.lt_succ_iff_lt_or_eq.mp hi with hlt | rfl
  · exact hkept.heap i hlt
  · refine ⟨a, by simp, ?_⟩
    rw [hmaps.lookup_eq _ (mem_paths_of_slot hslot).2.2 rfl, if_pos ⟨rfl, rfl⟩]

/-- The loop that maps the heap. -/
theorem BootReady.mapHeap (hready : BootReady old file len)
    (hnull : old.vmmInitialize.mapHeap.NeverNull) :
    Allocs old.vmmInitialize old.vmmInitialize.mapHeap ∧
      ∃ new, Booted old file len new heapPages old.vmmInitialize.mapHeap := by
  have hloop : Allocs old.vmmInitialize old.vmmInitialize.mapHeap ∧
      (old.vmmInitialize.mapHeap.NeverNull →
        ∃ new, Booted old file len new heapPages old.vmmInitialize.mapHeap) := by
    unfold Machine.mapHeap
    apply Loop.times_invariant (fun i m => Allocs old.vmmInitialize m ∧
      (m.NeverNull → ∃ new, Booted old file len new i m))
    · refine ⟨.refl rfl rfl, fun hnull => ⟨[], .refl (hready.ready hnull).tree,
        hready.file_eq hnull, fun i hi => absurd hi (Nat.not_lt_zero i)⟩⟩
    · intro i hi m hinv
      obtain ⟨hallocs, hbooted⟩ := hinv
      have hstep := mapNewPage_allocs m .heap (heapStart + 4096 * i) 3
      refine ⟨hallocs.trans hstep, fun hnull => ?_⟩
      obtain ⟨new, hbooted⟩ := hbooted (hnull.of_allocs hstep)
      exact hbooted.mapHeapPage hready hallocs hi hnull
  exact ⟨hloop.1, hloop.2 hnull⟩

/-- What the kernel does with its heap: only bytes of heap pages change. -/
structure HeapStores (m m' : Machine) : Prop where
  cr3_eq : m'.cr3 = m.cr3
  pmm_eq : m'.pmm = m.pmm
  granted_eq : m'.granted = m.granted
  outside : ∀ x, (∀ a, (.heap, a) ∈ m.granted → ¬ (a ≤ x ∧ x < a + 4096)) → m'.mem x = m.mem x

/-- The heap and the tables are in different frames. -/
theorem Booted.sameTables (hready : BootReady old file len)
    (hbooted : Booted old file len new k m) (hallocs : Allocs old.vmmInitialize m)
    (hnull : m.NeverNull) (hstores : HeapStores m m') : SameTables bootSlots m m' := by
  have hlog := (hready.freshLog hallocs hnull hbooted.grown.granted).1
  refine ⟨hstores.cr3_eq, fun x hx => hstores.outside x fun a ha hin => ?_⟩
  rw [hbooted.grown.granted, vmmInitialize_granted, hready.granted] at ha
  have hgrant : (.heap, a) ∈ new := by simpa using ha
  obtain ⟨q, hq, hnode⟩ := hx
  have haligned := (hlog.isFrame hgrant).2.1
  rw [show x / 4096 = a / 4096 by omega] at hnode
  exact hbooted.grown.node_ne hlog hgrant rfl hq hnode

theorem Booted.heapStores (hready : BootReady old file len)
    (hbooted : Booted old file len new k m) (hallocs : Allocs old.vmmInitialize m)
    (hnull : m.NeverNull) (hk : k ≤ heapPages) (hstores : HeapStores m m') :
    Booted old file len new k m' := by
  have hapart := (hready.freshLog hallocs hnull hbooted.grown.granted).2
  have hheap : ∀ a, (.heap, a) ∈ m.granted → (.heap, a) ∈ new := by
    intro a ha
    rw [hbooted.grown.granted, vmmInitialize_granted, hready.granted] at ha
    simpa using ha
  have hsame := hbooted.sameTables hready hallocs hnull hstores
  refine ⟨hbooted.grown.sameTables hsame hstores.granted_eq, fun x hlo hhi => ?_, fun i hi => ?_⟩
  · rw [← hbooted.file_eq x hlo hhi]
    apply hstores.outside
    intro a ha hin
    have := hapart _ (hheap a ha)
    unfold Apart at this
    dsimp only at this
    omega
  · obtain ⟨a, hgrant, hleaf⟩ := hbooted.heap i hi
    have hpath := (mem_paths_of_slot (slot_heapPage (by omega : i < heapPages))).2.2
    exact ⟨a, hgrant, (hsame.lookup_eq hpath _).trans hleaf⟩

theorem lowerSlots_subset : lowerSlots ⊆ bootSlots := fun _ hi => Or.inl hi

theorem slot_mem_lowerSlots (hvirt : virt < 2 ^ 47) : slot virt 39 ∈ lowerSlots := by
  change index _ _ < 256
  rw [index_eq]
  omega

theorem slot_lower (hvirt : virt < 2 ^ 47) : slot virt 39 ∈ bootSlots :=
  Or.inl (slot_mem_lowerSlots hvirt)

theorem page_heapPage_ne {i : ℕ} (hi : i < heapPages) (hvirt : virt < 2 ^ 47) :
    page (heapStart + 4096 * i) ≠ page virt := by
  intro h
  unfold heapPages at hi
  unfold page heapStart at h
  omega

theorem mapVideo_allocs (m : Machine) (vidPhys vidSize : ℕ) :
    Allocs m (m.mapVideo vidPhys vidSize) :=
  Loop.times_invariant (fun _ m' => Allocs m m') _ _ m (.refl rfl rfl)
    fun _ _ m' hallocs => hallocs.trans (vmmMapPage_allocs m' _ _ _)

/-- The loop that maps the video. -/
theorem Booted.mapVideo (hready : BootReady old file len)
    (hbooted : Booted old file len new heapPages m) (hallocs : Allocs old.vmmInitialize m)
    {vidPhys vidSize : ℕ} (hsize : vidSize < 2 ^ 32)
    (hnull : (m.mapVideo vidPhys vidSize).NeverNull) :
    Allocs old.vmmInitialize (m.mapVideo vidPhys vidSize) ∧
      ∃ new', Booted old file len new' heapPages (m.mapVideo vidPhys vidSize) := by
  have hpages : pagesNeeded vidPhys vidSize ≤ 2 ^ 20 + 2 := by
    unfold pagesNeeded
    rw [Nat.mod_eq_of_lt (by omega)]
    omega
  have hloop : Allocs old.vmmInitialize (m.mapVideo vidPhys vidSize) ∧
      ((m.mapVideo vidPhys vidSize).NeverNull →
        ∃ new', Booted old file len new' heapPages (m.mapVideo vidPhys vidSize)) := by
    unfold Machine.mapVideo
    apply Loop.times_invariant (fun _ m => Allocs old.vmmInitialize m ∧
      (m.NeverNull → ∃ new', Booted old file len new' heapPages m))
    · exact ⟨hallocs, fun _ => ⟨new, hbooted⟩⟩
    · intro i hi m hinv
      obtain ⟨hallocs, hbooted⟩ := hinv
      have hvirt : (0x80000000 + i * 4096) % 2 ^ 64 < 2 ^ 47 := by
        rw [Nat.mod_eq_of_lt (by omega)]
        omega
      generalize (0x80000000 + i * 4096) % 2 ^ 64 = virt at hvirt ⊢
      generalize (4096 * (vidPhys / 4096) + i * 4096) % 2 ^ 64 = phys
      have hstep := vmmMapPage_allocs m phys virt 0x7
      have hallocs' := hallocs.trans hstep
      refine ⟨hallocs', fun hnull => ?_⟩
      obtain ⟨new', hbooted⟩ := hbooted (hnull.of_allocs hstep)
      obtain ⟨more, hgrown, -, hmaps⟩ := hbooted.grown.vmmMapPage (slot_lower hvirt) phys 0x7
        (hready.fresh_of_allocs hallocs' hnull)
      exact ⟨_, hbooted.map hready hgrown hallocs' hnull hmaps (le_refl _) fun i hi =>
        page_heapPage_ne hi hvirt⟩
  exact ⟨hloop.1, hloop.2 hnull⟩

/-! ## The machine the loader starts on -/

theorem GrownFrom.trans (hfirst : GrownFrom base slots new m)
    (hsecond : GrownFrom m slots more m') : GrownFrom base slots (more ++ new) m' := by
  refine ⟨hsecond.cr3_eq.trans hfirst.cr3_eq, hsecond.tree, ?_, fun q hq f hf => ?_⟩
  · rw [hsecond.granted, hfirst.granted, List.append_assoc]
  · rcases hsecond.node q hq f hf with hold | ⟨role, htable, hgrant⟩
    · refine (hfirst.node q hq f hold).imp_right ?_
      rintro ⟨role, htable, hgrant⟩
      exact ⟨role, htable, List.mem_append_right more hgrant⟩
    · exact Or.inr ⟨role, htable, List.mem_append_left new hgrant⟩

theorem Booted.ready (hready : BootReady old file len)
    (hbooted : Booted old file len new k m) (hallocs : Allocs old.vmmInitialize m)
    (hnull : m.NeverNull) : Ready m bootSlots file len := by
  have hapart := (hready.freshLog hallocs hnull hbooted.grown.granted).2
  refine ⟨hbooted.grown.tree, fun q hq f hf => ?_⟩
  rcases hbooted.grown.node q hq f hf with hold | ⟨role, -, hgrant⟩
  · exact (hready.ready (hnull.of_allocs hallocs)).apart q hq f hold
  · exact hapart _ hgrant

/-- What the loader allocates after the boot is fresh and apart from the file. -/
theorem Booted.allocates (hready : BootReady old file len)
    (hbooted : Booted old file len new k m) (hallocs : Allocs old.vmmInitialize m)
    (hlater : Allocs m m') (hnull : m'.NeverNull) : Allocates m bootSlots file len m' := by
  have hlog : ∀ more, m'.granted = more ++ m.granted →
      FreshLog old.vmmInitialize bootSlots (more ++ new) ∧ ∀ g ∈ more ++ new, Apart g.2 file len :=
    fun more hgranted => hready.freshLog (hallocs.trans hlater) hnull (by
      rw [hgranted, hbooted.grown.granted, List.append_assoc])
  refine ⟨fun more hgranted => hbooted.grown.freshLog (hlog more hgranted).1, ?_⟩
  exact fun more hgranted g hg => (hlog more hgranted).2 g (List.mem_append_left new hg)

end Machine

end BadOS.Kernel
