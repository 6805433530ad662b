import BadOS.Kernel.KexLoader
import BadOS.Kernel.Ledger
import BadOS.Kernel.PmmOwnership

/-! # The frames that mapping pages takes

Mapping a page takes a frame for each table on its path that is not there yet. The
frames that a run of mappings takes are the pages it allocates and the tables missing
at its start, each counted once, and as many free frames are enough for it.
-/

namespace BadOS.Kernel

open Kex RadixTree

namespace Pmm

/-- The number of free blocks. -/
def freeBlocks (p : Pmm) : ℕ := p.maxBlocks - Custody.marked p

/-- Block 0 is in use, and the numbers of blocks are ints. -/
structure Sound (p : Pmm) : Prop where
  maxBlocks_lt : p.maxBlocks < 2 ^ 31
  zero_used : 0 < p.maxBlocks → p.isUsed 0 = true

variable {p : Pmm}

theorem marked_le (p : Pmm) : Custody.marked p ≤ p.maxBlocks := by
  unfold Custody.marked PackedBits.count
  exact (Finset.card_filter_le _ _).trans_eq (Finset.card_range _)

/-- An allocation takes a free block as long as there is one. -/
theorem Sound.alloc (hsound : p.Sound) : p.pmmAllocBlock.2.Sound ∧
    (p.pmmAllocBlock.1 ≠ 0 ↔ 0 < p.freeBlocks) ∧
    (p.pmmAllocBlock.1 ≠ 0 → p.pmmAllocBlock.2.freeBlocks + 1 = p.freeBlocks) := by
  obtain ⟨hmax, hzero⟩ := hsound
  rcases Custody.alloc_cases hmax.le with ⟨b, hb, hfree, -, halloc⟩ | ⟨hall, halloc⟩
  · have hzero := hzero (by omega)
    have hpos : b ≠ 0 := by
      rintro rfl
      exact absurd (hzero.symm.trans hfree) (by decide)
    have hmarked := Custody.marked_markUsed hmax hb hfree
    have hle := marked_le (p.markUsed b)
    rw [markUsed_maxBlocks] at hle
    have haddr : b * blockSize ≠ 0 := Nat.mul_ne_zero hpos (by decide)
    rw [halloc]
    refine ⟨⟨hmax, fun _ => ?_⟩, iff_of_true haddr ?_, fun _ => ?_⟩
    · have hused := Custody.isUsed_markUsed_natCast (p := p) (b := b) (i := 0) (by omega)
        (by decide)
      rw [Nat.cast_zero, hzero, Bool.or_true] at hused
      exact hused
    · unfold freeBlocks
      omega
    · unfold freeBlocks
      dsimp only
      rw [markUsed_maxBlocks]
      omega
  · have hfull : Custody.marked p = p.maxBlocks := by
      unfold Custody.marked PackedBits.count
      rw [Finset.filter_true_of_mem fun b hb => hall b (Finset.mem_range.mp hb), Finset.card_range]
    have hnone : p.freeBlocks = 0 := by
      unfold freeBlocks
      omega
    rw [halloc, hnone]
    exact ⟨⟨hmax, hzero⟩, by simp, fun h => absurd rfl h⟩

end Pmm

namespace Machine

variable {old base m m' : Machine} {slots : Set (Fin 512)} {limit total k n file len : ℕ}
variable {new more : List (FrameRole × ℕ)} {role : FrameRole} {virt phys flags : ℕ}
variable {S : Finset (List (Fin 512))} {p q : List (Fin 512)} {i : Fin 512} {f : ℕ}

/-! ## Free frames -/

/-- No allocation fails exactly as long as the log is not longer than the number of
free blocks. -/
theorem Allocs.neverNull_iff (hsound : base.pmm.Sound) (hnull : base.NeverNull)
    (hallocs : Allocs base m) :
    m.NeverNull ↔ m.granted.length ≤ base.granted.length + base.pmm.freeBlocks := by
  have hall : m.pmm.Sound ∧
      (m.NeverNull → m.pmm.freeBlocks + m.granted.length =
        base.granted.length + base.pmm.freeBlocks) ∧
      (m.granted.length ≤ base.granted.length + base.pmm.freeBlocks → m.NeverNull) := by
    induction hallocs with
    | refl hpmm hgranted =>
        unfold NeverNull at hnull ⊢
        rw [hpmm, hgranted]
        exact ⟨hsound, fun _ => Nat.add_comm _ _, fun _ => hnull⟩
    | @alloc m' m'' role hallocs hpmm hgranted ih =>
        obtain ⟨hsound', hspent, henough⟩ := ih
        obtain ⟨hnext, hserved, hless⟩ := hsound'.alloc
        have hlast : m''.NeverNull ↔ m'.pmm.pmmAllocBlock.1 ≠ 0 ∧ m'.NeverNull := by
          unfold NeverNull
          rw [hgranted, List.forall_mem_cons]
        have hlength : m''.granted.length = m'.granted.length + 1 := by
          rw [hgranted, List.length_cons]
        rw [hpmm, hlast, hlength]
        refine ⟨hnext, fun ⟨hne, hbefore⟩ => ?_, fun hroom => ?_⟩
        · have := hspent hbefore
          have := hless hne
          omega
        · have hbefore := henough (by omega)
          have := hspent hbefore
          exact ⟨hserved.mpr (by omega), hbefore⟩
  obtain ⟨-, hspent, henough⟩ := hall
  refine ⟨fun h => ?_, henough⟩
  have := hspent h
  omega

theorem FreeFrom.sound {start : ℕ} (hfree : FreeFrom m start) : m.pmm.Sound :=
  ⟨hfree.maxBlocks, fun hpos => by
    have hused := hfree.used 0 hpos
    rwa [Nat.cast_zero, decide_eq_true hfree.pos] at hused⟩

theorem FreeFrom.freeBlocks_eq {start : ℕ} (hfree : FreeFrom m start)
    (hstart : start ≤ m.pmm.maxBlocks) : m.pmm.freeBlocks = m.pmm.maxBlocks - start := by
  have hmarked : (Finset.range m.pmm.maxBlocks).filter (fun b : ℕ => m.pmm.isUsed b = true) =
      Finset.range start := by
    ext b
    rw [Finset.mem_filter, Finset.mem_range, Finset.mem_range]
    constructor
    · rintro ⟨hb, hused⟩
      rw [hfree.used b hb] at hused
      exact of_decide_eq_true hused
    · intro hb
      rw [hfree.used b (by omega)]
      exact ⟨by omega, decide_eq_true hb⟩
  rw [Pmm.freeBlocks, Custody.marked, PackedBits.count, hmarked, Finset.card_range]

/-! ## Missing tables -/

/-- The number of tables that are not there. -/
def missing (m : Machine) (S : Finset (List (Fin 512))) : ℕ :=
  (S.filter fun q => m.node q = none).card

/-- The tables on the path of an address, the root apart. -/
def tablePaths (virt : ℕ) : Finset (List (Fin 512)) :=
  {[slot virt 39], [slot virt 39, slot virt 30], pathTo virt}

theorem tablePaths_subset_iff : tablePaths virt ⊆ S ↔
    [slot virt 39] ∈ S ∧ [slot virt 39, slot virt 30] ∈ S ∧ pathTo virt ∈ S := by
  simp only [tablePaths, Finset.insert_subset_iff, Finset.singleton_subset_iff]

/-- The tables for `count` pages at the addresses `addr`. -/
@[irreducible] def tablesOf (addr : ℕ → ℕ) (count : ℕ) : Finset (List (Fin 512)) :=
  (Finset.range count).biUnion fun i => tablePaths (addr i)

theorem mem_tablesOf {addr : ℕ → ℕ} {count : ℕ} :
    q ∈ tablesOf addr count ↔ ∃ i < count, q ∈ tablePaths (addr i) := by
  simp only [tablesOf, Finset.mem_biUnion, Finset.mem_range]

@[simp] theorem tablesOf_zero (addr : ℕ → ℕ) : tablesOf addr 0 = ∅ := by
  simp only [tablesOf, Finset.range_zero, Finset.biUnion_empty]

theorem tablePaths_subset_tablesOf (addr : ℕ → ℕ) {count i : ℕ} (hi : i < count) :
    tablePaths (addr i) ⊆ tablesOf addr count := fun _ hq => mem_tablesOf.mpr ⟨i, hi, hq⟩

theorem tablePaths_subset_paths (hslot : slot virt 39 ∈ slots) :
    ↑(tablePaths virt) ⊆ paths slots := by
  obtain ⟨hpath₁, hpath₂, hpath₃⟩ := mem_paths_of_slot hslot
  unfold tablePaths
  simp only [Finset.coe_insert, Finset.coe_singleton, Set.insert_subset_iff,
    Set.singleton_subset_iff]
  exact ⟨hpath₁, hpath₂, hpath₃⟩

theorem tablesOf_subset_paths {addr : ℕ → ℕ} {count : ℕ}
    (hslot : ∀ i < count, slot (addr i) 39 ∈ slots) : ↑(tablesOf addr count) ⊆ paths slots := by
  intro q hq
  obtain ⟨i, hi, hq⟩ := mem_tablesOf.mp hq
  exact tablePaths_subset_paths (hslot i hi) hq

theorem tablesOf_card_le (addr : ℕ → ℕ) (count : ℕ) : (tablesOf addr count).card ≤ count * 3 := by
  have hle := Finset.card_biUnion_le_card_mul (Finset.range count) (fun i => tablePaths (addr i)) 3
    fun _ _ => Finset.card_le_three
  rw [Finset.card_range] at hle
  rwa [tablesOf]

/-- An address that is mapped has its tables. -/
theorem node_ne_none_of_lookup (hlookup : m.lookup (pathTo virt) (slot virt 12) ≠ none)
    (hq : q ∈ tablePaths virt) : m.node q ≠ none := by
  have hpre : q <+: pathTo virt := by
    simp only [tablePaths, Finset.mem_insert, Finset.mem_singleton] at hq
    rcases hq with rfl | rfl | rfl
    · exact ⟨[slot virt 30, slot virt 21], rfl⟩
    · exact ⟨[slot virt 21], rfl⟩
    · exact List.prefix_refl _
  refine node_ne_none_of_prefix hpre fun hnone => hlookup ?_
  rw [lookup, RadixTree.lookup, hnone, Option.bind_none]

theorem tablesOf_present {addr : ℕ → ℕ} {count : ℕ}
    (hlookup : ∀ i < count, m.lookup (pathTo (addr i)) (slot (addr i) 12) ≠ none)
    (hq : q ∈ tablesOf addr count) : m.node q ≠ none := by
  obtain ⟨i, hi, hq⟩ := mem_tablesOf.mp hq
  exact node_ne_none_of_lookup (hlookup i hi) hq

theorem missing_eq_zero (h : ∀ q ∈ S, m.node q ≠ none) : m.missing S = 0 := by
  unfold missing
  rw [Finset.filter_false_of_mem h, Finset.card_empty]

theorem missing_congr (h : ∀ q ∈ S, m'.node q = m.node q) : m'.missing S = m.missing S := by
  unfold missing
  rw [Finset.filter_congr fun q hq => by rw [h q hq]]

theorem missing_of_added {r : List (Fin 512)} (hr : r ∈ S) (habsent : m.node r = none)
    (h : ∀ q ∈ S, m'.node q = none ↔ m.node q = none ∧ q ≠ r) :
    m'.missing S + 1 = m.missing S := by
  have hfilter : S.filter (fun q => m'.node q = none) =
      (S.filter fun q => m.node q = none).erase r := by
    ext q
    simp only [Finset.mem_filter, Finset.mem_erase]
    constructor
    · rintro ⟨hq, hnone⟩
      obtain ⟨hold, hne⟩ := (h q hq).mp hnone
      exact ⟨hne, hq, hold⟩
    · rintro ⟨hne, hq, hold⟩
      exact ⟨hq, (h q hq).mpr ⟨hold, hne⟩⟩
  unfold missing
  rw [hfilter]
  exact Finset.card_erase_add_one (Finset.mem_filter.mpr ⟨hr, habsent⟩)

theorem missing_le_card (m : Machine) (S : Finset (List (Fin 512))) : m.missing S ≤ S.card :=
  Finset.card_filter_le _ _

/-! ## What a mapping takes -/

/-- The allocator grants up to `limit` frames, each of them once and none that is a
table of `base`. -/
structure Supplies (base : Machine) (slots : Set (Fin 512)) (limit : ℕ) : Prop where
  neverNull_iff : ∀ m, Allocs base m → (m.NeverNull ↔ m.granted.length ≤ limit)
  fresh : ∀ m, Allocs base m → m.NeverNull → ∀ new, m.granted = new ++ base.granted →
    FreshLog base slots new

/-- All `total` frames can be granted, or those for `m` have been. -/
def Served (limit total : ℕ) (m : Machine) : Prop := total ≤ limit ∨ m.NeverNull

theorem Served.of_allocs (hserved : Served limit total m') (hallocs : Allocs m m') :
    Served limit total m := hserved.imp_right fun hnull => hnull.of_allocs hallocs

/-- Of `total` frames all are granted but those for `k` pages and for the tables that
are missing. -/
structure Stocked (base : Machine) (slots : Set (Fin 512)) (S : Finset (List (Fin 512)))
    (total k : ℕ) (m : Machine) : Prop where
  allocs : Allocs base m
  grown : ∃ new, GrownFrom base slots new m
  count : m.granted.length + m.missing S + k = total

theorem Stocked.neverNull (hstocked : Stocked base slots S total k m)
    (hsupplies : Supplies base slots limit) (hserved : Served limit total m) : m.NeverNull := by
  rcases hserved with henough | hnull
  · have := hstocked.count
    exact (hsupplies.neverNull_iff m hstocked.allocs).mpr (by omega)
  · exact hnull

theorem Stocked.sameTables (hstocked : Stocked base slots S total k m) (hS : ↑S ⊆ paths slots)
    (hsame : SameTables slots m m') (hpmm : m'.pmm = m.pmm) (hgranted : m'.granted = m.granted) :
    Stocked base slots S total k m' := by
  obtain ⟨hallocs, ⟨new, hgrown⟩, hcount⟩ := hstocked
  refine ⟨hallocs.trans (.refl hpmm hgranted), ⟨new, hgrown.sameTables hsame hgranted⟩, ?_⟩
  rw [hgranted, missing_congr fun q hq => hsame.node_eq (hS hq), hcount]

theorem Stocked.allocBlock (hstocked : Stocked base slots S total (k + 1) m) (role : FrameRole) :
    Stocked base slots S total k (m.allocBlock role).2 := by
  obtain ⟨hallocs, ⟨new, hgrown⟩, hcount⟩ := hstocked
  refine ⟨hallocs.trans (allocBlock_allocs m role), ⟨_, hgrown.allocBlock role⟩, ?_⟩
  rw [← hcount]
  change m.granted.length + 1 + m.missing S + k = _
  omega

/-- A table that is linked is no longer missing, and no other. -/
theorem node_eq_none_iff {r : List (Fin 512)} (hextends : Extends slots m m')
    (hgranted : m'.granted = (role, 4096 * n) :: m.granted) (hr : r ∈ paths slots)
    (hlinked : m'.node r = some n) (hq : q ∈ paths slots) :
    m'.node q = none ↔ m.node q = none ∧ q ≠ r := by
  obtain ⟨new, hnew, -, hnodes⟩ := hextends.granted
  obtain rfl : new = [(role, 4096 * n)] := List.append_cancel_right (hnew.symm.trans hgranted)
  constructor
  · intro hnone
    refine ⟨?_, fun heq => ?_⟩
    · by_contra hsome
      obtain ⟨g, hg⟩ := Option.ne_none_iff_exists'.mp hsome
      exact nomatch hnone.symm.trans (hextends.node_mono q hq g hg)
    · rw [heq, hlinked] at hnone
      cases hnone
  · rintro ⟨hnone, hne⟩
    by_contra hsome
    obtain ⟨g, hg⟩ := Option.ne_none_iff_exists'.mp hsome
    rcases hnodes q hq g hg with hold | hgrant
    · exact nomatch hnone.symm.trans hold
    · simp only [List.map_cons, List.map_nil, List.mem_singleton] at hgrant
      obtain rfl : g = n := by omega
      exact hne (hextends.tree.tree q hq r hr g hg hlinked)

theorem node_of_absentEntry (hnode : m.node p = some f)
    (habsent : entry m.mem (4096 * f) i &&& 1 = 0) : m.node (p ++ [i]) = none := by
  unfold node at hnode ⊢
  rw [node_concat, hnode, Option.bind_some]
  exact childFrame_eq_none_iff.mpr habsent

/-- A table takes a frame when it is missing and none when it is there. -/
theorem Stocked.ensureTable (hsupplies : Supplies base slots limit) (hS : ↑S ⊆ paths slots)
    (hstocked : Stocked base slots S total k m) (role : FrameRole) (hrole : role.isTable = true)
    (hp : p ++ [i] ∈ S) (hnode : m.node p = some f)
    (hserved : Served limit total (m.ensureTable role (4096 * f) i)) :
    Stocked base slots S total k (m.ensureTable role (4096 * f) i) ∧
      (m.ensureTable role (4096 * f) i).node (p ++ [i]) =
        some (frameOf (entry (m.ensureTable role (4096 * f) i).mem (4096 * f) i)) := by
  obtain ⟨hallocs, ⟨new, hgrown⟩, hcount⟩ := hstocked
  have hstep := hallocs.trans (ensureTable_allocs m role (4096 * f) i)
  have hlength : (m.ensureTable role (4096 * f) i).granted.length ≤ total := by
    by_cases habsent : entry m.mem (4096 * f) i &&& 1 = 0
    · have hpos : 0 < m.missing S :=
        Finset.card_pos.mpr ⟨_, Finset.mem_filter.mpr ⟨hp, node_of_absentEntry hnode habsent⟩⟩
      rw [ensureTable_of_absent habsent, List.length_cons]
      omega
    · rw [ensureTable_of_present habsent]
      omega
  have hnull : (m.ensureTable role (4096 * f) i).NeverNull := by
    rcases hserved with henough | hnull
    · exact (hsupplies.neverNull_iff _ hstep).mpr (hlength.trans henough)
    · exact hnull
  obtain ⟨more, hmore⟩ := hstep.granted
  have hfresh := hgrown.ensureFresh (List.suffix_refl _) hmore.symm
    (hsupplies.fresh _ hstep hnull more hmore.symm)
  obtain ⟨hextends, hlinked⟩ := ensureTable_extends role hrole hgrown.tree (hS hp) hnode hfresh
  obtain ⟨new', hgrown', -⟩ := hgrown.extend hextends
  refine ⟨⟨hstep, ⟨_, hgrown'⟩, ?_⟩, hlinked⟩
  by_cases habsent : entry m.mem (4096 * f) i &&& 1 = 0
  · obtain ⟨hframe, -⟩ := hfresh habsent
    obtain ⟨n, hn, -, haddr⟩ := hframe.exists_eq
    have hgranted : (m.ensureTable role (4096 * f) i).granted = (role, 4096 * n) :: m.granted := by
      rw [ensureTable_of_absent habsent, haddr]
    have hentry : frameOf (entry (m.ensureTable role (4096 * f) i).mem (4096 * f) i) = n := by
      rw [ensureTable_of_absent habsent, haddr]
      have hload : entry (BadOS.Kernel.setEntry (Libc.memset m.mem (4096 * n) 0 4096)
          (4096 * f) i (4096 * n ||| 0x7)) (4096 * f) i = 4096 * n ||| 0x7 :=
        Memory.load_store (by rw [link_eq]; omega)
      rw [hload, frameOf_link hn]
    rw [hentry] at hlinked
    have hadded := missing_of_added hp (node_of_absentEntry hnode habsent) fun q hq =>
      node_eq_none_iff hextends hgranted (hS hp) hlinked (hS hq)
    rw [hgranted, List.length_cons]
    omega
  · rw [ensureTable_of_present habsent]
    exact hcount

/-- Before `vmm_map_page` writes its entry, it has taken the frames of the tables that
it is the first to need. -/
theorem Stocked.exists_ready (hsupplies : Supplies base slots limit) (hS : ↑S ⊆ paths slots)
    (hstocked : Stocked base slots S total k m) (hpaths : tablePaths virt ⊆ S) (phys flags : ℕ)
    (hserved : Served limit total (m.vmmMapPage phys virt flags)) :
    ∃ ready pt, Stocked base slots S total k ready ∧ ready.node (pathTo virt) = some pt ∧
      m.vmmMapPage phys virt flags = ready.setMem (BadOS.Kernel.setEntry ready.mem (4096 * pt)
        (slot virt 12) (leafEntry phys flags)) := by
  obtain ⟨hpath₁, hpath₂, hpath₃⟩ := tablePaths_subset_iff.mp hpaths
  have hlink : ∀ shift, index virt shift = ((slot virt shift : Fin 512) : ℕ) := fun _ => rfl
  unfold Machine.vmmMapPage getActivePageDir at hserved ⊢
  simp only [and_addrMask, hlink] at hserved ⊢
  generalize hm₁ : m.ensureTable .pdpt (4096 * frameOf m.cr3) (slot virt 39) = m₁ at hserved ⊢
  generalize hpdpt : frameOf (entry m₁.mem (4096 * frameOf m.cr3) (slot virt 39)) = pdpt
    at hserved ⊢
  generalize hm₂ : m₁.ensureTable .pd (4096 * pdpt) (slot virt 30) = m₂ at hserved ⊢
  generalize hpd : frameOf (entry m₂.mem (4096 * pdpt) (slot virt 30)) = pd at hserved ⊢
  generalize hm₃ : m₂.ensureTable .pt (4096 * pd) (slot virt 21) = m₃ at hserved ⊢
  generalize hpt : frameOf (entry m₃.mem (4096 * pd) (slot virt 21)) = pt at hserved ⊢
  have hserved₃ : Served limit total m₃ := hserved
  have hserved₂ : Served limit total m₂ :=
    hserved₃.of_allocs (hm₃ ▸ ensureTable_allocs m₂ .pt (4096 * pd) (slot virt 21))
  have hserved₁ : Served limit total m₁ :=
    hserved₂.of_allocs (hm₂ ▸ ensureTable_allocs m₁ .pd (4096 * pdpt) (slot virt 30))
  obtain ⟨hstocked₁, hnode₁⟩ := hstocked.ensureTable hsupplies hS .pdpt rfl (p := [])
    (f := frameOf m.cr3) hpath₁ rfl (hm₁ ▸ hserved₁)
  rw [hm₁] at hstocked₁ hnode₁
  rw [hpdpt] at hnode₁
  obtain ⟨hstocked₂, hnode₂⟩ := hstocked₁.ensureTable hsupplies hS .pd rfl
    (p := [slot virt 39]) hpath₂ hnode₁ (hm₂ ▸ hserved₂)
  rw [hm₂] at hstocked₂ hnode₂
  rw [hpd] at hnode₂
  obtain ⟨hstocked₃, hnode₃⟩ := hstocked₂.ensureTable hsupplies hS .pt rfl
    (p := [slot virt 39, slot virt 30]) hpath₃ hnode₂ (hm₃ ▸ hserved₃)
  rw [hm₃] at hstocked₃ hnode₃
  rw [hpt] at hnode₃
  exact ⟨m₃, pt, hstocked₃, hnode₃, rfl⟩

theorem Stocked.vmmMapPage (hsupplies : Supplies base slots limit) (hS : ↑S ⊆ paths slots)
    (hstocked : Stocked base slots S total k m) (hpaths : tablePaths virt ⊆ S)
    (hslot : slot virt 39 ∈ slots) (phys flags : ℕ)
    (hserved : Served limit total (m.vmmMapPage phys virt flags)) :
    Stocked base slots S total k (m.vmmMapPage phys virt flags) := by
  obtain ⟨ready, pt, hready, hnode, hmap⟩ :=
    hstocked.exists_ready hsupplies hS hpaths phys flags hserved
  have hlast : Allocs ready (m.vmmMapPage phys virt flags) := by
    rw [hmap]
    exact .refl rfl rfl
  have hnull : (m.vmmMapPage phys virt flags).NeverNull := by
    have hnull := hready.neverNull hsupplies (hserved.of_allocs hlast)
    rw [hmap]
    exact hnull
  have hallocs := hready.allocs.trans hlast
  obtain ⟨new, hgrown⟩ := hstocked.grown
  obtain ⟨more, hgrown', -, -⟩ :=
    hgrown.vmmMapPage hslot phys flags (hsupplies.fresh _ hallocs hnull)
  refine ⟨hallocs, ⟨_, hgrown'⟩, ?_⟩
  obtain ⟨new', htree⟩ := hready.grown
  rw [← hready.count, hmap]
  rw [missing_congr fun q hq =>
    node_setLeaf (leafEntry_lt phys flags) htree.tree hslot hnode (hS hq)]
  rfl

theorem Stocked.mapNewPage (hsupplies : Supplies base slots limit) (hS : ↑S ⊆ paths slots)
    (hstocked : Stocked base slots S total (k + 1) m) (hpaths : tablePaths virt ⊆ S)
    (hslot : slot virt 39 ∈ slots) (role : FrameRole) (flags : ℕ)
    (hserved : Served limit total (m.mapNewPage role virt flags)) :
    Stocked base slots S total k (m.mapNewPage role virt flags) :=
  (hstocked.allocBlock role).vmmMapPage hsupplies hS hpaths hslot _ flags hserved

/-- Every frame granted by a machine whose first frames are in use is behind them. -/
theorem FreeFrom.granted_frame {start : ℕ} (hfree : FreeFrom base start)
    (hgranted : base.granted = []) (hallocs : Allocs base m) (hnull : m.NeverNull)
    {g : FrameRole × ℕ} (hg : g ∈ m.granted) :
    ∃ i < base.pmm.maxBlocks, g.2 = 4096 * i ∧ start ≤ i := by
  have hmax := hfree.maxBlocks
  have hledger := (Ledger.refl hgranted).allocs (by omega) hallocs
  obtain ⟨i, hi, haddr, hunused, -⟩ := hledger.marked g hg (hnull g hg)
  rw [CInt.toI32_natCast (by omega), hfree.used i hi] at hunused
  exact ⟨i, hi, haddr, Nat.le_of_not_lt (of_decide_eq_false hunused)⟩

/-- A machine whose first frames are in use supplies all others, if no table is behind
the first ones. -/
theorem FreeFrom.supplies {start : ℕ} (hfree : FreeFrom base start)
    (hgranted : base.granted = []) (hstart : start ≤ base.pmm.maxBlocks)
    (htables : ∀ q ∈ paths slots, ∀ f, base.node q = some f → f < start) :
    Supplies base slots (base.pmm.maxBlocks - start) := by
  have hmax := hfree.maxBlocks
  have hnone : base.NeverNull := fun g hg => by
    rw [hgranted] at hg
    exact absurd hg List.not_mem_nil
  refine ⟨fun m hallocs => ?_, fun m hallocs hnull new hnew => ?_⟩
  · rw [hallocs.neverNull_iff hfree.sound hnone, hgranted, hfree.freeBlocks_eq hstart,
      List.length_nil, Nat.zero_add]
  · have hnodup := ((Ledger.refl hgranted).allocs (by omega) hallocs).nodup hnull
    rw [hgranted, List.append_nil] at hnew
    rw [hnew] at hnodup
    refine ⟨hnodup, fun g hg => ?_⟩
    obtain ⟨i, hi, haddr, hlow⟩ := hfree.granted_frame hgranted hallocs hnull (hnew ▸ hg)
    have hpos := hfree.pos
    refine ⟨⟨by omega, by omega, by omega⟩, fun q hq hnode => ?_⟩
    have := htables q hq _ hnode
    omega

end Machine

end BadOS.Kernel
