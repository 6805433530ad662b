import BadOS.Foundation.Execution
import BadOS.Kernel.FrameLog

/-! # Page mapping as a last-write-wins map

With the bitmap in physical memory, an allocation sets a bit there. As long as no such
bit is part of a table, the tables hold what was last written for each page.
-/

namespace BadOS.Kernel

open Execution RadixTree

namespace Machine

variable {m m' : Machine} {slots : Set (Fin 512)} {p : List (Fin 512)} {i : Fin 512} {f : ℕ}
variable {role : FrameRole} {virt : ℕ}

/-! ## Allocations in physical memory -/

/-- The next allocation returns a frame that is no table. -/
def FreshNext (m : Machine) (slots : Set (Fin 512)) : Prop :=
  m.FreshFrame slots m.physPmm.pmmAllocBlock.1

/-- The word of the bitmap that the next allocation writes is in no table. -/
def MarksApart (m : Machine) (slots : Set (Fin 512)) : Prop :=
  ∀ b, m.physPmm.findFree = some b → ∀ k < 4,
    ¬ m.TableByte slots (m.physPmm.wordAddr (Pmm.wordOf (CInt.toI32 b)) + k)

/-- `P` holds when a table for `table[i]` is allocated, if one is. -/
def AtAllocation (P : Machine → Prop) (m : Machine) (table i : ℕ) : Prop :=
  entry m.mem table i &&& 1 = 0 → P m

/-- `P` holds at every allocation that `vmm_map_page` makes for `virt`. -/
def AtAllocations (P : Machine → Prop) (m : Machine) (virt : ℕ) : Prop :=
  let pml4 := m.getActivePageDir
  m.AtAllocation P pml4 (index virt 39) ∧
    let m := m.ensureTable .pdpt pml4 (index virt 39) allocPhys
    let pdpt := entry m.mem pml4 (index virt 39) &&& addrMask
    m.AtAllocation P pdpt (index virt 30) ∧
      let m := m.ensureTable .pd pdpt (index virt 30) allocPhys
      let pd := entry m.mem pdpt (index virt 30) &&& addrMask
      m.AtAllocation P pd (index virt 21)

theorem allocPhys_outside (m : Machine) (role : FrameRole) {x : ℕ}
    (hx : ∀ b, m.physPmm.findFree = some b → ∀ k < 4,
      x ≠ m.physPmm.wordAddr (Pmm.wordOf (CInt.toI32 b)) + k) :
    (m.allocPhys role).2.mem x = m.mem x := by
  unfold allocPhys Pmm.pmmAllocBlock
  dsimp only
  cases hfind : m.physPmm.findFree with
  | none => rfl
  | some b =>
      have hword := hx b hfind
      refine Memory.store_outside ?_
      by_contra hin
      exact hword (x - m.physPmm.wordAddr (Pmm.wordOf (CInt.toI32 b))) (by omega) (by omega)

/-- Marking a block in a word that is in no table keeps the tables. -/
theorem MarksApart.sameTables (hapart : m.MarksApart slots) (role : FrameRole) :
    SameTables slots m (m.allocPhys role).2 := by
  refine ⟨rfl, fun x hx => allocPhys_outside m role fun b hfind k hk => ?_⟩
  rintro rfl
  exact hapart b hfind k hk hx

theorem Grows.of_sameTables (htree : m.TreeOn slots) (hsame : SameTables slots m m')
    (hgranted : m'.granted = m.granted) : Grows slots m m' := by
  refine ⟨hsame.cr3_eq, hsame.treeOn htree, fun q hq f hf => ?_, fun q hq _ j =>
    hsame.lookup_eq hq j, ⟨[], hgranted, fun _ h => absurd h List.not_mem_nil, fun q hq f hf => ?_⟩⟩
  · rw [hsame.node_eq hq, hf]
  · exact Or.inl ((hsame.node_eq hq).symm.trans hf)

/-- Ensuring a table changes no translation, and the table is there afterwards. -/
theorem ensureTable_grows (role : FrameRole) (hrole : role.isTable = true) (htree : m.TreeOn slots)
    (hp : p ++ [i] ∈ paths slots) (hnode : m.node p = some f)
    (hfresh : m.AtAllocation (FreshNext · slots) (4096 * f) i)
    (hapart : m.AtAllocation (MarksApart · slots) (4096 * f) i) :
    Grows slots m (m.ensureTable role (4096 * f) i allocPhys) ∧
      (m.ensureTable role (4096 * f) i allocPhys).node (p ++ [i]) =
        some (frameOf (entry (m.ensureTable role (4096 * f) i allocPhys).mem (4096 * f) i)) := by
  by_cases habsent : entry m.mem (4096 * f) i &&& 1 = 0
  · obtain ⟨hframe, hunused⟩ := hfresh habsent
    have hsame := (hapart habsent).sameTables role
    obtain ⟨n, hn, -, haddr⟩ := hframe.exists_eq
    rw [haddr, Nat.mul_div_cancel_left n (by decide)] at hunused
    -- The block is marked first; the table is linked in the memory after that.
    obtain ⟨marked, hmarked⟩ : ∃ marked : Machine,
        marked = { (m.allocPhys role).2 with granted := m.granted } := ⟨_, rfl⟩
    have hmem : marked.mem = (m.allocPhys role).2.mem := by rw [hmarked]
    have hsame' : SameTables slots m marked := by
      refine ⟨by rw [hmarked]; rfl, fun x hx => ?_⟩
      rw [hmem]
      exact hsame.bytes x hx
    have hmarks := Grows.of_sameTables htree hsame' (by rw [hmarked])
    have hstill : entry marked.mem (4096 * f) i &&& 1 = 0 := by
      have hentry := hsame'.tables_eq (paths_prefixClosed slots p i hp) hnode i
      unfold tables at hentry
      rw [hentry]
      exact habsent
    generalize hnext : m.ensureTable role (4096 * f) i allocPhys = next
    rw [ensureTable, if_pos habsent] at hnext
    have hphys : (m.allocPhys role).1 = 4096 * n := haddr
    dsimp only [setMem] at hnext
    rw [hphys, ← hmem] at hnext
    have htables : tables next.mem =
        RadixTree.setEntry (RadixTree.clear (tables marked.mem) n 0) f i (4096 * n ||| 0x7) := by
      rw [← hnext]
      exact tables_link marked.mem f i hn
    have houtside : ∀ x, x / 4096 ≠ n → x / 4096 ≠ f → next.mem x = marked.mem x := by
      intro x hxn hxf
      have hi := i.isLt
      rw [← hnext]
      dsimp only [BadOS.Kernel.setEntry]
      rw [Libc.memset_eq_fill, Memory.store_outside (by omega), Memory.fill_outside (by omega)]
    obtain ⟨hextends, hlinked⟩ := extends_of_link hrole hmarks.tree hp
      ((hsame'.node_eq (paths_prefixClosed slots p i hp)).trans hnode) hstill hn
      (fun q hq => by rw [hsame'.node_eq hq]; exact hunused q hq) (by rw [← hnext, hmarked])
      htables (by rw [← hnext, hmarked, ← hphys]; rfl) houtside
    refine ⟨hmarks.trans hextends.toGrows, ?_⟩
    have hentry : entry next.mem (4096 * f) i = 4096 * n ||| 0x7 :=
      (congrFun (congrFun htables f) i).trans (if_pos ⟨rfl, rfl⟩)
    rw [hlinked, hentry, frameOf_link hn]
  · rw [ensureTable, if_neg habsent]
    refine ⟨Grows.refl htree, ?_⟩
    have hpresent : isPresent (entry m.mem (4096 * f) i) = true := by
      rw [← Bool.not_eq_false, isPresent_eq_false_iff]
      exact habsent
    unfold node at hnode ⊢
    rw [node_concat, hnode, Option.bind_some, tables, childFrame, if_pos hpresent]

/-- `vmm_map_page` first makes the tables, then sets the entry of the last one. -/
theorem exists_ready_phys (phys flags : ℕ) (htree : m.TreeOn slots) (hslot : slot virt 39 ∈ slots)
    (hfresh : m.AtAllocations (FreshNext · slots) virt)
    (hapart : m.AtAllocations (MarksApart · slots) virt) :
    ∃ ready pt, Grows slots m ready ∧ ready.node (pathTo virt) = some pt ∧
      m.vmmMapPage phys virt flags allocPhys = ready.setMem (BadOS.Kernel.setEntry ready.mem
        (4096 * pt) (slot virt 12) (leafEntry phys flags)) := by
  obtain ⟨hpath₁, hpath₂, hpath₃⟩ := mem_paths_of_slot hslot
  unfold AtAllocations getActivePageDir at hfresh hapart
  simp only [and_addrMask] at hfresh hapart
  obtain ⟨hfresh₁, hfresh₂, hfresh₃⟩ := hfresh
  obtain ⟨hapart₁, hapart₂, hapart₃⟩ := hapart
  have hroot : m.node [] = some (frameOf m.cr3) := rfl
  obtain ⟨hgrows₁, hnode₁⟩ := ensureTable_grows .pdpt rfl htree (p := []) (i := slot virt 39)
    hpath₁ hroot hfresh₁ hapart₁
  obtain ⟨hgrows₂, hnode₂⟩ := ensureTable_grows .pd rfl hgrows₁.tree (i := slot virt 30) hpath₂
    hnode₁ hfresh₂ hapart₂
  obtain ⟨hgrows₃, hnode₃⟩ := ensureTable_grows .pt rfl hgrows₂.tree (i := slot virt 21) hpath₃
    hnode₂ hfresh₃ hapart₃
  refine ⟨_, _, (hgrows₁.trans hgrows₂).trans hgrows₃, hnode₃, ?_⟩
  unfold vmmMapPage getActivePageDir
  simp only [and_addrMask]
  rfl

/-- Where the tables are there, a call allocates nothing. -/
theorem atAllocations_of_node {P : Machine → Prop} (hnode : m.node (pathTo virt) ≠ none) :
    m.AtAllocations P virt := by
  have hpresent : ∀ q (i : Fin 512) rest, pathTo virt = q ++ i :: rest → ∀ f, m.node q = some f →
      entry m.mem (4096 * f) i &&& 1 ≠ 0 := by
    intro q i rest hpath f hf habsent
    refine hnode ?_
    unfold node at hf ⊢
    rw [hpath, List.append_cons, node_append, node_concat, hf, Option.bind_some, tables,
      childFrame_eq_none_iff.mpr habsent, Option.bind_none]
  have hnext : ∀ q (i : Fin 512) rest, pathTo virt = q ++ i :: rest → ∀ f, m.node q = some f →
      m.node (q ++ [i]) = some (frameOf (entry m.mem (4096 * f) i)) := by
    intro q i rest hpath f hf
    have hset := hpresent q i rest hpath f hf
    unfold node at hf ⊢
    rw [node_concat, hf, Option.bind_some, tables, childFrame, if_pos]
    rw [← Bool.not_eq_false, isPresent_eq_false_iff]
    exact hset
  have hpml4 := hpresent [] _ _ rfl (frameOf m.cr3) rfl
  have hnode₁ := hnext [] _ _ rfl (frameOf m.cr3) rfl
  have hpdpt := hpresent [slot virt 39] _ _ rfl _ hnode₁
  have hnode₂ := hnext [slot virt 39] _ _ rfl _ hnode₁
  have hpd := hpresent [slot virt 39, slot virt 30] _ _ rfl _ hnode₂
  have hslot : ∀ shift, (slot virt shift : ℕ) = index virt shift := fun _ => rfl
  simp only [hslot] at hpml4 hpdpt hpd
  unfold AtAllocations getActivePageDir
  simp only [and_addrMask]
  rw [ensureTable, if_neg hpml4, ensureTable, if_neg hpdpt]
  exact ⟨fun habsent => absurd habsent hpml4, fun habsent => absurd habsent hpdpt,
    fun habsent => absurd habsent hpd⟩

/-! ## Runs -/

/-- A call of `vmm_map_page`. -/
structure MapCall where
  phys : ℕ
  virt : ℕ
  flags : ℕ
deriving DecidableEq

/-- A call in which every allocation returns a frame that is no table, and marks it in a
word that is in no table. -/
inductive MapStep (m : Machine) : MapCall → Machine → Prop
  | map {call : MapCall} (hfresh : m.AtAllocations (FreshNext · Set.univ) call.virt)
      (hapart : m.AtAllocations (MarksApart · Set.univ) call.virt) :
      MapStep m call (m.vmmMapPage call.phys call.virt call.flags allocPhys)

/-- The abstract address space: the translation of each page. -/
abbrev AddressSpace := ℕ → Option Leaf

/-- A mapping call sets the translation of its page. -/
def AddressSpace.write (space : AddressSpace) (call : MapCall) : AddressSpace :=
  Function.update space (page call.virt) (some ⟨leafEntry call.phys call.flags, 12⟩)

/-- The tables give the translations of `space`. -/
def Refines (m : Machine) (space : AddressSpace) : Prop :=
  ∀ virt, walk m.mem m.cr3 virt = space (page virt)

theorem step_walk {call : MapCall} (htree : m.TreeOn Set.univ) (hstep : MapStep m call m') :
    m'.TreeOn Set.univ ∧ ∀ virt, walk m'.mem m'.cr3 virt =
      if page virt = page call.virt then some ⟨leafEntry call.phys call.flags, 12⟩
      else walk m.mem m.cr3 virt := by
  obtain ⟨hfresh, hapart⟩ := hstep
  obtain ⟨ready, pt, hgrows, hnode, hmap⟩ :=
    exists_ready_phys call.phys call.flags htree (Set.mem_univ _) hfresh hapart
  obtain ⟨-, htree', hlookup⟩ := setLeaf_lookup call.phys call.flags hgrows.tree (Set.mem_univ _)
    hnode hmap
  refine ⟨htree', fun virt => ?_⟩
  have hpath := (mem_paths_of_slot (Set.mem_univ (slot virt 39))).2.2
  rw [walk_eq_lookup htree' (Set.mem_univ _), walk_eq_lookup htree (Set.mem_univ _),
    hlookup _ hpath rfl, hgrows.lookup_eq _ hpath rfl]
  simp only [page_eq_iff]
  split <;> rfl

/-- After a call the tables for its address are there, with those that were. -/
theorem MapStep.node_ne_none {call : MapCall} (htree : m.TreeOn Set.univ)
    (hstep : MapStep m call m') {q : List (Fin 512)} (hq : q ∈ paths Set.univ)
    (hnode : q = pathTo call.virt ∨ m.node q ≠ none) : m'.node q ≠ none := by
  obtain ⟨hfresh, hapart⟩ := hstep
  obtain ⟨ready, pt, hgrows, hpath, hmap⟩ :=
    exists_ready_phys call.phys call.flags htree (Set.mem_univ _) hfresh hapart
  rw [hmap, node_setLeaf (leafEntry_lt _ _) hgrows.tree (Set.mem_univ _) hpath hq]
  rcases hnode with rfl | hnode
  · rw [hpath]
    exact Option.some_ne_none _
  · obtain ⟨f, hf⟩ := Option.ne_none_iff_exists'.mp hnode
    rw [hgrows.node_mono q hq f hf]
    exact Option.some_ne_none _

theorem run_tree {calls : List MapCall} (htree : m.TreeOn Set.univ)
    (hrun : Run MapStep m calls m') : m'.TreeOn Set.univ :=
  hrun.invariant (fun m => m.TreeOn Set.univ) htree
    fun _ _ _ hstep htree => (step_walk htree hstep).1

/-- A run of calls refines the writes to the abstract address space. -/
theorem run_refines {calls : List MapCall} {space : AddressSpace} (htree : m.TreeOn Set.univ)
    (hspace : m.Refines space) (hrun : Run MapStep m calls m') :
    m'.Refines (calls.foldl AddressSpace.write space) := by
  induction hrun generalizing space with
  | nil m => exact hspace
  | cons hstep hrun ih =>
      obtain ⟨htree', hwalk⟩ := step_walk htree hstep
      apply ih htree'
      intro virt
      rw [hwalk, hspace virt, AddressSpace.write, Function.update_apply]

/-- In every run of `vmm_map_page` on a tree of tables whose allocations return fresh
frames and mark them outside the tables, each call sets the entry of its own page, leaves
the translation of every other page as it was and leaves a tree; so the tables hold, for
each page, what was last written for it. -/
theorem run_lastWrite {calls : List MapCall} (htree : m.TreeOn Set.univ)
    (hrun : Run MapStep m calls m') :
    m'.TreeOn Set.univ ∧
      (∀ call m'', MapStep m' call m'' →
        walk m''.mem m''.cr3 call.virt =
          some ⟨(call.phys &&& 0x000FFFFFFFFFF000) ||| (call.flags &&& 0xFFF) ||| 1, 12⟩ ∧
        (∀ virt, virt / 2 ^ 12 % 2 ^ 36 ≠ call.virt / 2 ^ 12 % 2 ^ 36 →
          walk m''.mem m''.cr3 virt = walk m'.mem m'.cr3 virt) ∧
        m''.TreeOn Set.univ) ∧
      ∀ space, m.Refines space → m'.Refines (calls.foldl AddressSpace.write space) := by
  have htree' := run_tree htree hrun
  refine ⟨htree', ?_, fun space hspace => run_refines htree hspace hrun⟩
  intro call m'' hstep
  obtain ⟨htree'', hwalk⟩ := step_walk htree' hstep
  refine ⟨?_, ?_, htree''⟩
  · rw [hwalk, if_pos rfl]
    rfl
  · intro virt hne
    have hpage : page virt ≠ page call.virt := hne
    rw [hwalk, if_neg hpage]

/-! ## Machines with little memory -/

/-- An empty root table in frame 1 and the bitmap in frame 2, with the frames from 3 to 15
free. -/
def emptyRoot : Machine where
  mem x := if x = 0x2000 then 7 else 0
  cr3 := 0x1000
  pmm :=
    { mem := fun x => if x = 0x2000 then 7 else 0, pmmBitmap := 0x2000, usedBlocks := 3
      maxBlocks := 16 }
  granted := []

theorem emptyRoot_absent (i : Fin 512) :
    isPresent (tables emptyRoot.mem emptyRoot.root i) = false := by
  revert i
  decide +kernel

theorem emptyRoot_tree : emptyRoot.TreeOn Set.univ :=
  treeOn_of_absent fun i _ => emptyRoot_absent i

/-- The next free frame is no table, and its bit is in none. -/
theorem emptyRoot_allocation {b : ℕ} (hgrows : Grows Set.univ emptyRoot m)
    (hfind : m.physPmm.findFree = some b) (hbitmap : m.pmm.pmmBitmap = 0x2000)
    (hb : 2 < b ∧ b < 16)
    (hgranted : ∀ g ∈ m.granted, 0x3000 ≤ g.2 ∧ g.2 < 4096 * b) :
    m.FreshNext Set.univ ∧ m.MarksApart Set.univ := by
  have hnode : ∀ q ∈ paths Set.univ, ∀ f, m.node q = some f → f = 1 ∨ 3 ≤ f ∧ f < b := by
    intro q hq f hf
    obtain ⟨new, hnew, -, hnodes⟩ := hgrows.granted
    rw [show emptyRoot.granted = [] from rfl, List.append_nil] at hnew
    rcases hnodes q hq f hf with hold | hgrant
    · left
      have hroot : f = frameOf emptyRoot.cr3 :=
        (node_of_absent (fun i _ => emptyRoot_absent i) hq hold).2
      exact hroot.trans (by decide)
    · obtain ⟨g, hg, heq⟩ := List.mem_map.mp hgrant
      have := hgranted g (hnew ▸ hg)
      omega
  have haddr : m.physPmm.pmmAllocBlock.1 = 4096 * b := by
    rw [Pmm.pmmAllocBlock, hfind]
    dsimp only
    unfold Pmm.blockAddr blockSize
    omega
  constructor
  · refine ⟨by rw [haddr]; unfold IsFrame; omega, fun q hq hf => ?_⟩
    have := hnode q hq _ hf
    rw [haddr] at this
    omega
  · intro c hc k hk hbyte
    obtain rfl := Option.some_injective _ (hfind.symm.trans hc)
    obtain ⟨q, hq, hf⟩ := hbyte
    have hword : m.physPmm.wordAddr (Pmm.wordOf (CInt.toI32 b)) = 0x2000 := by
      rw [CInt.toI32_natCast (by omega), Pmm.wordOf_natCast, Pmm.wordAddr,
        show b / 32 = 0 by omega, show m.physPmm.pmmBitmap = 0x2000 from hbitmap]
      unfold CInt.toU64
      omega
    have := hnode q hq _ hf
    rw [hword] at this
    omega

theorem ensureTable_phys_of_absent {table k : ℕ} (habsent : entry m.mem table k &&& 1 = 0)
    (role : FrameRole) :
    m.ensureTable role table k allocPhys =
      (m.allocPhys role).2.setMem (BadOS.Kernel.setEntry
        ((m.allocPhys role).2.mem.fill (m.allocPhys role).1 4096 0) table k
        ((m.allocPhys role).1 ||| 0x7)) := by
  rw [ensureTable, if_pos habsent]
  dsimp only
  rw [Libc.memset_zero]
  rfl

/-- The first call takes the frames 3, 4 and 5 for its tables. -/
theorem emptyRoot_firstCall : emptyRoot.AtAllocations (FreshNext · Set.univ) 0x400000 ∧
    emptyRoot.AtAllocations (MarksApart · Set.univ) 0x400000 := by
  obtain ⟨hpath₁, hpath₂, -⟩ := mem_paths_of_slot (Set.mem_univ (slot 0x400000 39))
  have hslot : ∀ shift, (slot 0x400000 shift : ℕ) = index 0x400000 shift := fun _ => rfl
  obtain ⟨hfresh₁, hapart₁⟩ := emptyRoot_allocation (b := 3) (.refl emptyRoot_tree)
    (by decide +kernel) rfl (by decide) (by decide)
  obtain ⟨hgrows₁, hnode₁⟩ := ensureTable_grows .pdpt rfl emptyRoot_tree (p := []) (f := 1) hpath₁
    (by decide) (fun _ => hfresh₁) fun _ => hapart₁
  have habsent₁ : entry emptyRoot.mem (4096 * 1) (slot 0x400000 39) &&& 1 = 0 := by decide
  have hm₁ := ensureTable_phys_of_absent habsent₁ .pdpt
  generalize hlinked₁ : emptyRoot.ensureTable .pdpt (4096 * 1) (slot 0x400000 39) allocPhys = m₁
    at hgrows₁ hnode₁ hm₁
  obtain ⟨hfresh₂, hapart₂⟩ := emptyRoot_allocation (b := 4) hgrows₁
    (by rw [hm₁]; decide +kernel) (by rw [hm₁]; decide +kernel) (by decide)
    (by rw [hm₁]; decide +kernel)
  have hnext : frameOf (entry m₁.mem (4096 * 1) (slot 0x400000 39)) = 3 := by
    rw [hm₁]
    decide +kernel
  rw [hnext] at hnode₁
  obtain ⟨hgrows₂, -⟩ := ensureTable_grows .pd rfl hgrows₁.tree hpath₂ hnode₁ (fun _ => hfresh₂)
    fun _ => hapart₂
  have habsent₂ : entry m₁.mem (4096 * 3) (slot 0x400000 30) &&& 1 = 0 := by
    rw [hm₁]
    decide +kernel
  have hm₂ := ensureTable_phys_of_absent habsent₂ .pd
  generalize hlinked₂ : m₁.ensureTable .pd (4096 * 3) (slot 0x400000 30) allocPhys = m₂
    at hgrows₂ hm₂
  obtain ⟨hfresh₃, hapart₃⟩ := emptyRoot_allocation (b := 5) (hgrows₁.trans hgrows₂)
    (by rw [hm₂, hm₁]; decide +kernel) (by rw [hm₂, hm₁]; decide +kernel) (by decide)
    (by rw [hm₂, hm₁]; decide +kernel)
  simp only [hslot] at hlinked₁ hlinked₂ hnext
  unfold AtAllocations getActivePageDir
  simp only [and_addrMask]
  rw [show frameOf emptyRoot.cr3 = 1 by decide, hlinked₁, hnext, hlinked₂]
  exact ⟨⟨fun _ => hfresh₁, fun _ => hfresh₂, fun _ => hfresh₃⟩,
    fun _ => hapart₁, fun _ => hapart₂, fun _ => hapart₃⟩

/-- Two pages with the same tables, and the first one mapped again. -/
theorem emptyRoot_lastWrite : ∃ m', Run MapStep emptyRoot
      [⟨0x9000, 0x400000, 0x7⟩, ⟨0xA000, 0x401000, 0x3⟩, ⟨0xB000, 0x400000, 0x7⟩] m' ∧
    m'.TreeOn Set.univ ∧ walk m'.mem m'.cr3 0x400000 = some ⟨0xB007, 12⟩ ∧
    walk m'.mem m'.cr3 0x401000 = some ⟨0xA003, 12⟩ := by
  have hpath : ∀ virt, pathTo virt ∈ paths Set.univ := fun virt =>
    (mem_paths_of_slot (Set.mem_univ (slot virt 39))).2.2
  have hsame : pathTo 0x401000 = pathTo 0x400000 := by decide
  obtain ⟨hfresh, hapart⟩ := emptyRoot_firstCall
  have hfirst : MapStep emptyRoot ⟨0x9000, 0x400000, 0x7⟩ _ := .map hfresh hapart
  generalize emptyRoot.vmmMapPage _ _ _ _ = m₁ at hfirst
  have htree₁ := (step_walk emptyRoot_tree hfirst).1
  have hnode₁ : m₁.node (pathTo 0x401000) ≠ none :=
    hfirst.node_ne_none emptyRoot_tree (hpath _) (Or.inl hsame)
  have hsecond : MapStep m₁ ⟨0xA000, 0x401000, 0x3⟩ _ :=
    .map (atAllocations_of_node hnode₁) (atAllocations_of_node hnode₁)
  generalize m₁.vmmMapPage _ _ _ _ = m₂ at hsecond
  have hnode₂ : m₂.node (pathTo 0x400000) ≠ none :=
    hsecond.node_ne_none htree₁ (hpath _) (Or.inl hsame.symm)
  have hthird : MapStep m₂ ⟨0xB000, 0x400000, 0x7⟩ _ :=
    .map (atAllocations_of_node hnode₂) (atAllocations_of_node hnode₂)
  have hrun := Run.cons hfirst (.cons hsecond (.cons hthird (.nil _)))
  have hempty : emptyRoot.Refines fun _ => none := by
    intro virt
    have hentry : isPresent (entry emptyRoot.mem (4096 * frameOf emptyRoot.cr3)
        (index virt 39)) = false := emptyRoot_absent (slot virt 39)
    unfold walk
    dsimp only
    rw [and_addrMask, hentry]
    rfl
  obtain ⟨htree, -, hspace⟩ := run_lastWrite emptyRoot_tree hrun
  have hrefines := hspace _ hempty
  refine ⟨_, hrun, htree, ?_, ?_⟩
  · rw [hrefines 0x400000]
    decide
  · rw [hrefines 0x401000]
    decide

/-- 32769 blocks with the bitmap in frame 1: its last word is the first one of the root table
in frame 2. Only the last block is free, and all tables for the heap are there but one. -/
def spilledRoot : Machine where
  mem x :=
    if 0x1000 ≤ x ∧ x < 0x2000 then 0xFF
    else ([(0, 0x83), (0x2900, 0x07), (0x2901, 0x30), (0x3000, 0x07), (0x3001, 0x40)].lookup
      x).getD 0
  cr3 := 0x2000
  pmm := { mem := fun _ => 0, pmmBitmap := 0x1000, usedBlocks := 32768, maxBlocks := 32769 }
  granted := []

/-- Entries of the tables are absent except the two that link them. -/
theorem spilledRoot_absent (hf : 2 ≤ f)
    (hlink : 4096 * f + 8 * i ≠ 0x2900 ∧ 4096 * f + 8 * i ≠ 0x3000) :
    tables spilledRoot.mem f i = 0 := by
  have hi := i.isLt
  have hbytes : ∀ k < 8, spilledRoot.mem (4096 * f + 8 * i + k) = UInt8.ofNat (0 / 256 ^ k) := by
    intro k hk
    have hlookup : [(0, (0x83 : UInt8)), (0x2900, 0x07), (0x2901, 0x30), (0x3000, 0x07),
        (0x3001, 0x40)].lookup (4096 * f + 8 * i + k) = none := by
      rw [List.lookup_eq_none_iff]
      intro q hq
      simp only [List.mem_cons, List.not_mem_nil, or_false] at hq
      rcases hq with rfl | rfl | rfl | rfl | rfl <;> exact bne_iff_ne.mpr (by omega)
    unfold spilledRoot
    dsimp only
    rw [if_neg (by omega), hlookup, Nat.zero_div]
    rfl
  exact (Memory.load_eq_of_bytes hbytes).trans (Nat.zero_mod _)

theorem spilledRoot_chain : Chain childFrame (tables spilledRoot.mem) 2 [(288, 3), (0, 4)] := by
  refine ⟨fun i => ?_, fun i => ?_, fun i => ?_⟩
  · split
    next hi =>
      rw [hi]
      decide
    next hi => rw [spilledRoot_absent (by decide) (by omega), childFrame_zero]
  · split
    next hi =>
      rw [hi]
      decide
    next hi => rw [spilledRoot_absent (by decide) (by omega), childFrame_zero]
  · rw [spilledRoot_absent (by decide) (by omega), childFrame_zero]

theorem spilledRoot_root : spilledRoot.root = 2 := (by decide : frameOf 0x2000 = 2)

theorem spilledRoot_node {q : List (Fin 512)} (hnode : spilledRoot.node q = some f) :
    (q, f) ∈ [([], 2), ([288], 3), ([288, 0], (4 : ℕ))] := by
  unfold node at hnode
  rw [spilledRoot_root] at hnode
  exact spilledRoot_chain.node_mem hnode

theorem spilledRoot_tree : spilledRoot.TreeOn Set.univ := by
  constructor
  · rw [spilledRoot_root]
    exact spilledRoot_chain.isTree (by decide)
  · intro p hp hne hlength f hpf i hpresent
    have hpair := spilledRoot_node hpf
    simp only [List.mem_cons, List.not_mem_nil, or_false, Prod.mk.injEq] at hpair
    rcases hpair with ⟨rfl, rfl⟩ | ⟨rfl, rfl⟩ | ⟨rfl, rfl⟩
    · exact absurd rfl hne
    · by_cases hi : i = 0
      · rw [hi]
        decide
      · rw [spilledRoot_absent (by decide) (by omega)]
        rfl
    · rw [spilledRoot_absent (by decide) (by omega)]
      rfl

/-- The last block is granted, and its bit set in the root table. -/
theorem spilledRoot_alloc : spilledRoot.physPmm.pmmAllocBlock =
    (0x8000000, spilledRoot.physPmm.markUsed 32768) := by
  have hbyte : ∀ x, 0x1000 ≤ x → x < 0x2000 → spilledRoot.mem x = 0xFF := fun x hlo hhi =>
    if_pos ⟨hlo, hhi⟩
  have hused : ∀ j < 32768, spilledRoot.physPmm.isUsed (j : ℕ) = true := by
    intro j hj
    have haddr : spilledRoot.physPmm.wordAddr (j / 32 : ℕ) = 0x1000 + 4 * (j / 32) := by
      rw [Pmm.wordAddr, show spilledRoot.physPmm.pmmBitmap = 0x1000 from rfl]
      unfold CInt.toU64
      omega
    have hbits : ∀ k < 8, (0xFF : UInt8).toNat.testBit k = true := by decide
    rw [Pmm.isUsed, Pmm.wordOf_natCast, Pmm.shiftOf_natCast, Pmm.word, haddr,
      Memory.testBit_load (by omega), show spilledRoot.physPmm.mem = spilledRoot.mem from rfl,
      hbyte _ (by omega) (by omega)]
    exact hbits _ (Nat.mod_lt _ (by decide))
  have hlast : spilledRoot.physPmm.isUsed (32768 : ℕ) = false := by decide +kernel
  have hmax : spilledRoot.physPmm.maxBlocks = 32769 := rfl
  rcases spilledRoot.physPmm.pmmAllocBlock_cases with ⟨b, hb, hfree, -, halloc⟩ | ⟨hall, -⟩
  · rw [hmax] at hb
    rw [CInt.toI32_natCast (by omega)] at hfree
    have hlt : ¬ b < 32768 := fun hlt => absurd (hfree.symm.trans (hused b hlt)) (by decide)
    obtain rfl : b = 32768 := by omega
    rw [CInt.toI32_natCast (by decide), show Pmm.blockAddr 32768 = 0x8000000 by decide] at halloc
    exact halloc
  · have hfull := hall 32768 (by rw [hmax]; decide)
    rw [CInt.toI32_natCast (by decide)] at hfull
    exact absurd (hlast.symm.trans hfull) (by decide)

/-- Mapping a page of the heap takes a fresh frame for its table, and gives address 0 a
translation that it did not have. -/
theorem spilledRoot_translates : spilledRoot.TreeOn Set.univ ∧
    spilledRoot.AtAllocations (FreshNext · Set.univ) 0xFFFF900000000000 ∧
    walk spilledRoot.mem spilledRoot.cr3 0 = none ∧
    page 0 ≠ page 0xFFFF900000000000 ∧
    walk (spilledRoot.vmmMapPage 0x5000 0xFFFF900000000000 0x3 allocPhys).mem
      (spilledRoot.vmmMapPage 0x5000 0xFFFF900000000000 0x3 allocPhys).cr3 0 =
        some ⟨0x83, 30⟩ := by
  have hpml4 : entry spilledRoot.mem 0x2000 288 &&& 1 ≠ 0 := by decide
  have hpdpt : entry spilledRoot.mem 0x3000 0 &&& 1 ≠ 0 := by decide
  have hpd : entry spilledRoot.mem 0x4000 0 &&& 1 = 0 := by decide
  have hroot : spilledRoot.getActivePageDir = 0x2000 := by decide
  have hindex : index 0xFFFF900000000000 39 = 288 ∧ index 0xFFFF900000000000 30 = 0 ∧
      index 0xFFFF900000000000 21 = 0 := by decide
  have hlink : entry spilledRoot.mem 0x2000 288 &&& addrMask = 0x3000 ∧
      entry spilledRoot.mem 0x3000 0 &&& addrMask = 0x4000 := by decide
  have htables (role table i) (hpresent : entry spilledRoot.mem table i &&& 1 ≠ 0) :
      spilledRoot.ensureTable role table i allocPhys = spilledRoot := if_neg hpresent
  have hphys (role) : spilledRoot.allocPhys role =
      (0x8000000, { spilledRoot with
        mem := (spilledRoot.physPmm.markUsed 32768).mem
        pmm := spilledRoot.physPmm.markUsed 32768
        granted := [(role, 0x8000000)] }) := by
    unfold allocPhys
    rw [spilledRoot_alloc]
    rfl
  refine ⟨spilledRoot_tree, ?_, by decide, by decide, ?_⟩
  · unfold AtAllocations
    dsimp only
    rw [hroot, hindex.1, hindex.2.1, hindex.2.2, htables _ _ _ hpml4, hlink.1,
      htables _ _ _ hpdpt, hlink.2]
    refine ⟨fun habsent => absurd habsent hpml4, fun habsent => absurd habsent hpdpt, fun _ => ?_⟩
    refine ⟨by rw [spilledRoot_alloc]; decide, fun q _ hf => ?_⟩
    have hpair := spilledRoot_node hf
    rw [spilledRoot_alloc] at hpair
    simp at hpair
  · have hmap : spilledRoot.vmmMapPage 0x5000 0xFFFF900000000000 0x3 allocPhys =
        (spilledRoot.ensureTable .pt 0x4000 0 allocPhys).setMem (BadOS.Kernel.setEntry
          (spilledRoot.ensureTable .pt 0x4000 0 allocPhys).mem 0x8000000 0 0x5003) := by
      unfold vmmMapPage
      dsimp only
      rw [hroot, hindex.1, hindex.2.1, hindex.2.2, htables _ _ _ hpml4, hlink.1,
        htables _ _ _ hpdpt, hlink.2, ensureTable_phys_of_absent hpd, hphys]
      have hpt : entry (BadOS.Kernel.setEntry
          ((spilledRoot.physPmm.markUsed 32768).mem.fill 0x8000000 4096 0) 0x4000 0
            (0x8000000 ||| 0x7)) 0x4000 0 &&& addrMask = 0x8000000 := by decide
      dsimp only [setMem]
      rw [hpt]
      rfl
    rw [hmap, ensureTable_phys_of_absent hpd, hphys]
    decide +kernel

end Machine

end BadOS.Kernel
