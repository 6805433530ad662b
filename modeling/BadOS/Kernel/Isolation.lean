import BadOS.Kernel.BootRoles
import BadOS.Kernel.Start
import BadOS.Kernel.UserAccess

/-! # Isolation of the program

The tables that the boot makes are open to the user for its program, its stack and the
window of the video, and for nothing else. Whatever the user does there, the tables and the
heap of the kernel stay.
-/

namespace BadOS.Kernel

open Kex RadixTree Execution

namespace Machine

variable {m m' : Machine} {slots : Set (Fin 512)} {p q : List (Fin 512)} {i : Fin 512}
variable {f virt phys flags : ℕ} {write : Bool} {role : FrameRole}

/-! ## Links -/

/-- Every link below the lower half and the heap is open to the user; the other entries of
the root table are those of the bootloader. -/
structure Linked (old m : Machine) : Prop where
  links : m.UserLinks bootSlots
  root : ∀ j ∉ bootSlots, tables m.mem m.root j = tables old.mem old.root j

variable {base old : Machine} {new : List (FrameRole × ℕ)} {pages pages' : Set ℕ}
variable {file len vidPhys vidSize k : ℕ}

theorem Linked.sameTables (hlinked : Linked old m) (hsame : SameTables bootSlots m m') :
    Linked old m' := by
  refine ⟨fun q j hq f hf hpresent => ?_, fun j hj => ?_⟩
  · have hpath := paths_prefixClosed bootSlots q j hq
    rw [hsame.node_eq hpath] at hf
    rw [hsame.tables_eq hpath hf] at hpresent ⊢
    exact hlinked.links q j hq f hf hpresent
  · have hroot : m'.root = m.root := by rw [Machine.root, hsame.cr3_eq, Machine.root]
    rw [hroot, hsame.tables_eq nil_mem_paths m.root_node]
    exact hlinked.root j hj

/-- A table that is linked is open, and empty. -/
theorem Linked.ensureTable (hlinked : Linked old m) (htree : m.TreeOn bootSlots)
    (role : FrameRole) (hp : p ++ [i] ∈ paths bootSlots) (hnode : m.node p = some f)
    (hfresh : m.EnsureFresh bootSlots (4096 * f) i) :
    Linked old (m.ensureTable role (4096 * f) i) := by
  by_cases habsent : entry m.mem (4096 * f) i &&& 1 = 0
  · obtain ⟨hframe, hunused⟩ := hfresh habsent
    obtain ⟨n, hn, -, haddr⟩ := hframe.exists_eq
    rw [haddr, Nat.mul_div_cancel_left n (by decide)] at hunused
    have hclosed := paths_prefixClosed bootSlots
    have hnone : childFrame (tables m.mem f i) = none := childFrame_eq_none_iff.mpr habsent
    rw [ensureTable_of_absent habsent, haddr]
    refine ⟨fun q j hq g hg hpresent => ?_, fun j hj => ?_⟩
    · unfold node Machine.root at hg
      dsimp only at hg hpresent ⊢
      rw [tables_link m.mem f i hn] at hg hpresent ⊢
      have hmem := hclosed q j hq
      have hg' := (htree.tree.node_link hclosed hp hnode hnone hunused (childFrame_link hn)
        childFrame_zero hmem).symm.trans hg
      unfold RadixTree.setEntry RadixTree.clear at hpresent ⊢
      -- An entry is the link itself, in the empty table, or an old entry.
      by_cases hentry : g = f ∧ j = i
      · rw [if_pos hentry, link_eq]
        omega
      · rw [if_neg hentry] at hpresent ⊢
        by_cases hnew : g = n
        · rw [if_pos hnew] at hpresent
          exact absurd hpresent (by decide)
        · rw [if_neg hnew] at hpresent ⊢
          split at hg'
          next => exact absurd (Option.some_injective _ hg').symm hnew
          next => exact hlinked.links q j hq g hg' hpresent
    · have hroot : m.root ≠ n := fun h => hunused [] nil_mem_paths (h ▸ m.root_node)
      have hother : ¬ (m.root = f ∧ j = i) := by
        rintro ⟨hsame, rfl⟩
        obtain rfl := htree.tree p (hclosed p j hp) [] nil_mem_paths f hnode
          (hsame ▸ m.root_node)
        exact hj (hp.2 j rfl)
      have hentry := hlinked.root j hj
      unfold Machine.root at hroot hother hentry ⊢
      dsimp only at hroot hother hentry ⊢
      rw [tables_link m.mem f i hn, RadixTree.setEntry, if_neg hother, RadixTree.clear,
        if_neg hroot]
      exact hentry
  · rw [ensureTable_of_present habsent]
    exact hlinked

/-- An entry of a last table links none. -/
theorem Linked.setLeaf {pt v : ℕ} (hlinked : Linked old m) (htree : m.TreeOn bootSlots)
    (hslot : slot virt 39 ∈ bootSlots) (hv : v < 2 ^ 64)
    (hnode : m.node (pathTo virt) = some pt) :
    Linked old (m.setMem (BadOS.Kernel.setEntry m.mem (4096 * pt) (slot virt 12) v)) := by
  have hpath := (mem_paths_of_slot hslot).2.2
  have hother : ∀ q ∈ paths bootSlots, ∀ g, m.node q = some g → q ≠ pathTo virt → ∀ j,
      tables (m.setMem (BadOS.Kernel.setEntry m.mem (4096 * pt) (slot virt 12) v)).mem g j =
        tables m.mem g j := by
    intro q hq g hg hne j
    dsimp only [setMem]
    rw [tables_setEntry m.mem pt (slot virt 12) hv, RadixTree.setEntry, if_neg]
    rintro ⟨rfl, -⟩
    exact hne (htree.tree q hq _ hpath g hg hnode)
  refine ⟨fun q j hq g hg hpresent => ?_, fun j hj => ?_⟩
  · have hmem := paths_prefixClosed bootSlots q j hq
    rw [node_setLeaf hv htree hslot hnode hmem] at hg
    have hne : q ≠ pathTo virt := by
      rintro rfl
      exact pathTo_not_initial hq (List.prefix_refl _)
    rw [hother q hmem g hg hne j] at hpresent ⊢
    exact hlinked.links q j hq g hg hpresent
  · have hne : [] ≠ pathTo virt := by simp [pathTo]
    exact (hother [] nil_mem_paths m.root m.root_node hne j).trans (hlinked.root j hj)

theorem Linked.vmmMapPage (hlinked : Linked old m) (htree : m.TreeOn bootSlots)
    (hslot : slot virt 39 ∈ bootSlots) (hfresh : m.MapFresh bootSlots virt)
    (phys flags : ℕ) : Linked old (m.vmmMapPage phys virt flags) := by
  obtain ⟨hpath₁, hpath₂, hpath₃⟩ := mem_paths_of_slot hslot
  unfold MapFresh getActivePageDir at hfresh
  unfold Machine.vmmMapPage getActivePageDir
  simp only [and_addrMask] at hfresh ⊢
  obtain ⟨hfresh₁, hfresh₂, hfresh₃⟩ := hfresh
  have hroot : m.node [] = some (frameOf m.cr3) := rfl
  obtain ⟨hextends₁, hnode₁⟩ :=
    ensureTable_extends .pdpt rfl htree (p := []) (i := slot virt 39) hpath₁ hroot hfresh₁
  have hlinked₁ := hlinked.ensureTable htree .pdpt (p := []) (i := slot virt 39) hpath₁ hroot
    hfresh₁
  obtain ⟨hextends₂, hnode₂⟩ :=
    ensureTable_extends .pd rfl hextends₁.tree (i := slot virt 30) hpath₂ hnode₁ hfresh₂
  have hlinked₂ := hlinked₁.ensureTable hextends₁.tree .pd (i := slot virt 30) hpath₂ hnode₁
    hfresh₂
  obtain ⟨hextends₃, hnode₃⟩ :=
    ensureTable_extends .pt rfl hextends₂.tree (i := slot virt 21) hpath₃ hnode₂ hfresh₃
  have hlinked₃ := hlinked₂.ensureTable hextends₂.tree .pt (i := slot virt 21) hpath₃ hnode₂
    hfresh₃
  exact hlinked₃.setLeaf hextends₃.tree hslot (leafEntry_lt phys flags) hnode₃

theorem Linked.mapPage (hlinked : Linked old m)
    (hgrown : GrownFrom base bootSlots new m) (hslot : slot virt 39 ∈ bootSlots)
    (phys flags : ℕ) (hlog : ∀ more, (m.vmmMapPage phys virt flags).granted =
      more ++ base.granted → FreshLog base bootSlots more) :
    Linked old (m.vmmMapPage phys virt flags) := by
  obtain ⟨l, hl⟩ := (vmmMapPage_allocs m phys virt flags).granted
  rw [hgrown.granted, ← List.append_assoc] at hl
  exact hlinked.vmmMapPage hgrown.tree hslot
    (hgrown.mapFresh hslot hl.symm (hlog _ hl.symm)) phys flags

/-! ## Mapped pages -/

/-- Only pages of `pages` are mapped in the lower half, and above it only pages of the
kernel. -/
structure Fenced (old m : Machine) (pages : Set ℕ) : Prop extends Linked old m where
  mapped : ∀ virt, Canonical virt → slot virt 39 ∈ bootSlots →
    ∀ e, m.lookup (pathTo virt) (slot virt 12) = some e →
      virt < 2 ^ 47 ∧ virt / 4096 ∈ pages ∨ 2 ^ 47 ≤ virt ∧ ∃ a, e = leafEntry a 3

theorem Fenced.sameTables (hfenced : Fenced old m pages) (hsame : SameTables bootSlots m m') :
    Fenced old m' pages := by
  refine ⟨hfenced.toLinked.sameTables hsame, fun virt hcanonical hslot e hlookup => ?_⟩
  rw [hsame.lookup_eq (mem_paths_of_slot hslot).2.2] at hlookup
  exact hfenced.mapped virt hcanonical hslot e hlookup

/-- A page that is mapped is one more. -/
theorem Fenced.mapPage (hfenced : Fenced old m pages)
    (hgrown : GrownFrom base bootSlots new m) (hslot : slot virt 39 ∈ bootSlots)
    (phys flags : ℕ) (hlog : ∀ more, (m.vmmMapPage phys virt flags).granted =
      more ++ base.granted → FreshLog base bootSlots more)
    (hpages : pages ⊆ pages')
    (hnew : ∀ virt', Canonical virt' → page virt' = page virt →
      virt' < 2 ^ 47 ∧ virt' / 4096 ∈ pages' ∨
        2 ^ 47 ≤ virt' ∧ ∃ a, leafEntry phys flags = leafEntry a 3) :
    (∃ new', GrownFrom base bootSlots new' (m.vmmMapPage phys virt flags)) ∧
      Fenced old (m.vmmMapPage phys virt flags) pages' := by
  obtain ⟨more, hgrown', -, hmaps⟩ := hgrown.vmmMapPage hslot phys flags hlog
  refine ⟨⟨_, hgrown'⟩, hfenced.toLinked.mapPage hgrown hslot phys flags hlog,
    fun virt' hcanonical hslot' e hsome => ?_⟩
  rw [hmaps.lookup_eq _ (mem_paths_of_slot hslot').2.2 rfl] at hsome
  split at hsome
  next hsame =>
    obtain rfl := Option.some_injective _ hsome
    exact hnew virt' hcanonical (page_eq_iff.mpr hsame)
  next =>
    exact (hfenced.mapped virt' hcanonical hslot' e hsome).imp_left
      fun h => ⟨h.1, hpages h.2⟩

/-- After `vmm_initialize` nothing is mapped, if the bootloader has nothing where the heap
comes to be. -/
theorem BootReady.fenced (hready : BootReady old file len)
    (hempty : isPresent (tables old.mem old.root 288) = false)
    (hnull : old.vmmInitialize.NeverNull) : Fenced old old.vmmInitialize ∅ := by
  obtain ⟨n, hn, -, hframe, hunused, -⟩ := hready.rootFrame hnull
  obtain ⟨hroot, hentries, -⟩ := vmmInitialize_spec hframe hn (ne_root_of_unused hunused)
  have hbelow : ∀ q ∈ paths bootSlots, q ≠ [] → old.vmmInitialize.node q = none := by
    intro q hq hne
    by_contra hsome
    obtain ⟨f, hf⟩ := Option.ne_none_iff_exists'.mp hsome
    rcases hready.node_cases hnull hq hf with ⟨hnil, -⟩ | ⟨-, hpath, hnode⟩
    · exact hne hnil
    · have habsent : ∀ i ∈ ({288} : Set (Fin 512)),
          isPresent (tables old.mem old.root i) = false := by
        rintro i rfl
        exact hempty
      exact hne (node_of_absent habsent hpath hnode).1
  refine ⟨⟨fun q j hq f hf hpresent => ?_, fun j hj => ?_⟩,
    fun virt hcanonical hslot e hlookup => ?_⟩
  · by_cases hne : q = []
    · subst hne
      obtain rfl : n = f := hroot.symm.trans (Option.some_injective _ hf)
      have hj : j ∈ bootSlots := hq.2 j rfl
      rw [hentries] at hpresent
      split at hpresent
      · cases hpresent
      · next hhigh =>
        obtain rfl : j = 288 := Fin.ext (hj.resolve_left hhigh)
        rw [hempty] at hpresent
        cases hpresent
    · rw [hbelow q (paths_prefixClosed _ q j hq) hne] at hf
      cases hf
  · rw [hroot, hentries, if_neg fun hlow => hj (Or.inl hlow)]
  · have hnone := hbelow _ (mem_paths_of_slot hslot).2.2 (by simp [pathTo])
    rw [node] at hnone
    rw [lookup, RadixTree.lookup, hnone] at hlookup
    cases hlookup

/-- The first `count` pages of the window. -/
def windowPages (count : ℕ) : Set ℕ := Set.Ico 0x80000 (0x80000 + count)

section Boot

variable (hready : BootReady old file len)

include hready

/-- The rule for the loops of the boot: as long as no allocation fails, an iteration on
tables that have grown from the clean root keeps what it has to keep. -/
theorem BootReady.times_grown (inv : ℕ → Machine → Prop) {count : ℕ}
    {f : ℕ → Machine → Machine}
    (hinit : Allocs old.vmmInitialize m ∧ (∃ new, GrownFrom old.vmmInitialize bootSlots new m) ∧
      inv 0 m)
    (hallocs : ∀ i m, Allocs m (f i m))
    (hstep : ∀ i < count, ∀ m new, GrownFrom old.vmmInitialize bootSlots new m → inv i m →
      (∀ more, (f i m).granted = more ++ old.vmmInitialize.granted →
        FreshLog old.vmmInitialize bootSlots more) →
      (∃ new', GrownFrom old.vmmInitialize bootSlots new' (f i m)) ∧ inv (i + 1) (f i m))
    (hnull : (Loop.times count f m).NeverNull) : inv count (Loop.times count f m) := by
  have hloop : Allocs old.vmmInitialize (Loop.times count f m) ∧
      ((Loop.times count f m).NeverNull →
        (∃ new, GrownFrom old.vmmInitialize bootSlots new (Loop.times count f m)) ∧
          inv count (Loop.times count f m)) := by
    apply Loop.times_invariant (fun i m' => Allocs old.vmmInitialize m' ∧ (m'.NeverNull →
      (∃ new, GrownFrom old.vmmInitialize bootSlots new m') ∧ inv i m'))
    · exact ⟨hinit.1, fun _ => hinit.2⟩
    · intro i hi m' hprev
      obtain ⟨hbefore, hkept⟩ := hprev
      have hlater := hbefore.trans (hallocs i m')
      refine ⟨hlater, fun hnull => ?_⟩
      obtain ⟨⟨new, hgrown⟩, hinv⟩ := hkept (hnull.of_allocs (hallocs i m'))
      exact hstep i hi m' new hgrown hinv (hready.fresh_of_allocs hlater hnull)
  exact (hloop.2 hnull).2

/-- The heap is mapped in the upper half. -/
theorem BootReady.fenced_mapHeap (hempty : isPresent (tables old.mem old.root 288) = false)
    (hnull : old.vmmInitialize.mapHeap.NeverNull) : Fenced old old.vmmInitialize.mapHeap ∅ := by
  have hnull₀ : old.vmmInitialize.NeverNull :=
    hnull.of_allocs (hready.mapHeap hnull).1
  refine hready.times_grown (fun _ m => Fenced old m ∅)
    ⟨.refl rfl rfl, ⟨[], .refl (hready.ready hnull₀).tree⟩, hready.fenced hempty hnull₀⟩
    (fun i m => mapNewPage_allocs m _ _ _) (fun i hi m new hgrown hfenced hlog => ?_) hnull
  have hfenced' : Fenced old (m.allocBlock .heap).2 ∅ := ⟨⟨hfenced.links, hfenced.root⟩,
    hfenced.mapped⟩
  refine hfenced'.mapPage (hgrown.allocBlock .heap) (slot_heapPage hi) _ 3 hlog subset_rfl
    fun virt' hcanonical hpage => Or.inr ⟨?_, _, rfl⟩
  unfold page heapStart at hpage
  unfold heapPages at hi
  unfold Canonical at hcanonical
  omega

/-- The window is mapped behind the program. -/
theorem Fenced.mapVideo (hgrown : GrownFrom old.vmmInitialize bootSlots new m)
    (hallocs : Allocs old.vmmInitialize m) (hfenced : Fenced old m ∅) (hsize : vidSize < 2 ^ 32)
    (hnull : (m.mapVideo vidPhys vidSize).NeverNull) :
    Fenced old (m.mapVideo vidPhys vidSize) (windowPages (pagesNeeded vidPhys vidSize)) := by
  have hcount := pagesNeeded_le vidPhys hsize
  refine hready.times_grown (fun i m => Fenced old m (windowPages i))
    ⟨hallocs, ⟨new, hgrown⟩, ?_⟩ (fun i m => vmmMapPage_allocs m _ _ _)
    (fun i hi m new hgrown hfenced hlog => ?_) hnull
  · rwa [windowPages, Nat.add_zero, Set.Ico_self]
  · refine hfenced.mapPage hgrown (slot_lower (videoPage_lower hsize hi)) _ 0x7 hlog
      (Set.Ico_subset_Ico_right (by omega)) fun virt' hcanonical hpage => Or.inl ?_
    unfold page at hpage
    unfold Canonical at hcanonical
    rw [windowPages, Set.mem_Ico]
    omega

end Boot

/-! ## The loader -/

variable {s : Loader} {frames : ℕ → Option ℕ}

/-- A step of the loader keeps the links. -/
theorem Linked.step (hfile : Loadable base.mem bootSlots file len)
    (hinv : Loader.Inv base bootSlots file len s)
    (halloc : Allocates base bootSlots file len (Loader.step file s).machine)
    (hlinked : Linked old s.machine) : Linked old (Loader.step file s).machine := by
  rcases Loader.step_machine hfile hinv with hsame | ⟨role, virt, hslot, hmap⟩ |
    ⟨new, frames, mem, hplaced, hstore, hkept⟩
  · rwa [hsame]
  · obtain ⟨new, frames, hplaced, -⟩ := hinv
    have hlog := halloc.fresh
    rw [hmap] at hlog ⊢
    have hlinked' : Linked old (s.machine.allocBlock role).2 := ⟨hlinked.links, hlinked.root⟩
    exact hlinked'.mapPage (hplaced.grown.allocBlock role) hslot _ 0x7 hlog
  · rw [hstore]
    exact hlinked.sameTables (hplaced.sameTables hkept)

theorem Linked.run (hready : Ready base bootSlots file len)
    (hfile : Loadable base.mem bootSlots file len)
    (halloc : ∀ n, Allocates base bootSlots file len (Loader.run file base n).machine)
    (hlinked : Linked old base) (n : ℕ) : Linked old (Loader.run file base n).machine := by
  induction n with
  | zero => exact hlinked
  | succ n ih =>
      have hnext := halloc (n + 1)
      rw [Loader.run_succ] at hnext ⊢
      exact ih.step hfile (Loader.run_inv hready hfile halloc n) hnext


/-! ## After the boot -/

/-- The pages of the user: its stack, the window and its segments. -/
def UserPage (mem : Memory) (file vidPhys vidSize p : ℕ) : Prop :=
  p = Loader.stackNumber ∨ p ∈ windowPages (pagesNeeded vidPhys vidSize) ∨
    ∃ i < commandCount mem file, IsSegment mem file i ∧
      ∃ k < (segmentAt mem file i).memSize, p = ((segmentAt mem file i).rva + k) / 4096

theorem userPage_of_sameFile {mem mem' : Memory} {p : ℕ} (hsame : SameFile mem mem' file len)
    (hcommands : CommandsInside mem file len) (hpage : UserPage mem' file vidPhys vidSize p) :
    UserPage mem file vidPhys vidSize p := by
  refine hpage.imp_right (Or.imp_right ?_)
  rintro ⟨i, hi, hsegment, k, hk, rfl⟩
  rw [hsame.commandCount_eq hcommands.header] at hi
  have hsegment' := (hsame.isSegment_iff hcommands hi).mp hsegment
  rw [hsame.segmentAt_eq hcommands hi hsegment'] at hk ⊢
  exact ⟨i, hi, hsegment', k, hk, rfl⟩

theorem Fenced.lower_mapped (hfenced : Fenced old m pages) (hvirt : virt < 2 ^ 47)
    (hlookup : m.lookup (pathTo virt) (slot virt 12) ≠ none) : virt / 4096 ∈ pages := by
  obtain ⟨e, he⟩ := Option.ne_none_iff_exists'.mp hlookup
  rcases hfenced.mapped virt (Or.inl hvirt) (slot_lower hvirt) e he with ⟨-, hmem⟩ | ⟨hhigh, -⟩
  · exact hmem
  · omega

/-- Every page of the window holds a byte of the ramdisk. -/
theorem window_frame {rd : ℕ} (hlo : rd ≤ vidPhys) (hhi : vidPhys + vidSize ≤ rd + len)
    (hsize : vidSize < 2 ^ 32) (hmemory : rd + len ≤ 2 ^ 52)
    (hk : k < pagesNeeded vidPhys vidSize) :
    vidPhys / 4096 + k < 2 ^ 40 ∧ ¬ Apart (4096 * (vidPhys / 4096 + k)) rd len := by
  unfold pagesNeeded at hk
  rw [Nat.mod_eq_of_lt (by omega)] at hk
  unfold Apart
  omega

/-- What is mapped in the lower half are the window and the placed pages. -/
theorem Placed.lookup_ne_none_iff {fileLen : ℕ}
    (hplaced : Placed base bootSlots file fileLen new frames m)
    (hfenced : Fenced old base (windowPages (pagesNeeded vidPhys vidSize)))
    (hvideo : ∀ k < pagesNeeded vidPhys vidSize, base.HasVideoPage vidPhys k)
    (hframes : ∀ p a, frames p = some a → 4096 * p < 2 ^ 47) (hsize : vidSize < 2 ^ 32)
    (hvirt : virt < 2 ^ 47) :
    m.lookup (pathTo virt) (slot virt 12) ≠ none ↔
      virt / 4096 ∈ windowPages (pagesNeeded vidPhys vidSize) ∨
        (frames (virt / 4096)).isSome := by
  have hslot := slot_lower hvirt
  constructor
  · intro hlookup
    by_cases hplace : ∃ p a, frames p = some a ∧
        pathTo virt = pathTo (4096 * p) ∧ slot virt 12 = slot (4096 * p) 12
    · obtain ⟨p, a, hframe, hsame⟩ := hplace
      have hpage := page_eq_iff.mpr hsame
      have hp := hframes p a hframe
      unfold page at hpage
      have hnumber : virt / 4096 = p := by omega
      exact Or.inr (by rw [hnumber, hframe]; rfl)
    · rw [hplaced.kept _ (mem_paths_of_slot hslot).2.2 rfl _ fun p a hframe hsame =>
        hplace ⟨p, a, hframe, hsame⟩] at hlookup
      exact Or.inl (hfenced.lower_mapped hvirt hlookup)
  · rintro (⟨hlo, hhi⟩ | hsome)
    · have hcount := pagesNeeded_le vidPhys hsize
      have hk : virt / 4096 - 0x80000 < pagesNeeded vidPhys vidSize := by omega
      have hpage : page virt =
          page ((0x80000000 + (virt / 4096 - 0x80000) * 4096) % 2 ^ 64) := by
        unfold page
        omega
      obtain ⟨hpath, hindex⟩ := page_eq_iff.mp hpage
      have hentry := hvideo _ hk
      unfold HasVideoPage at hentry
      rw [← hpath, ← hindex] at hentry
      refine hplaced.lookup_ne_none hslot ?_
      rw [hentry]
      exact Option.some_ne_none _
    · obtain ⟨a, hframe⟩ := Option.isSome_iff_exists.mp hsome
      have hmaps : m.MapsTo virt a := (hplaced.mapsTo _ a hframe).of_page
      exact fun hnone => Option.some_ne_none _ (hmaps.symm.trans hnone)

/-- The placed pages at the jump to user mode. -/
theorem userPage_iff {fileLen : ℕ} {entryPoint p : ℕ}
    (hdeclared : Loader.Declared base file frames) (hat : Loader.AtPc base file fileLen frames s)
    (hpc : s.pc = .userMode entryPoint) :
    UserPage base.mem file vidPhys vidSize p ↔
      p ∈ windowPages (pagesNeeded vidPhys vidSize) ∨ (frames p).isSome := by
  unfold Loader.AtPc at hat
  rw [hpc] at hat
  obtain ⟨-, hloaded, hstack⟩ := hat
  constructor
  · rintro (rfl | hwindow | ⟨i, hi, hsegment, k, hk, rfl⟩)
    · exact Or.inr hstack
    · exact Or.inl hwindow
    · obtain ⟨a, hframe, -⟩ := hloaded i hi hsegment k hk
      exact Or.inr (Option.isSome_iff_exists.mpr ⟨a, hframe⟩)
  · rintro (hwindow | hsome)
    · exact Or.inr (Or.inl hwindow)
    · obtain ⟨a, hframe⟩ := Option.isSome_iff_exists.mp hsome
      rcases hdeclared p a hframe with hstack | hsegment
      · exact Or.inl hstack
      · exact Or.inr (Or.inr hsegment)

/-- A page of the lower half that was mapped before the loader ran is one of the window. -/
theorem Fenced.leaf_window (hfenced : Fenced old m (windowPages (pagesNeeded vidPhys vidSize)))
    (hvideo : ∀ k < pagesNeeded vidPhys vidSize, m.HasVideoPage vidPhys k)
    (hsize : vidSize < 2 ^ 32) (hphys : vidPhys + vidSize ≤ 2 ^ 52) {e : ℕ} (hvirt : virt < 2 ^ 47)
    (hlookup : m.lookup (pathTo virt) (slot virt 12) = some e) :
    ∃ k < pagesNeeded vidPhys vidSize, virt / 4096 = 0x80000 + k ∧
      e = leafEntry (4096 * (vidPhys / 4096 + k)) 0x7 := by
  have hmem := hfenced.lower_mapped hvirt (by rw [hlookup]; exact Option.some_ne_none _)
  have hcount := pagesNeeded_le vidPhys hsize
  obtain ⟨hlo, hhi⟩ := hmem
  have hk : virt / 4096 - 0x80000 < pagesNeeded vidPhys vidSize := by omega
  refine ⟨virt / 4096 - 0x80000, hk, by omega, ?_⟩
  have hpage : page virt = page ((0x80000000 + (virt / 4096 - 0x80000) * 4096) % 2 ^ 64) := by
    unfold page
    omega
  obtain ⟨hpath, hindex⟩ := page_eq_iff.mp hpage
  have hphys : (4096 * (vidPhys / 4096) + (virt / 4096 - 0x80000) * 4096) % 2 ^ 64 =
      4096 * (vidPhys / 4096 + (virt / 4096 - 0x80000)) := by
    rw [Nat.mod_eq_of_lt (by omega)]
    omega
  have hentry := hvideo _ hk
  unfold HasVideoPage at hentry
  rw [← hpath, ← hindex, hlookup, hphys] at hentry
  exact Option.some_injective _ hentry

/-- No page of the heap is a table. -/
theorem DistinctRoles.heap_ne {before : Machine} (hdistinct : DistinctRoles old before m)
    (hready : BootReady old file len) (hallocs : Allocs old m) (hnull : m.NeverNull) {x : ℕ}
    (hx : m.HeapByte x) (hq : q ∈ paths bootSlots) : m.node q ≠ some (x / 4096) := by
  intro hnode
  unfold HeapByte at hx
  have hrole : ∀ role : FrameRole, (role, 4096 * (x / 4096)) ∈ m.granted → role = .heap :=
    fun role hgrant =>
      congrArg Prod.fst (List.inj_on_of_nodup_map hdistinct.nodup hgrant hx rfl)
  by_cases hnil : q = []
  · obtain rfl := hnil
    have hroot : m.root = x / 4096 := Option.some_injective _ hnode
    have hgrant := hdistinct.root
    rw [hroot] at hgrant
    cases hrole _ hgrant
  · rcases hdistinct.table q hq hnil _ hnode with ⟨role, htable, hgrant⟩ | ⟨hpath, hold⟩
    · rw [hrole role hgrant] at htable
      cases htable
    · obtain ⟨j, -, -, haddr, hunused, -⟩ := hready.granted_frame hallocs hnull hx
      dsimp only at haddr
      have hsame : x / 4096 = j := by omega
      exact hunused q hpath (hsame ▸ hold)

section Isolation

variable {rd : ℕ} (hready : BootReady old rd len)
variable (hclosed : ∀ i : Fin 512, 256 ≤ i.val →
  userAllows false (tables old.mem old.root i) = false)
variable (hempty : isPresent (tables old.mem old.root 288) = false)
variable (hlo : rd ≤ vidPhys) (hhi : vidPhys + vidSize ≤ rd + len) (hsize : vidSize < 2 ^ 32)
variable (hmemory : rd + len ≤ 2 ^ 52)
variable (hstores : HeapStores old.vmmInitialize.mapHeap m)

include hready hclosed hempty hlo hhi hsize hmemory hstores

/-- Every state of the loader is confined, and at the jump to user mode just the pages of
the user are mapped in the lower half. -/
theorem boot_confined {fileLen : ℕ} (hfile : Loadable old.mem lowerSlots file fileLen)
    (hfileLo : rd ≤ file) (hfileHi : file + fileLen ≤ rd + len)
    (hnull : ∀ n, (Loader.run file (m.mapVideo vidPhys vidSize) n).machine.NeverNull) (n : ℕ) :
    (Loader.run file (m.mapVideo vidPhys vidSize) n).machine.Confined ∧
      ∀ entryPoint, (Loader.run file (m.mapVideo vidPhys vidSize) n).pc = .userMode entryPoint →
        ∀ virt < 2 ^ 47, (Loader.run file (m.mapVideo vidPhys vidSize) n).machine.lookup
          (pathTo virt) (slot virt 12) ≠ none ↔
            UserPage old.mem file vidPhys vidSize (virt / 4096) := by
  have hvideoAllocs : Allocs m (m.mapVideo vidPhys vidSize) := mapVideo_allocs m vidPhys vidSize
  have hheapAllocs : Allocs old.vmmInitialize.mapHeap m :=
    .refl hstores.pmm_eq hstores.granted_eq
  have hnullVideo : (m.mapVideo vidPhys vidSize).NeverNull := hnull 0
  have hnullHeap : old.vmmInitialize.mapHeap.NeverNull :=
    hnullVideo.of_allocs (hheapAllocs.trans hvideoAllocs)
  obtain ⟨hallocs, new, hbooted⟩ := hready.mapHeap hnullHeap
  have hbooted' := hbooted.heapStores hready hallocs hnullHeap (le_refl _) hstores
  have hallocs' := hallocs.trans hheapAllocs
  have hfenced := ((hready.fenced_mapHeap hempty hnullHeap).sameTables
    (hbooted.sameTables hready hallocs hnullHeap hstores)).mapVideo hready hbooted'.grown hallocs'
      hsize hnullVideo
  have hvideo := hbooted'.mapVideo_lookup hready hallocs' hsize hnullVideo
  obtain ⟨hbeforeAllocs, newVideo, hbefore⟩ := hbooted'.mapVideo hready hallocs' hsize hnullVideo
  -- From here on only the loader runs.
  generalize m.mapVideo vidPhys vidSize = before at *
  have hrun : ∀ n, Allocs before (Loader.run file before n).machine :=
    fun n => Loader.run_allocs file before (Nat.zero_le n)
  have hreadyRd := hbefore.ready hready hbeforeAllocs hnullVideo
  have hsame : SameFile old.mem before.mem file fileLen :=
    fun x hlo hhi => hbefore.file_eq x (by omega) (by omega)
  have hload := Loadable.mono lowerSlots_subset (Loadable.of_sameFile hsame hfile)
  have halloc : ∀ n, Allocates before bootSlots rd len (Loader.run file before n).machine :=
    fun n => hbefore.allocates hready hbeforeAllocs (hrun n) (hnull n)
  obtain ⟨more, frames, hplaced, hdeclared, hat⟩ :=
    Loader.run_inv (hreadyRd.mono hfileLo hfileHi) hload
      (fun n => (halloc n).mono hfileLo hfileHi) n
  have hlinked := Linked.run (hreadyRd.mono hfileLo hfileHi) hload
    (fun n => (halloc n).mono hfileLo hfileHi) hfenced.toLinked n
  have hbeforeFile : Booted old file fileLen newVideo heapPages before :=
    ⟨hbefore.grown, hsame, hbefore.heap⟩
  have hframes : ∀ p a, frames p = some a → 4096 * p < 2 ^ 47 := fun p a hframe =>
    declared_lower (Loadable.of_sameFile hsame hfile) hdeclared hframe
  have hdistinct := hbeforeFile.distinctRoles (hready.mono hfileLo hfileHi) hbeforeAllocs (hrun n)
    (hnull n) hplaced hframes
  have hapart := (halloc n).apart _ hplaced.grown.granted
  have hall := (vmmInitialize_allocs old).trans (hbeforeAllocs.trans (hrun n))
  have hnull := hnull n
  generalize Loader.run file before n = s at *
  refine ⟨⟨hplaced.grown.tree, hlinked.links, fun i hi => ?_, fun virt hvirt e hlookup => ?_,
    fun virt hvirt hcanonical hslot e hlookup => ?_,
    fun x hx q hq => hdistinct.heap_ne hready hall hnull hx hq⟩, ?_⟩
  · rw [hlinked.root i hi]
    exact hclosed i (by by_contra hlow; exact hi (Or.inl (by omega)))
  · rcases hdistinct.user virt hvirt e hlookup with hold | ⟨role, a, hrole, hgrant, rfl⟩
    · obtain ⟨k, hk, -, rfl⟩ := hfenced.leaf_window hvideo hsize (by omega) hvirt hold
      obtain ⟨hframe, hmeets⟩ := window_frame hlo hhi hsize hmemory hk
      refine ⟨_, hframe, rfl, fun q hq hnode => ?_, fun hgrant => ?_⟩
      · rcases hplaced.grown.node q hq _ hnode with hold | ⟨role, -, hgrant⟩
        · exact hmeets (hreadyRd.apart q hq _ hold)
        · exact hmeets (hapart _ hgrant)
      · obtain ⟨i, -, -, haddr, -, hheap⟩ := hready.granted_frame hall hnull hgrant
        rw [← haddr] at hheap
        exact hmeets hheap
    · obtain ⟨i, hi, -, haddr, -⟩ := hready.granted_frame hall hnull hgrant
      obtain ⟨htables, hheap⟩ := hdistinct.separate role a hrole hgrant
      dsimp only at haddr
      rw [haddr] at htables hheap ⊢
      rw [Nat.mul_div_cancel_left i (by decide)] at htables
      exact ⟨i, hi, rfl, htables, hheap⟩
  · rw [hplaced.kept _ (mem_paths_of_slot hslot).2.2 rfl _ fun p a hframe hsame => by
      have hp := hframes p a hframe
      have hpage := page_eq_iff.mpr hsame
      unfold page at hpage
      unfold Canonical at hcanonical
      omega] at hlookup
    rcases hfenced.mapped virt hcanonical hslot e hlookup with ⟨hlow, -⟩ | ⟨-, hkernel⟩
    · omega
    · exact hkernel
  · intro entryPoint hpc virt hvirt
    rw [hplaced.lookup_ne_none_iff hfenced hvideo hframes hsize hvirt,
      ← userPage_iff hdeclared hat hpc]
    exact ⟨userPage_of_sameFile hsame hfile.toCommandsInside,
      userPage_of_sameFile (fun x hlo hhi => (hsame x hlo hhi).symm)
        (Loadable.of_sameFile hsame hfile).toCommandsInside⟩

end Isolation

/-- Confinement is a matter of the tables and the log. -/
theorem Confined.sameTables (hconfined : m.Confined) (hsame : SameTables bootSlots m m')
    (hgranted : m'.granted = m.granted) : m'.Confined := by
  have hroot : m'.root = m.root := by rw [Machine.root, hsame.cr3_eq, Machine.root]
  have hlinked : Linked m m' := Linked.sameTables ⟨hconfined.links, fun _ _ => rfl⟩ hsame
  refine ⟨hsame.treeOn hconfined.tree, hlinked.links, fun j hj => ?_,
    fun virt hvirt e hlookup => ?_, fun virt hvirt hcanonical hslot e hlookup => ?_,
    fun x hx q hq => ?_⟩
  · rw [hlinked.root j hj]
    exact hconfined.root j hj
  · rw [hsame.lookup_eq (mem_paths_of_slot (slot_lower hvirt)).2.2] at hlookup
    obtain ⟨f, hf, he, hnode, hheap⟩ := hconfined.lower virt hvirt e hlookup
    refine ⟨f, hf, he, fun q hq => ?_, by rwa [hgranted]⟩
    rw [hsame.node_eq hq]
    exact hnode q hq
  · rw [hsame.lookup_eq (mem_paths_of_slot hslot).2.2] at hlookup
    exact hconfined.upper virt hvirt hcanonical hslot e hlookup
  · unfold HeapByte at hx
    rw [hgranted] at hx
    rw [hsame.node_eq hq]
    exact hconfined.heap x hx q hq

section PhysIsolation

variable {rd lo room fileLen : ℕ} (hready : PhysReady old rd len lo room)
variable (hclosed : ∀ i : Fin 512, 256 ≤ i.val →
  userAllows false (tables old.mem old.root i) = false)
variable (hempty : isPresent (tables old.mem old.root 288) = false)
variable (hvidLo : rd ≤ vidPhys) (hvidHi : vidPhys + vidSize ≤ rd + len)
variable (hsize : vidSize < 2 ^ 32) (hmemory : rd + len ≤ 2 ^ 52)
variable (hstores : HeapStores ((old.vmmInitialize allocPhys).mapHeap allocPhys) m)
variable (hfile : Loadable old.mem lowerSlots file fileLen)
variable (hinside : ∀ i < commandCount old.mem file, IsSegment old.mem file i →
  (segmentAt old.mem file i).fileOffset + (segmentAt old.mem file i).fileSize ≤ fileLen)
variable (hfileLo : rd ≤ file) (hfileHi : file + fileLen ≤ rd + len)
variable (hnull : ∀ n, (Loader.run file (m.mapVideo vidPhys vidSize allocPhys) n
  allocPhys).machine.NeverNull)

include hready hclosed hempty hvidLo hvidHi hsize hmemory hstores hfile hinside hfileLo hfileHi
  hnull

/-- With the bitmap in memory the boot confines the user as well. -/
theorem PhysReady.boot_confined {n entryPoint : ℕ}
    (hpc : (Loader.run file (m.mapVideo vidPhys vidSize allocPhys) n allocPhys).pc =
      .userMode entryPoint) :
    (Loader.run file (m.mapVideo vidPhys vidSize allocPhys) n allocPhys).machine.Confined ∧
      ∀ virt < 2 ^ 47,
        (Loader.run file (m.mapVideo vidPhys vidSize allocPhys) n allocPhys).machine.lookup
          (pathTo virt) (slot virt 12) ≠ none ↔
            UserPage old.mem file vidPhys vidSize (virt / 4096) := by
  have hserved : EitherServed old.vmmInitialize.mapHeap
      ((old.vmmInitialize allocPhys).mapHeap allocPhys) := by
    refine Or.inr fun g hg => hnull 0 g ?_
    rw [← hstores.granted_eq] at hg
    exact (mapVideo_granted m vidPhys vidSize).subset hg
  obtain ⟨m', hstores', -, hfollows⟩ :=
    (hready.mono hfileLo hfileHi).boot_follows hfile hinside hstores hsize hserved
  have hnull' : ∀ n, (Loader.run file (m'.mapVideo vidPhys vidSize) n).machine.NeverNull := by
    intro n
    obtain ⟨-, phys, hphys, htracks⟩ := hfollows n (Or.inr (hnull n))
    have hserved := hnull n
    rw [hphys] at hserved
    exact (htracks.mirrors.neverNull (Or.inr hserved)).1
  obtain ⟨hconfined, hpages⟩ := Machine.boot_confined hready.ready hclosed hempty hvidLo hvidHi
    hsize hmemory hstores' hfile hfileLo hfileHi hnull' n
  obtain ⟨hguards, phys, hphys, htracks⟩ := hfollows n (Or.inl (hnull' n))
  have hsame := htracks.mirrors.sameTables fun q hq f hf =>
    htracks.apart hguards (hnull' n) hq hf
  rw [hphys] at hpc ⊢
  refine ⟨hconfined.sameTables hsame htracks.mirrors.granted_eq, fun virt hvirt => ?_⟩
  rw [Loader.on_machine, hsame.lookup_eq (mem_paths_of_slot (slot_lower hvirt)).2.2]
  exact hpages entryPoint hpc virt hvirt

/-- Whatever the process does once it runs, it reaches just its own pages, none of which
holds a table or a page of the heap: its address space and the heap stay as the boot left
them, and the tables as well but for accessed and dirty bits. -/
theorem boot_isolates {n entryPoint : ℕ} {actions : List UserAction}
    (hpc : (Loader.run file (m.mapVideo vidPhys vidSize allocPhys) n allocPhys).pc =
      .userMode entryPoint)
    (hrun : Run UserStep (Loader.run file (m.mapVideo vidPhys vidSize allocPhys) n
      allocPhys).machine actions m') :
    (∀ write virt, m'.userTranslate write virt = (if virt < 2 ^ 47 then
        (Loader.run file (m.mapVideo vidPhys vidSize allocPhys) n allocPhys).machine.translate virt
      else none) ∧
      ((m'.userTranslate write virt).isSome ↔
        virt < 2 ^ 47 ∧ UserPage old.mem file vidPhys vidSize (virt / 4096))) ∧
    (∀ write virt phys, m'.userTranslate write virt = some phys →
      ¬ m'.TableByte bootSlots phys ∧ ¬ m'.HeapByte phys) ∧
    Undisturbed (Loader.run file (m.mapVideo vidPhys vidSize allocPhys) n allocPhys).machine
      m' := by
  obtain ⟨hconfined, hpages⟩ := hready.boot_confined hclosed hempty hvidLo hvidHi hsize hmemory
    hstores hfile hinside hfileLo hfileHi hnull hpc
  generalize (Loader.run file (m.mapVideo vidPhys vidSize allocPhys) n allocPhys).machine = user
    at *
  have hundisturbed := hconfined.run hrun
  have htranslate : ∀ write virt, m'.userTranslate write virt = user.userTranslate write virt :=
    hconfined.userTranslate_marked hundisturbed.tables
  refine ⟨fun write virt => ⟨?_, ?_⟩, fun write virt phys hphys => ?_, hundisturbed⟩
  · rw [htranslate, hconfined.userTranslate_eq]
  · rw [htranslate, hconfined.userTranslate_eq]
    split
    · next hvirt =>
      have hcanonical : Canonical virt := Or.inl hvirt
      rw [and_iff_right hvirt, ← hpages virt hvirt, translate, if_pos hcanonical,
        walk_eq_lookup hconfined.tree (slot_lower hvirt)]
      cases user.lookup (pathTo virt) (slot virt 12) <;> simp
    · next hvirt =>
      rw [Option.isSome_none]
      exact iff_of_false Bool.false_ne_true fun h => hvirt h.1
  · rw [htranslate] at hphys
    obtain ⟨-, htables, hbyte⟩ := hconfined.exists_frame hphys
    refine ⟨fun htable => ?_, ?_⟩
    · obtain ⟨q, hq, hnode⟩ := htable
      exact htables q hq ((hundisturbed.tables.node_eq hq).symm.trans hnode)
    · unfold HeapByte at hbyte ⊢
      rwa [hundisturbed.granted_eq]

end PhysIsolation

theorem exists_store (hsome : (m.userTranslate true virt).isSome) (b : UInt8) :
    ∃ m', UserStep m (.store virt b) m' := by
  obtain ⟨phys, hopen⟩ := Option.isSome_iff_exists.mp hsome
  exact ⟨_, .store hopen⟩

/-- The processor marks the entry of the root table. -/
theorem exists_mark (hopen : (m.userTranslate false virt).isSome) :
    ∃ m', UserStep m (.mark virt (m.cr3 &&& addrMask) (index virt 39) accessed) m' :=
  ⟨_, .mark hopen List.mem_cons_self (Or.inl rfl)⟩

theorem bootable_runs (hstores : HeapStores ((bootable.vmmInitialize allocPhys).mapHeap
    allocPhys) m) :
    (∀ n, (Loader.run 0x10000 (m.mapVideo 0x10000 227 allocPhys) n allocPhys).machine.NeverNull) ∧
    ∃ n entryPoint, (Loader.run 0x10000 (m.mapVideo 0x10000 227 allocPhys) n allocPhys).pc =
      .userMode entryPoint := by
  have hframes : bootFrames bootable 0x10000 0x10000 227 ≤ bootable.pmm.freeBlocks :=
    bootable_bootFrames (by decide)
  have hserved := @boot_served_iff _ _ _ _ _ _ 0x10000 _ bootable_physReady
    bootable_freeFrom.sound bootable_loadable bootable_inside hstores
    (show 227 < 2 ^ 32 by decide) (show validMagic bootable.mem 0x10000 = true by decide)
  have hnull := hserved.1.mpr hframes
  obtain ⟨n, entryPoint, hpc, -⟩ := hserved.2 hnull
  exact ⟨hnull, n, entryPoint, hpc⟩

/-- A process that loads from its first segment, stores to it and stores to the window. -/
theorem bootable_isolates : ∃ n entryPoint m' actions,
    (Loader.run 0x10000 (((bootable.vmmInitialize allocPhys).mapHeap allocPhys).mapVideo
      0x10000 227 allocPhys) n allocPhys).pc = .userMode entryPoint ∧
    Run UserStep (Loader.run 0x10000 (((bootable.vmmInitialize allocPhys).mapHeap
      allocPhys).mapVideo 0x10000 227 allocPhys) n allocPhys).machine actions m' ∧
    actions.length = 3 ∧ (m'.userTranslate true 0x603000).isSome ∧
    m'.userTranslate true heapStart = none := by
  have hclosed : ∀ i : Fin 512, 256 ≤ i.val →
      userAllows false (tables bootable.mem bootable.root i) = false := by decide +kernel
  have hempty : isPresent (tables bootable.mem bootable.root 288) = false := by decide
  generalize hbooted : (bootable.vmmInitialize allocPhys).mapHeap allocPhys = booted
  have hstores : HeapStores ((bootable.vmmInitialize allocPhys).mapHeap allocPhys) booted := by
    rw [hbooted]
    exact ⟨rfl, rfl, rfl, fun _ _ => rfl⟩
  obtain ⟨hnull, n, entryPoint, hpc⟩ := bootable_runs hstores
  have hsegment : ∀ virt, virt = 0x601000 ∨ virt = 0x603000 ∨ virt = 0x80000000 →
      virt < 2 ^ 47 ∧ UserPage bootable.mem 0x10000 0x10000 227 (virt / 4096) := by
    rintro virt (rfl | rfl | rfl)
    · exact ⟨by decide, Or.inr (Or.inr ⟨0, by decide, by decide, 0, by decide, by decide⟩)⟩
    · exact ⟨by decide, Or.inr (Or.inr ⟨2, by decide, by decide, 0, by decide, by decide⟩)⟩
    · exact ⟨by decide, Or.inr (Or.inl ⟨by decide, by decide⟩)⟩
  have hreach : ∀ actions m', Run UserStep (Loader.run 0x10000 (booted.mapVideo 0x10000 227
      allocPhys) n allocPhys).machine actions m' → ∀ write virt,
        (m'.userTranslate write virt).isSome ↔ virt < 2 ^ 47 ∧
          UserPage bootable.mem 0x10000 0x10000 227 (virt / 4096) :=
    fun actions m' hrun write virt => ((boot_isolates bootable_physReady hclosed hempty
      (le_refl 0x10000) (by decide) (by decide) (by decide) hstores bootable_loadable
      bootable_inside (le_refl 0x10000) (by decide) hnull hpc hrun).1 write virt).2
  -- Each access is open after the ones before it.
  obtain ⟨m₁, hstep₁⟩ := exists_mark
    ((hreach _ _ (.nil _) false 0x601000).mpr (hsegment _ (Or.inl rfl)))
  have hrun₁ := Run.cons hstep₁ (.nil m₁)
  obtain ⟨m₂, hstep₂⟩ := exists_store
    ((hreach _ _ hrun₁ true 0x601000).mpr (hsegment _ (Or.inl rfl))) 0
  have hrun₂ := Run.cons hstep₁ (Run.cons hstep₂ (.nil m₂))
  obtain ⟨m₃, hstep₃⟩ := exists_store
    ((hreach _ _ hrun₂ true 0x80000000).mpr (hsegment _ (Or.inr (Or.inr rfl)))) 0
  have hrun₃ := Run.cons hstep₁ (Run.cons hstep₂ (Run.cons hstep₃ (.nil m₃)))
  refine ⟨n, entryPoint, m₃, _, hpc, hrun₃, rfl,
    (hreach _ _ hrun₃ true 0x603000).mpr (hsegment _ (Or.inr (Or.inl rfl))), ?_⟩
  by_contra hheap
  have hopen := (hreach _ _ hrun₃ true heapStart).mp (Option.isSome_iff_ne_none.mpr hheap)
  exact absurd hopen.1 (by decide)

end Machine

end BadOS.Kernel
