import BadOS.Kernel.BootFrames
import BadOS.Kernel.LoadedImage

/-! # The frames that a boot takes

The boot takes a frame for the root table, one for every page of the heap, of the
segments and of the stack, and one for every table that these and the window of the
video need. With as many free frames it comes to user mode, and with fewer an
allocation fails.
-/

namespace BadOS.Kernel

open Kex RadixTree

namespace Machine

variable {old m m' : Machine} {slots : Set (Fin 512)} {file len limit total n k : ℕ}
variable {vidPhys vidSize virt : ℕ} {S : Finset (List (Fin 512))} {q : List (Fin 512)}
variable {new : List (FrameRole × ℕ)}

/-! ## The boot -/

/-- The tables for the pages of the heap. -/
def heapTables : Finset (List (Fin 512)) :=
  tablesOf (fun i => heapStart + 4096 * i) heapPages

/-- The tables for the window of the video. -/
def videoTables (vidPhys vidSize : ℕ) : Finset (List (Fin 512)) :=
  tablesOf (fun i => (0x80000000 + i * 4096) % 2 ^ 64) (pagesNeeded vidPhys vidSize)

/-- The tables that the boot needs. -/
def bootTables (mem : Memory) (file vidPhys vidSize : ℕ) : Finset (List (Fin 512)) :=
  heapTables ∪ videoTables vidPhys vidSize ∪ Loader.fileTables mem file

/-- The pages that the boot allocates. -/
def bootPages (mem : Memory) (file : ℕ) : ℕ := heapPages + (Loader.pagesFrom mem file 0 + 1)

/-- The frames that the boot takes. -/
def bootFrames (old : Machine) (file vidPhys vidSize : ℕ) : ℕ :=
  1 + old.vmmInitialize.missing (bootTables old.mem file vidPhys vidSize) + bootPages old.mem file

theorem pagesNeeded_le (vidPhys : ℕ) (hsize : vidSize < 2 ^ 32) :
    pagesNeeded vidPhys vidSize ≤ 2 ^ 20 + 2 := by
  unfold pagesNeeded
  rw [Nat.mod_eq_of_lt (by omega)]
  omega

theorem videoPage_lower (hsize : vidSize < 2 ^ 32) (hk : k < pagesNeeded vidPhys vidSize) :
    (0x80000000 + k * 4096) % 2 ^ 64 < 2 ^ 47 := by
  have hpages := pagesNeeded_le vidPhys hsize
  rw [Nat.mod_eq_of_lt (by omega)]
  omega

theorem bootFrames_le (old : Machine) (file vidPhys vidSize : ℕ) :
    bootFrames old file vidPhys vidSize ≤
      1 + 4 * bootPages old.mem file + 3 * pagesNeeded vidPhys vidSize := by
  have hmissing := old.vmmInitialize.missing_le_card (bootTables old.mem file vidPhys vidSize)
  have hunion := Finset.card_union_le (heapTables ∪ videoTables vidPhys vidSize)
    (Loader.fileTables old.mem file)
  have hunion' := Finset.card_union_le heapTables (videoTables vidPhys vidSize)
  have hheap : heapTables.card ≤ heapPages * 3 := tablesOf_card_le _ _
  have hvideo : (videoTables vidPhys vidSize).card ≤ pagesNeeded vidPhys vidSize * 3 :=
    tablesOf_card_le _ _
  have hfile := Loader.fileTables_card_le old.mem file
  unfold bootTables at hmissing
  unfold bootFrames bootTables bootPages
  omega

theorem heapTables_subset : ↑heapTables ⊆ paths bootSlots :=
  tablesOf_subset_paths fun _ hi => slot_heapPage hi

theorem videoTables_subset (hsize : vidSize < 2 ^ 32) :
    ↑(videoTables vidPhys vidSize) ⊆ paths bootSlots :=
  tablesOf_subset_paths fun _ hi => slot_lower (videoPage_lower hsize hi)

theorem bootTables_subset {mem : Memory} (hfile : Loadable mem bootSlots file len)
    (hsize : vidSize < 2 ^ 32) : ↑(bootTables mem file vidPhys vidSize) ⊆ paths bootSlots := by
  unfold bootTables
  rw [Finset.coe_union, Finset.coe_union, Set.union_subset_iff, Set.union_subset_iff]
  exact ⟨⟨heapTables_subset, videoTables_subset hsize⟩, Loader.fileTables_subset hfile⟩

theorem BootReady.supplies (hready : BootReady old file len) (hsound : old.pmm.Sound) :
    Supplies old.vmmInitialize bootSlots old.pmm.freeBlocks := by
  have hnull : old.NeverNull := by
    unfold NeverNull
    rw [hready.granted]
    simp
  refine ⟨fun m hallocs => ?_, fun m hallocs hnull => hready.fresh_of_allocs hallocs hnull⟩
  rw [((vmmInitialize_allocs old).trans hallocs).neverNull_iff hsound hnull, hready.granted,
    List.length_nil, Nat.zero_add]

theorem Stocked.mapHeap (hsupplies : Supplies m bootSlots limit) (hS : ↑S ⊆ paths bootSlots)
    (htables : heapTables ⊆ S) (hstocked : Stocked m bootSlots S total (heapPages + k) m)
    (hserved : Served limit total m.mapHeap) : Stocked m bootSlots S total k m.mapHeap := by
  have hloop : Allocs m m.mapHeap ∧ (Served limit total m.mapHeap →
      ∀ left, left + heapPages = heapPages → Stocked m bootSlots S total (left + k) m.mapHeap) := by
    unfold Machine.mapHeap
    apply Loop.times_invariant (fun i m' => Allocs m m' ∧ (Served limit total m' →
      ∀ left, left + i = heapPages → Stocked m bootSlots S total (left + k) m'))
    · refine ⟨.refl rfl rfl, fun _ left hleft => ?_⟩
      rwa [← hleft] at hstocked
    · intro i hi m' hinv
      obtain ⟨hallocs, hbefore⟩ := hinv
      have hstep := mapNewPage_allocs m' .heap (heapStart + 4096 * i) 3
      refine ⟨hallocs.trans hstep, fun hserved left hleft => ?_⟩
      have hstocked := hbefore (hserved.of_allocs hstep) (left + 1) (by omega)
      rw [Nat.add_right_comm] at hstocked
      have hpaths : tablePaths (heapStart + 4096 * i) ⊆ S :=
        (tablePaths_subset_tablesOf (fun i => heapStart + 4096 * i) hi).trans htables
      exact hstocked.mapNewPage hsupplies hS hpaths (slot_heapPage hi) .heap 3 hserved
  have hdone := hloop.2 hserved 0 (Nat.zero_add _)
  rwa [Nat.zero_add] at hdone

theorem Stocked.mapVideo (hsupplies : Supplies old bootSlots limit) (hS : ↑S ⊆ paths bootSlots)
    (htables : videoTables vidPhys vidSize ⊆ S) (hsize : vidSize < 2 ^ 32)
    (hstocked : Stocked old bootSlots S total k m)
    (hserved : Served limit total (m.mapVideo vidPhys vidSize)) :
    Stocked old bootSlots S total k (m.mapVideo vidPhys vidSize) := by
  have hloop : Served limit total (m.mapVideo vidPhys vidSize) →
      Stocked old bootSlots S total k (m.mapVideo vidPhys vidSize) := by
    unfold Machine.mapVideo
    apply Loop.times_invariant (fun _ m' => Served limit total m' →
      Stocked old bootSlots S total k m')
    · exact fun _ => hstocked
    · intro i hi m' hbefore hserved
      have hpaths : tablePaths ((0x80000000 + i * 4096) % 2 ^ 64) ⊆ S :=
        (tablePaths_subset_tablesOf (fun i => (0x80000000 + i * 4096) % 2 ^ 64)
          hi).trans htables
      have hstocked := hbefore (hserved.of_allocs (vmmMapPage_allocs m' _ _ _))
      exact hstocked.vmmMapPage hsupplies hS hpaths (slot_lower (videoPage_lower hsize hi)) _ _
        hserved
  exact hloop hserved

/-- The entry for page `k` of the window. -/
def HasVideoPage (m : Machine) (vidPhys k : ℕ) : Prop :=
  m.lookup (pathTo ((0x80000000 + k * 4096) % 2 ^ 64))
    (slot ((0x80000000 + k * 4096) % 2 ^ 64) 12) =
      some (leafEntry ((4096 * (vidPhys / 4096) + k * 4096) % 2 ^ 64) 0x7)

theorem videoPage_injective {i j : ℕ} (hsize : vidSize < 2 ^ 32)
    (hi : i < pagesNeeded vidPhys vidSize) (hj : j < pagesNeeded vidPhys vidSize)
    (hpage : page ((0x80000000 + i * 4096) % 2 ^ 64) = page ((0x80000000 + j * 4096) % 2 ^ 64)) :
    i = j := by
  have hpages := pagesNeeded_le vidPhys hsize
  unfold page at hpage
  omega

/-- The pages of the window are mapped to the pages of the video. -/
theorem Booted.mapVideo_lookup (hready : BootReady old file len)
    (hbooted : Booted old file len new heapPages m) (hallocs : Allocs old.vmmInitialize m)
    (hsize : vidSize < 2 ^ 32) (hnull : (m.mapVideo vidPhys vidSize).NeverNull) :
    ∀ k < pagesNeeded vidPhys vidSize, (m.mapVideo vidPhys vidSize).HasVideoPage vidPhys k := by
  have hloop : Allocs old.vmmInitialize (m.mapVideo vidPhys vidSize) ∧
      ((m.mapVideo vidPhys vidSize).NeverNull →
        (∃ new', GrownFrom old.vmmInitialize bootSlots new' (m.mapVideo vidPhys vidSize)) ∧
        ∀ k < pagesNeeded vidPhys vidSize,
          (m.mapVideo vidPhys vidSize).HasVideoPage vidPhys k) := by
    unfold Machine.mapVideo
    apply Loop.times_invariant (fun i m => Allocs old.vmmInitialize m ∧ (m.NeverNull →
      (∃ new', GrownFrom old.vmmInitialize bootSlots new' m) ∧
      ∀ k < i, m.HasVideoPage vidPhys k))
    · exact ⟨hallocs, fun _ => ⟨⟨new, hbooted.grown⟩, fun k hk => absurd hk (Nat.not_lt_zero k)⟩⟩
    · intro i hi m hinv
      obtain ⟨hallocs, hbefore⟩ := hinv
      have hallocs' := hallocs.trans (vmmMapPage_allocs m
        ((4096 * (vidPhys / 4096) + i * 4096) % 2 ^ 64) ((0x80000000 + i * 4096) % 2 ^ 64) 0x7)
      refine ⟨hallocs', fun hnull => ?_⟩
      obtain ⟨⟨new', hgrown⟩, hmapped⟩ := hbefore (hnull.of_allocs (vmmMapPage_allocs m _ _ _))
      obtain ⟨more, hgrown', -, hmaps⟩ := hgrown.vmmMapPage
        (slot_lower (videoPage_lower hsize hi)) _ _ (hready.fresh_of_allocs hallocs' hnull)
      refine ⟨⟨_, hgrown'⟩, fun k hk => ?_⟩
      have hk' : k < pagesNeeded vidPhys vidSize := by omega
      unfold HasVideoPage
      rw [hmaps.lookup_eq _ (mem_paths_of_slot (slot_lower (videoPage_lower hsize hk'))).2.2 rfl]
      split
      next hsame => rw [videoPage_injective hsize hk' hi (page_eq_iff.mpr hsame)]
      next hother =>
        refine hmapped k ((Nat.lt_succ_iff_lt_or_eq.mp hk).resolve_right ?_)
        rintro rfl
        exact hother ⟨rfl, rfl⟩
  exact (hloop.2 hnull).2

/-- What is mapped below `slots` stays mapped when pages are placed. -/
theorem Placed.lookup_ne_none {base : Machine} {frames : ℕ → Option ℕ}
    (hplaced : Placed base slots file len new frames m) (hslot : slot virt 39 ∈ slots)
    (hlookup : base.lookup (pathTo virt) (slot virt 12) ≠ none) :
    m.lookup (pathTo virt) (slot virt 12) ≠ none := by
  by_cases hplace : ∃ p a, frames p = some a ∧
      pathTo virt = pathTo (4096 * p) ∧ slot virt 12 = slot (4096 * p) 12
  · obtain ⟨p, a, hframe, hpath, hindex⟩ := hplace
    have hmaps := hplaced.mapsTo p a hframe
    unfold MapsTo at hmaps
    rw [hpath, hindex, hmaps]
    exact Option.some_ne_none _
  · rw [hplaced.kept _ (mem_paths_of_slot hslot).2.2 rfl _ fun p a hframe hpage =>
      hplace ⟨p, a, hframe, hpage⟩]
    exact hlookup

/-- At the jump to user mode the pages of the file have their tables. -/
theorem fileTables_present {before : Machine} {frames : ℕ → Option ℕ} {s : Loader} {entryPoint : ℕ}
    (hplaced : Placed before slots file len new frames s.machine)
    (hat : Loader.AtPc before file len frames s) (hpc : s.pc = .userMode entryPoint)
    (hq : q ∈ Loader.fileTables before.mem file) : s.machine.node q ≠ none := by
  unfold Loader.AtPc at hat
  rw [hpc] at hat
  obtain ⟨-, hloaded, hstack⟩ := hat
  have hmapped : ∀ virt, (frames (virt / 4096)).isSome → q ∈ tablePaths virt →
      s.machine.node q ≠ none := by
    intro virt hsome hq
    obtain ⟨a, hframe⟩ := Option.isSome_iff_exists.mp hsome
    have hmaps : s.machine.MapsTo virt a := (hplaced.mapsTo _ a hframe).of_page
    have hlookup : s.machine.lookup (pathTo virt) (slot virt 12) ≠ none :=
      fun hnone => Option.some_ne_none _ (hmaps.symm.trans hnone)
    exact node_ne_none_of_lookup hlookup hq
  rcases Finset.mem_union.mp hq with hq | hq
  · obtain ⟨i, hi, hq⟩ := Finset.mem_biUnion.mp hq
    obtain ⟨j, hj, hq⟩ := mem_tablesOf.mp hq
    have hi := Finset.mem_range.mp hi
    unfold Loader.commandPages at hj
    split at hj
    next hsegment =>
      unfold Loader.pageCount at hj
      obtain ⟨a, hframe, -⟩ := hloaded i hi hsegment (4096 * j) (by omega)
      exact hmapped _ (Option.isSome_iff_exists.mpr ⟨a, hframe⟩) hq
    next => exact absurd hj (Nat.not_lt_zero j)
  · exact hmapped Loader.stackPage hstack hq

/-- A machine whose first frames are in use is ready if the root table is one of them. -/
theorem FreeFrom.bootReady {start : ℕ} (hfree : FreeFrom m start) (hroot : m.root < start)
    (hstart : start ≤ m.pmm.maxBlocks) (habsent : isPresent (tables m.mem m.root 288) = false)
    (hgranted : m.granted = []) (happart : Apart (4096 * m.root) file len)
    (hfile : 4096 * m.pmm.maxBlocks ≤ file ∨ file + len ≤ 4096 * start) :
    BootReady m file len := by
  have hbound := hfree.maxBlocks
  have habsent' : ∀ i ∈ ({288} : Set (Fin 512)), isPresent (tables m.mem m.root i) = false := by
    rintro i rfl
    exact habsent
  refine ⟨by omega, treeOn_of_absent habsent', hgranted, fun i hi hunused => ?_,
    fun q hq f hf => ?_⟩
  · rw [CInt.toI32_natCast (by omega), hfree.used i hi] at hunused
    have hlow := of_decide_eq_false hunused
    refine ⟨fun q hq hnode => ?_, ?_⟩
    · have := (node_of_absent habsent' hq hnode).2
      omega
    · unfold Apart
      omega
  · rw [(node_of_absent habsent' hq hf).2]
    exact happart

/-- After the clean root table the loader gets its frames if there are enough. -/
theorem BootReady.run_allocates (hready : BootReady old file len) (hsound : old.pmm.Sound)
    (hfile : Loadable old.mem lowerSlots file len)
    (henough : 1 + 4 * (Loader.pagesFrom old.mem file 0 + 1) ≤ old.pmm.freeBlocks) :
    old.vmmInitialize.NeverNull ∧ ∀ n, Allocates old.vmmInitialize bootSlots file len
      (Loader.run file old.vmmInitialize n).machine := by
  have hsupplies := hready.supplies hsound
  have hlength : old.vmmInitialize.granted.length = 1 := by
    rw [vmmInitialize_granted, hready.granted, List.length_singleton]
  have hnull : old.vmmInitialize.NeverNull :=
    (hsupplies.neverNull_iff _ (.refl rfl rfl)).mpr (by omega)
  have hbooted : Booted old file len [] 0 old.vmmInitialize :=
    ⟨.refl (hready.ready hnull).tree, hready.file_eq hnull,
      fun i hi => absurd hi (Nat.not_lt_zero i)⟩
  have hcommands := hfile.toCommandsInside
  have hload := Loadable.mono lowerSlots_subset
    (Loadable.of_sameFile hbooted.file_eq hfile)
  have hpages := Loader.pagesFrom_of_sameFile (i := 0) hbooted.file_eq hcommands
  have hmissing := (old.vmmInitialize.missing_le_card _).trans
    (Loader.fileTables_card_le old.vmmInitialize.mem file)
  have hstart : Stocked old.vmmInitialize bootSlots (Loader.fileTables old.vmmInitialize.mem file)
      (1 + old.vmmInitialize.missing (Loader.fileTables old.vmmInitialize.mem file) +
        (Loader.pagesFrom old.vmmInitialize.mem file 0 + 1))
      (Loader.pagesFrom old.vmmInitialize.mem file 0 + 1) old.vmmInitialize :=
    ⟨.refl rfl rfl, ⟨[], hbooted.grown⟩, by rw [hlength]⟩
  have hserved : 1 + old.vmmInitialize.missing (Loader.fileTables old.vmmInitialize.mem file) +
      (Loader.pagesFrom old.vmmInitialize.mem file 0 + 1) ≤ old.pmm.freeBlocks := by omega
  have hlater : ∀ n, Allocs old.vmmInitialize (Loader.run file old.vmmInitialize n).machine :=
    fun n => Loader.run_allocs file old.vmmInitialize (Nat.zero_le n)
  refine ⟨hnull, fun n => ?_⟩
  obtain ⟨-, hstocked⟩ := Loader.run_stocked hsupplies (Loader.fileTables_subset hload) hload
    subset_rfl (hready.ready hnull) (fun m hallocs hnull =>
      hbooted.allocates hready (.refl rfl rfl) hallocs hnull) hstart n (Or.inl hserved)
  exact hbooted.allocates hready (.refl rfl rfl) (hlater n)
    (hstocked.neverNull hsupplies (Or.inl hserved))

section Boot

variable (hready : BootReady old file len) (hsound : old.pmm.Sound)
variable (hfile : Loadable old.mem lowerSlots file len)
variable (hstores : HeapStores old.vmmInitialize.mapHeap m) (hsize : vidSize < 2 ^ 32)

include hready hsound hfile hstores hsize

/-- The stages of the boot, each with the frames for the rest of it still to be taken. -/
theorem boot_stocked
    (hserved : ∀ n, Served old.pmm.freeBlocks (bootFrames old file vidPhys vidSize)
      (Loader.run file (m.mapVideo vidPhys vidSize) n).machine) :
    (∃ new, Booted old file len new heapPages (m.mapVideo vidPhys vidSize)) ∧
      (∀ k < pagesNeeded vidPhys vidSize, (m.mapVideo vidPhys vidSize).HasVideoPage vidPhys k) ∧
      ∀ n, (Loader.run file (m.mapVideo vidPhys vidSize) n).machine.NeverNull ∧
        Loader.Inv (m.mapVideo vidPhys vidSize) bootSlots file len
          (Loader.run file (m.mapVideo vidPhys vidSize) n) ∧
        Stocked old.vmmInitialize bootSlots (bootTables old.mem file vidPhys vidSize)
          (bootFrames old file vidPhys vidSize)
          (Loader.pagesLeft (m.mapVideo vidPhys vidSize) file
            (Loader.run file (m.mapVideo vidPhys vidSize) n))
          (Loader.run file (m.mapVideo vidPhys vidSize) n).machine := by
  have hsupplies := hready.supplies hsound
  have hload := Loadable.mono lowerSlots_subset hfile
  have hS : ↑(bootTables old.mem file vidPhys vidSize) ⊆ paths bootSlots :=
    bootTables_subset hload hsize
  have htotal : bootFrames old file vidPhys vidSize =
      1 + old.vmmInitialize.missing (bootTables old.mem file vidPhys vidSize) +
        (heapPages + (Loader.pagesFrom old.mem file 0 + 1)) := rfl
  generalize bootFrames old file vidPhys vidSize = total at hserved htotal ⊢
  have hheapTables : heapTables ⊆ bootTables old.mem file vidPhys vidSize :=
    Finset.subset_union_left.trans Finset.subset_union_left
  have hvideoTables : videoTables vidPhys vidSize ⊆ bootTables old.mem file vidPhys vidSize :=
    Finset.subset_union_right.trans Finset.subset_union_left
  have hfileTables : Loader.fileTables old.mem file ⊆ bootTables old.mem file vidPhys vidSize :=
    Finset.subset_union_right
  generalize bootTables old.mem file vidPhys vidSize = S at *
  have hvideoAllocs := mapVideo_allocs m vidPhys vidSize
  have hservedVideo := hserved 0
  change Served _ _ (m.mapVideo vidPhys vidSize) at hservedVideo
  have hheapAllocs : Allocs old.vmmInitialize.mapHeap m := .refl hstores.pmm_eq hstores.granted_eq
  have hservedHeap := hservedVideo.of_allocs (hheapAllocs.trans hvideoAllocs)
  have hmapAllocs : Allocs old.vmmInitialize old.vmmInitialize.mapHeap :=
    Loop.times_invariant (fun _ m' => Allocs old.vmmInitialize m') _ _ _ (.refl rfl rfl)
      fun _ _ m' hm' => hm'.trans (mapNewPage_allocs m' _ _ _)
  -- The root table takes one frame.
  have hnull : old.vmmInitialize.NeverNull := by
    rcases hservedHeap.of_allocs hmapAllocs with henough | hnull
    · refine (hsupplies.neverNull_iff _ (.refl rfl rfl)).mpr ?_
      rw [vmmInitialize_granted, hready.granted, List.length_singleton]
      omega
    · exact hnull
  have hstart : Stocked old.vmmInitialize bootSlots S total
      (heapPages + (Loader.pagesFrom old.mem file 0 + 1)) old.vmmInitialize := by
    refine ⟨.refl rfl rfl, ⟨[], .refl (hready.ready hnull).tree⟩, ?_⟩
    rw [vmmInitialize_granted, hready.granted, List.length_singleton, htotal]
  have hheap := hstart.mapHeap hsupplies hS hheapTables hservedHeap
  have hnullHeap := hheap.neverNull hsupplies hservedHeap
  obtain ⟨hallocs, new, hbooted⟩ := hready.mapHeap hnullHeap
  have hsame := hbooted.sameTables hready hallocs hnullHeap hstores
  have hbooted' := hbooted.heapStores hready hallocs hnullHeap (le_refl _) hstores
  have hallocs' := hallocs.trans hheapAllocs
  have hvideo := (hheap.sameTables hS hsame hstores.pmm_eq hstores.granted_eq).mapVideo
    hsupplies hS hvideoTables hsize hservedVideo
  have hnullVideo := hvideo.neverNull hsupplies hservedVideo
  obtain ⟨hbeforeAllocs, new', hbefore⟩ := hbooted'.mapVideo hready hallocs' hsize hnullVideo
  have hlookups := hbooted'.mapVideo_lookup hready hallocs' hsize hnullVideo
  -- From here on only the loader runs.
  generalize m.mapVideo vidPhys vidSize = before at *
  have hbeforeReady := hbefore.ready hready hbeforeAllocs hnullVideo
  have hbeforeLoad := Loadable.of_sameFile hbefore.file_eq hload
  have hcommands := hfile.toCommandsInside
  rw [← Loader.pagesFrom_of_sameFile hbefore.file_eq hcommands] at hvideo
  rw [← Loader.fileTables_of_sameFile hbefore.file_eq hcommands] at hfileTables
  refine ⟨⟨new', hbefore⟩, hlookups, fun n => ?_⟩
  obtain ⟨hinv, hstocked⟩ := Loader.run_stocked hsupplies hS hbeforeLoad hfileTables hbeforeReady
    (fun m hlater hnull => hbefore.allocates hready hbeforeAllocs hlater hnull) hvideo n (hserved n)
  exact ⟨hstocked.neverNull hsupplies (hserved n), hinv, hstocked⟩

omit hsound in
/-- As long as no allocation fails, the boot comes to user mode. -/
theorem boot_exists_userMode (hmagic : validMagic old.mem file = true)
    (hnull : ∀ n, (Loader.run file (m.mapVideo vidPhys vidSize) n).machine.NeverNull) :
    ∃ n entryPoint,
      (Loader.run file (m.mapVideo vidPhys vidSize) n).pc = .userMode entryPoint := by
  have hheapAllocs : Allocs old.vmmInitialize.mapHeap m :=
    .refl hstores.pmm_eq hstores.granted_eq
  have hnullVideo : (m.mapVideo vidPhys vidSize).NeverNull := hnull 0
  have hnullHeap := hnullVideo.of_allocs (hheapAllocs.trans (mapVideo_allocs m vidPhys vidSize))
  obtain ⟨hallocs, new, hbooted⟩ := hready.mapHeap hnullHeap
  obtain ⟨hbeforeAllocs, new', hbefore⟩ :=
    (hbooted.heapStores hready hallocs hnullHeap (le_refl _) hstores).mapVideo hready
      (hallocs.trans hheapAllocs) hsize hnullVideo
  generalize m.mapVideo vidPhys vidSize = before at *
  have hload := Loadable.mono lowerSlots_subset
    (Loadable.of_sameFile hbefore.file_eq hfile)
  exact Loader.exists_userMode (hbefore.ready hready hbeforeAllocs hnullVideo) hload
    ((hbefore.file_eq.validMagic_eq hfile.header).trans hmagic) fun n =>
      hbefore.allocates hready hbeforeAllocs (Loader.run_allocs file before (Nat.zero_le n))
        (hnull n)

/-- Exactly with `bootFrames` free frames no allocation of the boot fails; then it comes
to user mode, and it has taken just these frames. -/
theorem boot_neverNull_iff (hmagic : validMagic old.mem file = true) :
    ((∀ n, (Loader.run file (m.mapVideo vidPhys vidSize) n).machine.NeverNull) ↔
      bootFrames old file vidPhys vidSize ≤ old.pmm.freeBlocks) ∧
    ((∀ n, (Loader.run file (m.mapVideo vidPhys vidSize) n).machine.NeverNull) →
      ∃ n entryPoint, (Loader.run file (m.mapVideo vidPhys vidSize) n).pc = .userMode entryPoint ∧
        (Loader.run file (m.mapVideo vidPhys vidSize) n).machine.granted.length =
          bootFrames old file vidPhys vidSize) := by
  have hstocked := fun (hserved : ∀ n, Served old.pmm.freeBlocks
      (bootFrames old file vidPhys vidSize)
      (Loader.run file (m.mapVideo vidPhys vidSize) n).machine) =>
    boot_stocked hready hsound hfile hstores hsize hserved
  have huser : (∀ n, (Loader.run file (m.mapVideo vidPhys vidSize) n).machine.NeverNull) →
      ∃ n entryPoint, (Loader.run file (m.mapVideo vidPhys vidSize) n).pc = .userMode entryPoint ∧
        (Loader.run file (m.mapVideo vidPhys vidSize) n).machine.granted.length =
          bootFrames old file vidPhys vidSize := by
    intro hnull
    obtain ⟨⟨new, hbefore⟩, hvideo, hrun⟩ := hstocked fun n => Or.inr (hnull n)
    obtain ⟨n, entryPoint, hpc⟩ := boot_exists_userMode hready hfile hstores hsize hmagic hnull
    generalize m.mapVideo vidPhys vidSize = before at *
    refine ⟨n, entryPoint, hpc, ?_⟩
    obtain ⟨-, ⟨more, frames, hplaced, -, hat⟩, hcount⟩ := hrun n
    have hpresent : ∀ q ∈ bootTables old.mem file vidPhys vidSize,
        (Loader.run file before n).machine.node q ≠ none := by
      intro q hq
      unfold bootTables at hq
      rw [Finset.mem_union, Finset.mem_union] at hq
      rcases hq with (hq | hq) | hq
      · refine tablesOf_present (fun i hi => ?_) hq
        obtain ⟨a, -, hleaf⟩ := hbefore.heap i hi
        refine hplaced.lookup_ne_none (slot_heapPage hi) ?_
        rw [hleaf]
        exact Option.some_ne_none _
      · refine tablesOf_present (fun i hi => ?_) hq
        refine hplaced.lookup_ne_none (slot_lower (videoPage_lower hsize hi)) ?_
        rw [hvideo i hi]
        exact Option.some_ne_none _
      · rw [← Loader.fileTables_of_sameFile hbefore.file_eq hfile.toCommandsInside] at hq
        exact fileTables_present hplaced hat hpc hq
    have htotal := hcount.count
    rw [missing_eq_zero hpresent, Loader.pagesLeft, hpc] at htotal
    exact htotal
  refine ⟨⟨fun hnull => ?_, fun henough n => ?_⟩, huser⟩
  · obtain ⟨n, entryPoint, -, hlength⟩ := huser hnull
    obtain ⟨-, -, hrun⟩ := hstocked fun n => Or.inr (hnull n)
    rw [← hlength]
    exact ((hready.supplies hsound).neverNull_iff _ (hrun n).2.2.allocs).mp (hnull n)
  · obtain ⟨-, -, hrun⟩ := hstocked fun n => Or.inl henough
    exact (hrun n).1

end Boot

/-! ## A machine with enough frames -/

/-- 128 MiB of which the first 17 frames are in use: an empty root table in frame 1, the
bitmap in frame 2 and the file of `twoSegments` in frame 16. -/
def bootableMemory (x : ℕ) : UInt8 :=
  if x < 0x10000 then ([(0x2000, 0xFF), (0x2001, 0xFF), (0x2002, 0x01)].lookup x).getD 0
  else Loader.twoSegmentsFile (x - 0x10000)

def bootable : Machine where
  mem := bootableMemory
  cr3 := 0x1000
  pmm := { mem := bootableMemory, pmmBitmap := 0x2000, usedBlocks := 17, maxBlocks := 2 ^ 15 }
  granted := []

theorem bootable_freeFrom : FreeFrom bootable 17 := by
  refine ⟨by decide, by decide, fun i hi => ?_⟩
  have hmax : bootable.pmm.maxBlocks = 2 ^ 15 := rfl
  rw [hmax] at hi
  have haddr : bootable.pmm.wordAddr (i / 32 : ℕ) = 0x2000 + 4 * (i / 32) := by
    have hcast : ((bootable.pmm.pmmBitmap : ℕ) : ℤ) + 4 * ((i / 32 : ℕ) : ℤ) =
        ((0x2000 + 4 * (i / 32) : ℕ) : ℤ) := by
      rw [show bootable.pmm.pmmBitmap = 0x2000 from rfl]
      push_cast
      omega
    rw [Pmm.wordAddr, hcast, CInt.toU64_natCast (by omega)]
  rw [Pmm.isUsed, Pmm.wordOf_natCast, Pmm.shiftOf_natCast, Pmm.word, haddr,
    Memory.testBit_load (by omega)]
  by_cases hlow : i < 24
  · have hall : ∀ i < 24, (bootableMemory (0x2000 + 4 * (i / 32) + i % 32 / 8)).toNat.testBit
        (i % 32 % 8) = decide (i < 17) := by decide
    exact hall i hlow
  · have hzero : bootableMemory (0x2000 + 4 * (i / 32) + i % 32 / 8) = 0 := by
      have hnone : [(0x2000, (0xFF : UInt8)), (0x2001, 0xFF), (0x2002, 0x01)].lookup
          (0x2000 + 4 * (i / 32) + i % 32 / 8) = none := by
        rw [List.lookup_eq_none_iff]
        intro p hp
        simp only [List.mem_cons, List.not_mem_nil, or_false] at hp
        rcases hp with rfl | rfl | rfl <;> exact bne_iff_ne.mpr (by omega)
      unfold bootableMemory
      rw [if_pos (by omega), hnone]
      rfl
    rw [show bootable.pmm.mem = bootableMemory from rfl, hzero, decide_eq_false (by omega)]
    exact Nat.zero_testBit _

theorem bootable_freeBlocks : bootable.pmm.freeBlocks = 2 ^ 15 - 17 :=
  bootable_freeFrom.freeBlocks_eq (by decide)

theorem bootable_bootReady (hlo : 0x10000 ≤ file) (hhi : file + len ≤ 0x10000 + 4096) :
    BootReady bootable file len := by
  have hroot : bootable.root = 1 := by decide
  refine bootable_freeFrom.bootReady (by rw [hroot]; decide) (by decide) (by decide) rfl
    ?_ (Or.inr (by omega))
  rw [hroot]
  exact Or.inl (by omega)

theorem bootable_sameFile : SameFile Loader.twoSegments.mem bootable.mem 0x10000 227 := by
  intro x hlo _
  exact (if_neg (by omega)).trans (if_neg (by omega)).symm

theorem bootable_loadable : Loadable bootable.mem lowerSlots 0x10000 227 := by
  have hlower : ({0} : Set (Fin 512)) ⊆ lowerSlots := by
    rintro i rfl
    exact (by decide : (0 : Fin 512).val < 256)
  exact Loadable.mono hlower
    (Loadable.of_sameFile bootable_sameFile Loader.twoSegments_loads.loadable)

theorem bootable_pages : Loader.pagesFrom bootable.mem 0x10000 0 = 3 := by decide

/-- The frames for a boot with a small video are free. -/
theorem bootable_bootFrames (hpages : pagesNeeded vidPhys vidSize ≤ 2 ^ 10) :
    bootFrames bootable 0x10000 vidPhys vidSize ≤ bootable.pmm.freeBlocks := by
  have hbound := bootFrames_le bootable 0x10000 vidPhys vidSize
  rw [bootPages, bootable_pages] at hbound
  rw [bootable_freeBlocks]
  unfold heapPages at hbound
  omega

/-- With nothing on the heap no allocation fails. -/
theorem bootable_neverNull (hsize : vidSize < 2 ^ 20) (n : ℕ) :
    (Loader.run 0x10000 (bootable.vmmInitialize.mapHeap.mapVideo vidPhys vidSize)
      n).machine.NeverNull := by
  have hpages : pagesNeeded vidPhys vidSize ≤ 2 ^ 10 := by
    unfold pagesNeeded
    omega
  obtain ⟨-, -, hrun⟩ := boot_stocked (bootable_bootReady (le_refl _) (by decide))
    bootable_freeFrom.sound bootable_loadable ⟨rfl, rfl, rfl, fun _ _ => rfl⟩ (by omega)
    fun n => Or.inl (bootable_bootFrames hpages)
  exact (hrun n).1

end Machine

end BadOS.Kernel
