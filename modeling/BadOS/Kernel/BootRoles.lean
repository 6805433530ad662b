import BadOS.Kernel.BootBudget

/-! # The roles of the frames

No frame that the boot takes from the allocator has two roles, and the pages of the
segments and of the stack are mapped to frames taken for them.
-/

namespace BadOS.Kernel

open Kex

namespace Machine

variable {old m m' : Machine} {file len : ℕ} {new more : List (FrameRole × ℕ)}

/-- Every frame taken from the allocator has one role in `m`: the frames in the
log are distinct; the root, the tables (other than those the bootloader left in
the slot of the heap), the heap pages and the pages mapped by the loader are the
frames logged for them. -/
structure DistinctRoles (old before m : Machine) : Prop where
  nodup : (m.granted.map Prod.snd).Nodup
  tree : m.TreeOn bootSlots
  root : (.pml4, 4096 * m.root) ∈ m.granted
  table : ∀ q ∈ paths bootSlots, q ≠ [] → ∀ f, m.node q = some f →
    (∃ role : FrameRole, role.isTable = true ∧ (role, 4096 * f) ∈ m.granted) ∨
      q ∈ paths {288} ∧ old.node q = some f
  heap : ∀ i < heapPages, ∃ a, (.heap, a) ∈ m.granted ∧
    m.lookup (pathTo (heapStart + 4096 * i)) (slot (heapStart + 4096 * i) 12) =
      some (leafEntry a 3)
  user : ∀ virt < 2 ^ 47, ∀ e, m.lookup (pathTo virt) (slot virt 12) = some e →
    before.lookup (pathTo virt) (slot virt 12) = some e ∨
      ∃ role a, (role = .segment ∨ role = .stack) ∧ (role, a) ∈ m.granted ∧ e = leafEntry a 0x7
  separate : ∀ role a, role = .segment ∨ role = .stack → (role, a) ∈ m.granted →
    (∀ q ∈ paths bootSlots, m.node q ≠ some (a / 4096)) ∧ (.heap, a) ∉ m.granted

/-- Pages declared by a file of the lower half are in the lower half. -/
theorem declared_lower {frames : ℕ → Option ℕ}
    (hfile : Loadable m.mem lowerSlots file len) (hdeclared : Loader.Declared m file frames)
    {p a : ℕ} (hframe : frames p = some a) : 4096 * p < 2 ^ 47 := by
  rcases hdeclared p a hframe with rfl | ⟨i, hi, hsegment, j, hj, rfl⟩
  · decide
  · have hslot : index _ 39 < 256 := hfile.inSlots i hi hsegment j hj
    have hcanonical := hfile.canonical i hi hsegment j hj
    rw [index_eq] at hslot
    unfold Canonical at hcanonical
    omega

/-- Pages placed in the lower half keep all roles apart. -/
theorem Booted.distinctRoles (hready : BootReady old file len)
    (hbooted : Booted old file len new heapPages m) (hallocs : Allocs old.vmmInitialize m)
    (hlater : Allocs m m') (hnull : m'.NeverNull) {frames : ℕ → Option ℕ}
    (hplaced : Placed m bootSlots file len more frames m')
    (hlower : ∀ p a, frames p = some a → 4096 * p < 2 ^ 47) : DistinctRoles old m m' := by
  have hall := (vmmInitialize_allocs old).trans (hallocs.trans hlater)
  have hnull₀ := hnull.of_allocs (hallocs.trans hlater)
  have hgrown := hbooted.grown.trans hplaced.grown
  have hlog := (hready.freshLog (hallocs.trans hlater) hnull hgrown.granted).1
  have hin : ∀ g ∈ more ++ new, g ∈ m'.granted := fun g hg => by
    rw [hgrown.granted]
    exact List.mem_append_left _ hg
  refine ⟨hready.nodup hall hnull, hgrown.tree, ?_, ?_, ?_, ?_, ?_⟩
  · have hroot : m'.root = old.vmmInitialize.root := by rw [root, root, hgrown.cr3_eq]
    rw [hroot, hready.root_eq hnull₀, hgrown.granted, vmmInitialize_granted]
    exact List.mem_append_right _ List.mem_cons_self
  -- A table is one of the machine the boot starts on, or was granted as a table since.
  · intro q hq hne f hf
    rcases hgrown.node q hq f hf with hold | ⟨role, htable, hgrant⟩
    · rcases hready.node_cases hnull₀ hq hold with ⟨hnil, -⟩ | ⟨-, hpath, hnode⟩
      · exact absurd hnil hne
      · exact Or.inr ⟨hpath, hnode⟩
    · exact Or.inl ⟨role, htable, hin _ hgrant⟩
  · intro i hi
    obtain ⟨a, hgrant, hleaf⟩ := hbooted.heap i hi
    have hpath := (mem_paths_of_slot (slot_heapPage hi)).2.2
    refine ⟨a, hin _ (List.mem_append_right more hgrant), ?_⟩
    rw [← hleaf]
    apply hplaced.kept _ hpath rfl
    intro p b hframe hpage
    exact page_heapPage_ne hi (hlower p b hframe) (page_eq_iff.mpr hpage)
  -- A lower address is in a placed page, or its entry is as the boot found it.
  · intro virt hvirt e hleaf
    have hslot := slot_lower hvirt
    have hpath := (mem_paths_of_slot hslot).2.2
    by_cases hplace : ∃ p a, frames p = some a ∧
        pathTo virt = pathTo (4096 * p) ∧ slot virt 12 = slot (4096 * p) 12
    · obtain ⟨p, a, hframe, hsame, hindex⟩ := hplace
      obtain ⟨role, hrole, hgrant⟩ := hplaced.role p a hframe
      have hmaps := hplaced.mapsTo p a hframe
      unfold MapsTo at hmaps
      rw [hsame, hindex, hmaps] at hleaf
      exact Or.inr ⟨role, a, hrole, hin _ (List.mem_append_left new hgrant),
        (Option.some_injective _ hleaf).symm⟩
    · refine Or.inl (Eq.trans ?_ hleaf)
      symm
      apply hplaced.kept _ hpath rfl
      exact fun p a hframe hpage => hplace ⟨p, a, hframe, hpage⟩
  · intro role a hrole hgrant
    have hkind : role.isTable = false ∧ role ≠ .pml4 ∧ role ≠ .heap := by
      rcases hrole with rfl | rfl <;> decide
    -- The root is granted before the log starts, every other frame is in the log.
    have hnew : ∀ role, role ≠ .pml4 → (role, a) ∈ m'.granted → (role, a) ∈ more ++ new := by
      intro role hne hg
      rw [hgrown.granted, vmmInitialize_granted, hready.granted] at hg
      rcases List.mem_append.mp hg with hlist | hlist
      · exact hlist
      · simp [hne] at hlist
    refine ⟨fun q hq => hgrown.node_ne hlog (hnew role hkind.2.1 hgrant) hkind.1 hq,
      fun hheap => ?_⟩
    exact hkind.2.2 (hlog.role_unique (hnew role hkind.2.1 hgrant) (hnew .heap (by decide) hheap))

/-- In every state of the boot, from the clean root table to user mode, no frame
has two roles; at the jump to user mode the pages of the segments and of the
stack are mapped to frames granted for them. -/
theorem boot_distinctRoles (hready : BootReady old file len)
    (hfile : Loadable old.mem lowerSlots file len)
    (hstores : HeapStores old.vmmInitialize.mapHeap m) {vidPhys vidSize : ℕ}
    (hsize : vidSize < 2 ^ 32)
    (hnull : ∀ n, (Loader.run file (m.mapVideo vidPhys vidSize) n).machine.NeverNull) :
    (∀ n, DistinctRoles old (m.mapVideo vidPhys vidSize)
      (Loader.run file (m.mapVideo vidPhys vidSize) n).machine) ∧
    ∀ n entryPoint, (Loader.run file (m.mapVideo vidPhys vidSize) n).pc = .userMode entryPoint →
      ∀ virt, (virt = Loader.stackPage ∨ ∃ i < commandCount old.mem file,
        IsSegment old.mem file i ∧ ∃ j < (segmentAt old.mem file i).memSize,
          virt = (segmentAt old.mem file i).rva + j) →
      ∃ role a, (role = .segment ∨ role = .stack) ∧
        (role, a) ∈ (Loader.run file (m.mapVideo vidPhys vidSize) n).machine.granted ∧
        (Loader.run file (m.mapVideo vidPhys vidSize) n).machine.MapsTo virt a := by
  have hnull₀ := hnull 0
  have hvideo : Allocs m (m.mapVideo vidPhys vidSize) := mapVideo_allocs m vidPhys vidSize
  have hheapAllocs : Allocs old.vmmInitialize.mapHeap m :=
    .refl hstores.pmm_eq hstores.granted_eq
  have hnullVideo : (m.mapVideo vidPhys vidSize).NeverNull := hnull₀
  have hnullHeap : old.vmmInitialize.mapHeap.NeverNull :=
    hnullVideo.of_allocs (hheapAllocs.trans hvideo)
  obtain ⟨hallocs, new, hbooted⟩ := hready.mapHeap hnullHeap
  have hbooted' := hbooted.heapStores hready hallocs hnullHeap (le_refl _) hstores
  obtain ⟨hallocs', new', hbefore⟩ :=
    hbooted'.mapVideo hready (hallocs.trans hheapAllocs) hsize hnullVideo
  -- Heap and video memory are mapped; only the loader runs from here on.
  generalize m.mapVideo vidPhys vidSize = before at *
  have hrun : ∀ n, Allocs before (Loader.run file before n).machine :=
    fun n => Loader.run_allocs file before (Nat.zero_le n)
  have hlower := Loadable.of_sameFile hbefore.file_eq hfile
  have hload := Loadable.mono lowerSlots_subset hlower
  have hinv : ∀ n, Loader.Inv before bootSlots file len (Loader.run file before n) :=
    Loader.run_inv (hbefore.ready hready hallocs' hnullVideo) hload fun n =>
      hbefore.allocates hready hallocs' (hrun n) (hnull n)
  constructor
  · intro n
    obtain ⟨more, frames, hplaced, hdeclared, -⟩ := hinv n
    exact hbefore.distinctRoles hready hallocs' (hrun n) (hnull n) hplaced fun p a hframe =>
      declared_lower hlower hdeclared hframe
  · intro n entryPoint hpc virt hvirt
    obtain ⟨more, frames, hplaced, -, hat⟩ := hinv n
    unfold Loader.AtPc at hat
    rw [hpc] at hat
    obtain ⟨-, hloaded, hstack⟩ := hat
    have hcount := hbefore.file_eq.commandCount_eq hfile.header
    have hframe : ∃ a, frames (virt / 4096) = some a := by
      rcases hvirt with rfl | ⟨i, hi, hsegment, j, hj, rfl⟩
      · exact Option.isSome_iff_exists.mp hstack
      · have hsegment' := (hbefore.file_eq.isSegment_iff hfile.toCommandsInside hi).mpr hsegment
        have heq := hbefore.file_eq.segmentAt_eq hfile.toCommandsInside hi hsegment
        obtain ⟨a, hframe, -⟩ := hloaded i (hcount ▸ hi) hsegment' j (heq ▸ hj)
        rw [heq] at hframe
        exact ⟨a, hframe⟩
    obtain ⟨a, hframe⟩ := hframe
    obtain ⟨role, hrole, hgrant⟩ := hplaced.role _ a hframe
    refine ⟨role, a, hrole, ?_, (hplaced.mapsTo _ a hframe).of_page⟩
    rw [hplaced.grown.granted]
    exact List.mem_append_left _ hgrant

/-- The segment at 0x603000 has a frame of its own. -/
theorem bootable_distinctRoles : ∃ n role a,
    DistinctRoles bootable (bootable.vmmInitialize.mapHeap.mapVideo 0x10000 227)
      (Loader.run 0x10000 (bootable.vmmInitialize.mapHeap.mapVideo 0x10000 227) n).machine ∧
    (role = .segment ∨ role = .stack) ∧
    (role, a) ∈ (Loader.run 0x10000 (bootable.vmmInitialize.mapHeap.mapVideo 0x10000 227)
      n).machine.granted ∧
    (Loader.run 0x10000 (bootable.vmmInitialize.mapHeap.mapVideo 0x10000 227)
      n).machine.MapsTo 0x603000 a := by
  have hstores : HeapStores bootable.vmmInitialize.mapHeap bootable.vmmInitialize.mapHeap :=
    ⟨rfl, rfl, rfl, fun _ _ => rfl⟩
  have hready : BootReady bootable 0x10000 227 := bootable_bootReady (le_refl _) (by decide)
  have hnull : ∀ n, (Loader.run 0x10000 (bootable.vmmInitialize.mapHeap.mapVideo 0x10000 227)
      n).machine.NeverNull := bootable_neverNull (by decide)
  obtain ⟨hdistinct, hmapped⟩ :=
    boot_distinctRoles hready bootable_loadable hstores (by decide) hnull
  obtain ⟨n, entryPoint, hpc⟩ := boot_exists_userMode hready bootable_loadable hstores
    (by decide) (by decide) hnull
  have hsegment : 2 < commandCount bootable.mem 0x10000 ∧ IsSegment bootable.mem 0x10000 2 ∧
      0 < (segmentAt bootable.mem 0x10000 2).memSize ∧
      0x603000 = (segmentAt bootable.mem 0x10000 2).rva + 0 := by decide
  obtain ⟨hcount, htype, hpos, haddr⟩ := hsegment
  obtain ⟨role, a, hrole, hgrant, hmaps⟩ :=
    hmapped n entryPoint hpc _ (Or.inr ⟨2, hcount, htype, 0, hpos, haddr⟩)
  exact ⟨n, role, a, hdistinct n, hrole, hgrant, hmaps⟩

end Machine

end BadOS.Kernel
