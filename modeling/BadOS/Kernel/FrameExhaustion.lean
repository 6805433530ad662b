import BadOS.Kernel.AddressSpace
import BadOS.Kernel.FrameLog

/-! # Running out of frames

`pmm_alloc_block` returns 0 when no frame is free, and `vmm_map_page` does not look: it
clears frame 0 and links it as the missing table. Every later call that fails links the
same frame.
-/

namespace BadOS.Kernel

namespace Machine

/-- The machine before the call, behind each of its three tables, and after the call. -/
def mapStages (m : Machine) (phys virt flags : ℕ) : List Machine :=
  let pml4 := m.getActivePageDir
  let withPdpt := m.ensureTable .pdpt pml4 (index virt 39)
  let pdpt := entry withPdpt.mem pml4 (index virt 39) &&& addrMask
  let withPd := withPdpt.ensureTable .pd pdpt (index virt 30)
  let pd := entry withPd.mem pdpt (index virt 30) &&& addrMask
  let withPt := withPd.ensureTable .pt pd (index virt 21)
  [m, withPdpt, withPd, withPt, m.vmmMapPage phys virt flags]

/-- A present entry that refers to frame 0. -/
def RefersToZero (e : ℕ) : Prop := isPresent e = true ∧ frameOf e = 0

instance (e : ℕ) : Decidable (RefersToZero e) := inferInstanceAs (Decidable (_ ∧ _))

/-- No entry of a table starts to refer to frame 0. -/
def InstallsNoZero (m m' : Machine) : Prop :=
  ∀ f i, RefersToZero (tables m'.mem f i) → RefersToZero (tables m.mem f i)

/-- The call keeps every translation, and no step of it installs an entry that refers to
frame 0. -/
structure LeavesIntact (m : Machine) (phys virt flags : ℕ) : Prop where
  translate : ∀ x, (m.vmmMapPage phys virt flags).translate x = m.translate x
  noZero : List.IsChain InstallsNoZero (m.mapStages phys virt flags)

/-- One of the allocations between `m` and `m'` has returned 0. -/
def OutOfFrames (m m' : Machine) : Prop :=
  ∃ new, m'.granted = new ++ m.granted ∧ ∃ g ∈ new, g.2 = 0

variable {m m' m'' : Machine} {role : FrameRole} {f : ℕ} {i : Fin 512}

theorem OutOfFrames.split (hout : OutOfFrames m m'') (hfirst : Allocs m m')
    (hsecond : Allocs m' m'') : OutOfFrames m m' ∨ OutOfFrames m' m'' := by
  obtain ⟨early, hearly⟩ := hfirst.granted
  obtain ⟨late, hlate⟩ := hsecond.granted
  obtain ⟨new, hnew, g, hg, hzero⟩ := hout
  have hsplit : new = late ++ early :=
    List.append_cancel_right (hnew.symm.trans
      (by rw [← hlate, ← hearly, List.append_assoc] :
        m''.granted = late ++ early ++ m.granted))
  rw [hsplit] at hg
  rcases List.mem_append.mp hg with hg | hg
  · exact Or.inr ⟨late, hlate.symm, g, hg, hzero⟩
  · exact Or.inl ⟨early, hearly.symm, g, hg, hzero⟩

theorem not_outOfFrames (hgranted : m'.granted = m.granted) : ¬ OutOfFrames m m' := by
  rintro ⟨new, hnew, g, hg, -⟩
  rw [hgranted] at hnew
  rw [List.self_eq_append_left.mp hnew] at hg
  exact List.not_mem_nil hg

/-- A failed allocation makes frame 0 the missing table. -/
theorem ensureTable_installs_zero
    (hout : OutOfFrames m (m.ensureTable role (4096 * f) i)) :
    ¬ InstallsNoZero m (m.ensureTable role (4096 * f) i) := by
  by_cases habsent : entry m.mem (4096 * f) i &&& 1 = 0
  · rw [ensureTable_of_absent habsent] at hout ⊢
    obtain ⟨new, hnew, g, hg, hzero⟩ := hout
    have hsingle : new = [(role, m.pmm.pmmAllocBlock.1)] :=
      List.append_cancel_right (hnew.symm.trans (List.singleton_append).symm)
    rw [hsingle, List.mem_singleton] at hg
    have hnull : m.pmm.pmmAllocBlock.1 = 0 := by rw [← hzero, hg]
    rw [hnull]
    intro hinstalls
    have hlinked : RefersToZero
        (tables (BadOS.Kernel.setEntry (Libc.memset m.mem 0 0 4096) (4096 * f) i 0x7) f i) := by
      rw [tables, entry, BadOS.Kernel.setEntry, Memory.load_store (by decide)]
      decide
    have hpresent := (hinstalls f i hlinked).1
    rw [tables, (isPresent_eq_false_iff _).mpr habsent] at hpresent
    cases hpresent
  · rw [ensureTable_of_present habsent] at hout
    exact absurd hout (not_outOfFrames rfl)

/-- Whenever a frame that `vmm_map_page` needs cannot be allocated, it installs an entry
that refers to frame 0. -/
theorem not_leavesIntact (phys virt flags : ℕ)
    (hout : OutOfFrames m (m.vmmMapPage phys virt flags)) :
    ¬ LeavesIntact m phys virt flags := by
  rintro ⟨-, hchain⟩
  unfold mapStages at hchain
  unfold vmmMapPage at hout hchain
  dsimp only at hout hchain
  rw [show m.getActivePageDir = 4096 * frameOf m.cr3 from and_addrMask _] at hout hchain
  generalize hm₁ : m.ensureTable .pdpt (4096 * frameOf m.cr3) (index virt 39) = m₁ at hout hchain
  rw [and_addrMask] at hout hchain
  generalize frameOf (entry m₁.mem (4096 * frameOf m.cr3) (index virt 39)) = pdpt at hout hchain
  generalize hm₂ : m₁.ensureTable .pd (4096 * pdpt) (index virt 30) = m₂ at hout hchain
  rw [and_addrMask] at hout hchain
  generalize frameOf (entry m₂.mem (4096 * pdpt) (index virt 30)) = pd at hout hchain
  generalize hm₃ : m₂.ensureTable .pt (4096 * pd) (index virt 21) = m₃ at hout hchain
  simp only [List.isChain_cons_cons] at hchain
  obtain ⟨hpdpt, hpd, hpt, -⟩ := hchain
  have hallocs₁ : Allocs m m₁ := hm₁ ▸ ensureTable_allocs _ _ _ _
  have hallocs₂ : Allocs m₁ m₂ := hm₂ ▸ ensureTable_allocs _ _ _ _
  have hallocs₃ : Allocs m₂ m₃ := hm₃ ▸ ensureTable_allocs _ _ _ _
  have hout₃ : OutOfFrames m m₃ := hout
  rcases hout₃.split (hallocs₁.trans hallocs₂) hallocs₃ with hout | hout
  · rcases hout.split hallocs₁ hallocs₂ with hout | hout
    · subst hm₁
      exact ensureTable_installs_zero (i := slot virt 39) hout hpdpt
    · subst hm₂
      exact ensureTable_installs_zero (i := slot virt 30) hout hpd
  · subst hm₃
    exact ensureTable_installs_zero (i := slot virt 21) hout hpt

/-- An empty root table in frame 1, and no free frame. -/
def fullTables : Machine :=
  { emptyTables with
    pmm :=
      { mem := fun x => if x = 0 then 0xFF else 0, pmmBitmap := 0, usedBlocks := 8
        maxBlocks := 8 } }

theorem fullTables_alloc : fullTables.pmm.pmmAllocBlock = (0, fullTables.pmm) := by
  rcases fullTables.pmm.pmmAllocBlock_cases with ⟨i, hi, hfree, -⟩ | ⟨-, halloc⟩
  · have hused : ∀ i < 8, fullTables.pmm.isUsed (CInt.toI32 (i : ℕ)) = true := by decide +kernel
    rw [hused i hi] at hfree
    cases hfree
  · exact halloc

/-- Without a free frame, frame 0 is cleared and linked. -/
theorem ensureTable_of_null (role : FrameRole) (table k : ℕ)
    (hnull : m.pmm.pmmAllocBlock = (0, m.pmm)) (habsent : entry m.mem table k &&& 1 = 0) :
    m.ensureTable role table k =
      ⟨BadOS.Kernel.setEntry (m.mem.fill 0 4096 0) table k 0x7, m.cr3, m.pmm,
        (role, 0) :: m.granted⟩ := by
  rw [ensureTable_of_absent habsent, hnull, Libc.memset_eq_fill, Nat.zero_or,
    show UInt8.ofNat (CInt.toU8 0) = 0 by decide +kernel]

/-- Memory after three failed allocations: frame 0 links itself. -/
def sharedTable : Memory :=
  BadOS.Kernel.setEntry (BadOS.Kernel.setEntry (Memory.fill (BadOS.Kernel.setEntry (Memory.fill
    (BadOS.Kernel.setEntry (Memory.fill fullTables.mem 0 4096 0) 0x1000 0 0x7) 0 4096 0) 0 0 0x7)
    0 4096 0) 0 2 0x7) 0 0 0x5007

theorem fullTables_vmmMapPage : fullTables.vmmMapPage 0x5000 0x400000 0x7 =
    ⟨sharedTable, 0x1000, fullTables.pmm, [(.pt, 0), (.pd, 0), (.pdpt, 0)]⟩ := by
  have hroot : fullTables.getActivePageDir = 0x1000 := by decide
  have hpdpt := ensureTable_of_null .pdpt 0x1000 0 fullTables_alloc (by decide)
  have hpd := ensureTable_of_null (m := fullTables.ensureTable .pdpt 0x1000 0) .pd 0 0
    (by rw [hpdpt]; exact fullTables_alloc) (by rw [hpdpt]; decide)
  have hpt := ensureTable_of_null
    (m := (fullTables.ensureTable .pdpt 0x1000 0).ensureTable .pd 0 0) .pt 0 2
    (by rw [hpd, hpdpt]; exact fullTables_alloc) (by rw [hpd, hpdpt]; decide)
  rw [hpd, hpdpt] at hpt
  unfold vmmMapPage
  rw [hroot, show index 0x400000 39 = 0 by decide, show index 0x400000 30 = 0 by decide,
    show index 0x400000 21 = 2 by decide, show index 0x400000 12 = 0 by decide]
  dsimp only
  have hlinkPdpt : entry (fullTables.ensureTable .pdpt 0x1000 0).mem 0x1000 0 = 0x7 := by
    rw [hpdpt]
    decide
  have hlinkPd : entry ((fullTables.ensureTable .pdpt 0x1000 0).ensureTable .pd 0 0).mem 0 0 =
      0x7 := by
    rw [hpd, hpdpt]
    decide
  rw [hlinkPdpt, show 0x7 &&& addrMask = 0 by decide, hlinkPd, show 0x7 &&& addrMask = 0 by decide]
  rw [hpd, hpdpt, hpt]
  rfl

theorem fullTables_outOfFrames :
    OutOfFrames fullTables (fullTables.vmmMapPage 0x5000 0x400000 0x7) := by
  rw [fullTables_vmmMapPage]
  exact ⟨[(.pt, 0), (.pd, 0), (.pdpt, 0)], rfl, by decide⟩

/-- Mapping 0x400000 makes frame 0 the table of all its levels, so that 0x80400000, on
another branch, becomes mapped. -/
theorem fullTables_maps_other :
    OutOfFrames fullTables (fullTables.vmmMapPage 0x5000 0x400000 0x7) ∧
      fullTables.translate 0x80400000 = none ∧
      (fullTables.vmmMapPage 0x5000 0x400000 0x7).translate 0x80400000 = some 0x5000 ∧
      entry (fullTables.vmmMapPage 0x5000 0x400000 0x7).mem 0x1000 0 = 0x7 := by
  refine ⟨fullTables_outOfFrames, by decide, ?_, ?_⟩
  · rw [fullTables_vmmMapPage]
    decide
  · rw [fullTables_vmmMapPage]
    decide

theorem fullTables_not_leavesIntact : ¬ LeavesIntact fullTables 0x5000 0x400000 0x7 :=
  not_leavesIntact 0x5000 0x400000 0x7 fullTables_outOfFrames

end Machine

end BadOS.Kernel
