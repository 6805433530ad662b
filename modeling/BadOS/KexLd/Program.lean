import BadOS.KexLd.RoundTrip
import BadOS.Kernel.BootBudget

/-! # From an executable to a process

An ELF file goes through `kex-ld` and the kernel's loader. What is in memory at the
jump to user mode is what the ELF file says, so the KEX format loses nothing of it.
-/

namespace BadOS.KexLd

open Kex Kernel Kernel.Machine Memory

/-! ## Executables -/

namespace Elf

/-- Byte `k` of a segment in memory: its data, then zeros. -/
def segmentByte (input : List UInt8) (ph : Phdr) (k : ℕ) : UInt8 :=
  if k < ph.filesz then input.getD (ph.offset + k) 0 else 0

/-- The program of an ELF file has byte `b` at `virt`. -/
def HasByte (input : List UInt8) (virt : ℕ) (b : UInt8) : Prop :=
  ∃ ph ∈ loads input, ∃ k < ph.memsz, virt = ph.vaddr + k ∧ b = segmentByte input ph k

/-- Two segments have no byte of memory in common. -/
def Separate (ph ph' : Phdr) : Prop :=
  ph.vaddr + ph.memsz ≤ ph'.vaddr ∨ ph'.vaddr + ph'.memsz ≤ ph.vaddr

instance : DecidableRel Separate := fun _ _ => inferInstanceAs (Decidable (_ ∨ _))

/-- An executable as the linker script of the user programs makes it: segments that
start on pages of their own, in the lower half and not on the page of the stack. -/
structure Executable (input : List UInt8) : Prop extends Valid input where
  aligned : ∀ ph ∈ loads input, ph.vaddr % 4096 = 0
  filesz_le : ∀ ph ∈ loads input, ph.filesz ≤ ph.memsz
  lower : ∀ ph ∈ loads input, ph.vaddr + ph.memsz ≤ 2 ^ 47
  noStack : ∀ ph ∈ loads input,
    ph.vaddr + ph.memsz ≤ Loader.stackPage ∨ Loader.stackPage + 4096 ≤ ph.vaddr
  separate : (loads input).Pairwise Separate

end Elf

variable {input : List UInt8} {sha256 : List UInt8 → Vector UInt8 32} {uninit : ℕ → ℕ → UInt8}
variable {mem : Memory} {file i j k l : ℕ} {ph ph' : Phdr}

/-! ## Sizes -/

/-- Segments on pages of their own fit into the output without wrapping. -/
theorem Elf.Executable.fits (hexe : Elf.Executable input) : Fits input := by
  have hdata : dataExtent (segments input) ≤ 2 ^ 47 := by
    have hranges : dataExtent (segments input) =
        (((Elf.loads input).map fun ph => (ph.vaddr, pageExtent ph.filesz)).map Prod.snd).sum := by
      rw [dataExtent, segments, List.map_map, List.map_map]
      rfl
    rw [hranges]
    refine Placement.sum_le_of_disjoint ?_ fun r hr => ?_
    · rw [List.pairwise_map]
      refine hexe.separate.imp_of_mem fun {ph ph'} hph hph' hseparate => ?_
      have := hexe.aligned ph hph
      have := hexe.aligned ph' hph'
      have := hexe.filesz_le ph hph
      have := hexe.filesz_le ph' hph'
      unfold Elf.Separate at hseparate
      unfold pageExtent
      dsimp only
      omega
    · obtain ⟨ph, hph, rfl⟩ := List.mem_map.mp hr
      have := hexe.aligned ph hph
      have := hexe.filesz_le ph hph
      have := hexe.lower ph hph
      unfold pageExtent
      dsimp only
      omega
  have hcount := Elf.loads_length_lt input
  unfold Fits pageExtent commandsSize headerSize segmentCmdSize integrityCmdSize
  omega

/-! ## The file in memory -/

/-- A segment without data has no place in the file. -/
theorem prepareCommands_fileOffset {pos : ℕ} {segs : List TempSeg} {ks : SegmentCmd}
    (hks : ks ∈ prepareCommands i pos segs) (hempty : ks.fileSize = 0) : ks.fileOffset = 0 := by
  induction segs generalizing i pos with
  | nil => exact absurd hks List.not_mem_nil
  | cons seg segs ih =>
      unfold prepareCommands at hks
      split at hks
      next hsize =>
        rcases List.mem_cons.mp hks with rfl | hks
        · exact absurd hempty hsize.ne'
        · exact ih hks
      next =>
        rcases List.mem_cons.mp hks with rfl | hks
        · rfl
        · exact ih hks

section Linked

variable (hexe : Elf.Executable input) (hfile : mem.Holds file (link sha256 uninit input))
variable (hmemory : file + (link sha256 uninit input).length ≤ 2 ^ 64)

include hexe hfile

theorem link_entryRva : entryRva mem file = (Elf.header input).entry := by
  have hheader := (holds_link hexe.toValid hexe.fits hfile).1
  simp only [kexHeader, holds_append, List.length_append, length_encode, List.length_cons,
    List.length_nil, Nat.reduceAdd] at hheader
  obtain ⟨⟨⟨⟨-, hentry⟩, -⟩, -⟩, -⟩ := hheader
  exact hentry.load_encode (ElfClass.ehdr_lt _ _).1

include hmemory

/-- A segment command that the loader meets is that of a `PT_LOAD` header. -/
theorem link_segmentAt (hi : i < commandCount mem file) (hsegment : IsSegment mem file i) :
    ∃ hlt : i < (Elf.loads input).length, ∃ off,
      segmentAt mem file i = placedCommand (Elf.loads input)[i] i off := by
  have hlinked := link_linkedFrom hexe.toValid hexe.fits hfile hmemory
  rw [hlinked.count] at hi
  have hlt : i < (Elf.loads input).length := by
    by_contra hge
    obtain rfl : i = (Elf.loads input).length := by omega
    exact absurd (hsegment.symm.trans hlinked.integrity) (by decide)
  obtain ⟨off, -, -, heq, -⟩ := segmentAt_eq hexe.toValid hexe.fits hfile hmemory hlt
  exact ⟨hlt, off, heq⟩

/-- Its data is in the file. -/
theorem link_inside (hlt : i < (Elf.loads input).length) :
    (segmentAt mem file i).fileOffset + (segmentAt mem file i).fileSize ≤
      (link sha256 uninit input).length := by
  have hlinked := link_linkedFrom hexe.toValid hexe.fits hfile hmemory
  rcases Nat.eq_zero_or_pos (segmentAt mem file i).fileSize with hempty | hpositive
  · obtain ⟨off, -, -, heq, hzip⟩ := segmentAt_eq hexe.toValid hexe.fits hfile hmemory hlt
    have hks : segmentAt mem file i ∈ commands input := by
      rw [heq]
      exact (List.of_mem_zip (List.mem_of_getElem? hzip)).2
    rw [hempty, prepareCommands_fileOffset hks hempty]
    exact Nat.zero_le _
  · exact (hlinked.data i hlt hpositive).inside

/-- Its data is that of the ELF file. -/
theorem link_data (hlt : i < (Elf.loads input).length) (hk : k < (Elf.loads input)[i].filesz) :
    mem (file + (segmentAt mem file i).fileOffset + k) =
      input.getD ((Elf.loads input)[i].offset + k) 0 := by
  have hlinked := link_linkedFrom hexe.toValid hexe.fits hfile hmemory
  have hsize := (hlinked.segment i hlt).2.fileSize_eq
  obtain ⟨-, -, hinside, hbytes⟩ := hlinked.data i hlt (by omega)
  have hle := hexe.loads_le _ (List.getElem_mem hlt) (by omega)
  have hbyte := congrArg (·[k]?) hbytes
  rw [List.getElem?_take_of_lt (by omega), List.getElem?_take_of_lt hk, List.getElem?_drop,
    List.getElem?_drop, List.getElem?_eq_getElem (by omega)] at hbyte
  rw [List.getD_eq_getElem?_getD, ← hbyte, Option.getD_some, Nat.add_assoc]
  exact hfile _ (by omega)

/-- The loader can load what `kex-ld` makes of an executable. -/
theorem link_loadable {slots : Set (Fin 512)} (hslots : lowerSlots ⊆ slots) :
    Loadable mem slots file (link sha256 uninit input).length := by
  have hsegment := fun i => @link_segmentAt input sha256 uninit mem file i hexe hfile hmemory
  obtain ⟨-, -, -, hle, -⟩ := holds_link hexe.toValid hexe.fits hfile
  obtain ⟨-, hcount, -, -⟩ := header_read hexe.toValid hexe.fits hfile
  have hoffset : ∀ i ≤ (Elf.loads input).length,
      commandOffset mem file i = headerSize + segmentCmdSize * i :=
    fun i hi => commandOffset_eq hexe.toValid hexe.fits hfile hmemory hi
  unfold commandsSize headerSize segmentCmdSize integrityCmdSize at hle
  unfold headerSize segmentCmdSize at hoffset
  have hlower : ∀ ph ∈ Elf.loads input, ∀ k < ph.memsz, ph.vaddr + k < 2 ^ 47 := by
    intro ph hph k hk
    have := hexe.lower ph hph
    omega
  refine ⟨⟨hmemory, ?_, fun i hi => ?_, fun i hi hs => ?_⟩, fun i hi hs => ?_, fun i hi hs => ?_,
    fun i hi hs k hk => ?_, fun i hi hs k hk => ?_, ?_, hslots ?_⟩
  · unfold headerSize
    omega
  · rw [hoffset i (by omega)]
    omega
  · obtain ⟨hlt, -⟩ := hsegment i hi hs
    rw [hoffset i hlt.le]
    unfold segmentCmdSize
    omega
  · obtain ⟨hlt, off, heq⟩ := hsegment i hi hs
    rw [heq]
    exact hexe.aligned _ (List.getElem_mem hlt)
  · obtain ⟨hlt, off, heq⟩ := hsegment i hi hs
    rw [heq]
    exact hexe.filesz_le _ (List.getElem_mem hlt)
  · obtain ⟨hlt, off, heq⟩ := hsegment i hi hs
    rw [heq] at hk ⊢
    exact Or.inl (hlower _ (List.getElem_mem hlt) k hk)
  · obtain ⟨hlt, off, heq⟩ := hsegment i hi hs
    rw [heq] at hk ⊢
    exact hslots (slot_mem_lowerSlots (hlower _ (List.getElem_mem hlt) k hk))
  · intro i hi hs j hj hs' hne k hk l hl
    obtain ⟨hlt, off, heq⟩ := hsegment i hi hs
    obtain ⟨hlt', off', heq'⟩ := hsegment j hj hs'
    rw [heq] at hk ⊢
    rw [heq'] at hl ⊢
    have hseparate : Elf.Separate (Elf.loads input)[i] (Elf.loads input)[j] := by
      have hpairwise := List.pairwise_iff_getElem.mp hexe.separate
      rcases Nat.lt_or_gt_of_ne hne with h | h
      · exact hpairwise i j hlt hlt' h
      · exact (hpairwise j i hlt' hlt h).symm
    have := hexe.aligned _ (List.getElem_mem hlt)
    have := hexe.aligned _ (List.getElem_mem hlt')
    change k < (Elf.loads input)[i].memsz at hk
    change l < (Elf.loads input)[j].memsz at hl
    change ((Elf.loads input)[i].vaddr + k) / 4096 ≠ ((Elf.loads input)[j].vaddr + l) / 4096
    unfold Elf.Separate at hseparate
    omega
  · exact (by decide : index Loader.stackPage 39 < 256)

/-- The loader maps the pages of the segments in memory. -/
theorem link_pagesFrom : Loader.pagesFrom mem file 0 =
    ((Elf.loads input).map fun ph => (ph.memsz + 4095) / 4096).sum := by
  have hlinked := link_linkedFrom hexe.toValid hexe.fits hfile hmemory
  have hlast : Loader.commandPages mem file (Elf.loads input).length = 0 :=
    if_neg fun hsegment => absurd (hsegment.symm.trans hlinked.integrity) (by decide)
  have hpages : ∀ i : Fin (Elf.loads input).length, Loader.commandPages mem file i =
      ((Elf.loads input)[i.val].memsz + 4095) / 4096 := by
    intro i
    obtain ⟨hsegment, hof⟩ := hlinked.segment i i.isLt
    rw [Loader.commandPages, if_pos hsegment, Loader.pageCount, hof.memSize_eq]
  rw [Loader.pagesFrom, hlinked.count, Nat.Ico_zero_eq_range, Finset.sum_range_succ, hlast,
    Nat.add_zero, Finset.sum_range, Finset.sum_congr rfl fun i _ => hpages i]
  exact Fin.sum_univ_fun_getElem (Elf.loads input) fun ph => (ph.memsz + 4095) / 4096

end Linked

/-! ## The process -/

variable {base : Machine} {slots : Set (Fin 512)}

/-- A machine that has a linked executable in memory can load it, if the allocator
serves it. -/
theorem link_loads (hexe : Elf.Executable input)
    (hfile : base.mem.Holds file (link sha256 uninit input))
    (hmemory : file + (link sha256 uninit input).length ≤ 2 ^ 64)
    (hready : Ready base slots file (link sha256 uninit input).length)
    (hslots : lowerSlots ⊆ slots)
    (halloc : ∀ n, Allocates base slots file (link sha256 uninit input).length
      (Loader.run file base n).machine) :
    Loader.Loads base slots file (link sha256 uninit input).length := by
  refine ⟨hready, link_loadable hexe hfile hmemory hslots,
    (header_read hexe.toValid hexe.fits hfile).1, fun i hi hs => ?_, fun i hi hs k hk => ?_, halloc⟩
  · obtain ⟨hlt, -⟩ := link_segmentAt hexe hfile hmemory hi hs
    exact link_inside hexe hfile hmemory hlt
  · obtain ⟨hlt, off, heq⟩ := link_segmentAt hexe hfile hmemory hi hs
    have hstack := hexe.noStack _ (List.getElem_mem hlt)
    rw [heq] at hk ⊢
    change k < (Elf.loads input)[i].memsz at hk
    change ((Elf.loads input)[i].vaddr + k) / 4096 ≠ Loader.stackNumber
    unfold Loader.stackPage at hstack
    unfold Loader.stackNumber
    omega

theorem link_userMode (hexe : Elf.Executable input)
    (hfile : base.mem.Holds file (link sha256 uninit input))
    (hmemory : file + (link sha256 uninit input).length ≤ 2 ^ 64)
    (hloads : Loader.Loads base slots file (link sha256 uninit input).length) {n entryPoint : ℕ}
    (hpc : (Loader.run file base n).pc = .userMode entryPoint) :
    entryPoint = (Elf.header input).entry ∧
      (∃ a, (Loader.run file base n).machine.MapsTo Loader.stackPage a) ∧
      ∀ virt b, Elf.HasByte input virt b →
        (Loader.run file base n).machine.readByte virt = some b := by
  have hlinked := link_linkedFrom hexe.toValid hexe.fits hfile hmemory
  obtain ⟨hentry, hstack⟩ := hloads.stack_mapped hpc
  refine ⟨hentry.trans (link_entryRva hexe hfile), hstack, ?_⟩
  rintro virt b ⟨ph, hph, k, hk, rfl, rfl⟩
  obtain ⟨i, hi, rfl⟩ := List.getElem_of_mem hph
  obtain ⟨hsegment, hof⟩ := hlinked.segment i hi
  have hcount : i < commandCount base.mem file := by
    rw [hlinked.count]
    omega
  have hbyte := hloads.readByte_eq hpc hcount hsegment (k := k) (by rwa [hof.memSize_eq])
  rw [imageByte, hof.rva_eq, hof.fileSize_eq] at hbyte
  rw [hbyte, Elf.segmentByte]
  by_cases hdata : k < (Elf.loads input)[i].filesz
  · rw [if_pos hdata, if_pos hdata, link_data hexe hfile hmemory hi hdata]
  · rw [if_neg hdata, if_neg hdata]

/-- The bytes of the executable are in frames that were granted. -/
theorem link_exists_frame (hexe : Elf.Executable input)
    (hfile : base.mem.Holds file (link sha256 uninit input))
    (hmemory : file + (link sha256 uninit input).length ≤ 2 ^ 64)
    (hloads : Loader.Loads base slots file (link sha256 uninit input).length) {n entryPoint : ℕ}
    (hpc : (Loader.run file base n).pc = .userMode entryPoint) {virt : ℕ} {b : UInt8}
    (hbyte : Elf.HasByte input virt b) :
    ∃ g ∈ (Loader.run file base n).machine.granted,
      (Loader.run file base n).machine.translate virt = some (g.2 + virt % 4096) := by
  have hlinked := link_linkedFrom hexe.toValid hexe.fits hfile hmemory
  obtain ⟨ph, hph, k, hk, rfl, -⟩ := hbyte
  obtain ⟨i, hi, rfl⟩ := List.getElem_of_mem hph
  obtain ⟨hsegment, hof⟩ := hlinked.segment i hi
  have hcount : i < commandCount base.mem file := by
    rw [hlinked.count]
    omega
  have hframe := hloads.exists_frame hpc hcount hsegment (k := k) (by rwa [hof.memSize_eq])
  rwa [hof.rva_eq] at hframe

/-- The loader comes to user mode, and there the process is at the entry point of the
executable, has a stack, and has in memory what the executable says. -/
theorem link_runs (hexe : Elf.Executable input)
    (hfile : base.mem.Holds file (link sha256 uninit input))
    (hmemory : file + (link sha256 uninit input).length ≤ 2 ^ 64)
    (hready : Ready base slots file (link sha256 uninit input).length)
    (hslots : lowerSlots ⊆ slots)
    (halloc : ∀ n, Allocates base slots file (link sha256 uninit input).length
      (Loader.run file base n).machine) :
    (∃ n entryPoint, (Loader.run file base n).pc = .userMode entryPoint) ∧
    ∀ n entryPoint, (Loader.run file base n).pc = .userMode entryPoint →
      entryPoint = (Elf.header input).entry ∧
      (∃ a, (Loader.run file base n).machine.MapsTo Loader.stackPage a) ∧
      ∀ virt b, Elf.HasByte input virt b →
        (Loader.run file base n).machine.readByte virt = some b := by
  have hloads := link_loads hexe hfile hmemory hready hslots halloc
  refine ⟨?_, fun n entryPoint hpc => link_userMode hexe hfile hmemory hloads hpc⟩
  exact Loader.exists_userMode hloads.ready hloads.loadable hloads.magic hloads.allocates

theorem tinyElf_executable : Elf.Executable tinyElf where
  toValid := tinyElf_valid
  aligned := by decide
  filesz_le := by decide
  lower := by decide
  noStack := by decide
  separate := by decide

/-- 128 MiB with an empty root table in frame 1, and behind them what `kex-ld` makes of
the executable. -/
def tinyMachine : Machine where
  mem := Memory.extend (fun _ => 0) 0x8000000 (link (fun _ => tinyDigest) (fun _ _ => 0) tinyElf)
  cr3 := 0x1000
  pmm := bootable.pmm
  granted := []

/-- The program runs: its first instruction is where the executable has it. -/
theorem tinyMachine_runs : ∃ n, (Loader.run 0x8000000 tinyMachine.vmmInitialize n).pc =
      .userMode 0x400000 ∧
    (Loader.run 0x8000000 tinyMachine.vmmInitialize n).machine.readByte 0x400000 = some 0x31 := by
  have hheld : tinyMachine.mem.Holds 0x8000000
      (link (fun _ => tinyDigest) (fun _ _ => 0) tinyElf) := Memory.holds_extend _ _ _
  have hmemory : 0x8000000 + (link (fun _ => tinyDigest) (fun _ _ => 0) tinyElf).length ≤
      2 ^ 64 := by decide +kernel
  have hfree : FreeFrom tinyMachine 17 :=
    ⟨bootable_freeFrom.pos, bootable_freeFrom.maxBlocks, bootable_freeFrom.used⟩
  have hready : BootReady tinyMachine 0x8000000
      (link (fun _ => tinyDigest) (fun _ _ => 0) tinyElf).length :=
    hfree.bootReady (by decide) (by decide) (by decide) rfl
      (Or.inl (by decide)) (Or.inl (by decide))
  have hload := link_loadable tinyElf_executable hheld hmemory (subset_refl lowerSlots)
  have hpages : Loader.pagesFrom tinyMachine.mem 0x8000000 0 = 3 := by
    rw [link_pagesFrom tinyElf_executable hheld hmemory]
    decide
  have hfreeBlocks : tinyMachine.pmm.freeBlocks = 2 ^ 15 - 17 := hfree.freeBlocks_eq (by decide)
  obtain ⟨hnull, halloc⟩ := hready.run_allocates hfree.sound hload (by
    rw [hpages, hfreeBlocks]
    decide)
  have hheld' : tinyMachine.vmmInitialize.mem.Holds 0x8000000
      (link (fun _ => tinyDigest) (fun _ _ => 0) tinyElf) := fun i hi => by
    rw [hready.file_eq hnull _ (Nat.le_add_right _ _) (Nat.add_lt_add_left hi _)]
    exact hheld i hi
  obtain ⟨⟨n, entryPoint, hpc⟩, himage⟩ := link_runs tinyElf_executable hheld' hmemory
    (hready.ready hnull) lowerSlots_subset halloc
  obtain ⟨hentry, -, hbytes⟩ := himage n entryPoint hpc
  have hfirst : Elf.HasByte tinyElf 0x400000 0x31 := by
    have hbyte : ∃ ph ∈ Elf.loads tinyElf,
        0 < ph.memsz ∧ 0x400000 = ph.vaddr + 0 ∧ 0x31 = Elf.segmentByte tinyElf ph 0 := by
      decide
    obtain ⟨ph, hph, hpos, hvirt, hbyte⟩ := hbyte
    exact ⟨ph, hph, 0, hpos, hvirt, hbyte⟩
  refine ⟨n, hpc.trans (congrArg _ (hentry.trans ?_)), hbytes _ _ hfirst⟩
  decide

end BadOS.KexLd
