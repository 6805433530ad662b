import BadOS.KexLd.Program
import BadOS.Kernel.BitmapSetup
import BadOS.Kernel.FsImage
import BadOS.Kernel.VideoMapping

/-! # From the bootloader to user mode

`_start` from the memory map on: the frame allocator, the root table, the heap, the
window of the video and the first program. What the program finds in memory is its
executable, its stack and the video.
-/

namespace BadOS.Kernel

open Kex

namespace Machine

variable {base old m m' : Machine} {slots : Set (Fin 512)} {file len rd n k x : ℕ}
variable {new : List (FrameRole × ℕ)} {frames : ℕ → Option ℕ} {s : Loader}

/-! ## Parts of the ramdisk -/

theorem Apart.mono {a : ℕ} (hapart : Apart a rd len) (hlo : rd ≤ file) (hhi : file + n ≤ rd + len) :
    Apart a file n := by
  unfold Apart at hapart ⊢
  omega

theorem Ready.mono (hready : Ready base slots rd len) (hlo : rd ≤ file)
    (hhi : file + n ≤ rd + len) : Ready base slots file n :=
  ⟨hready.tree, fun q hq f hf => (hready.apart q hq f hf).mono hlo hhi⟩

theorem Allocates.mono (halloc : Allocates base slots rd len m) (hlo : rd ≤ file)
    (hhi : file + n ≤ rd + len) : Allocates base slots file n m :=
  ⟨halloc.fresh, fun new hnew g hg => (halloc.apart new hnew g hg).mono hlo hhi⟩

theorem BootReady.mono (hready : BootReady old rd len) (hlo : rd ≤ file)
    (hhi : file + n ≤ rd + len) : BootReady old file n :=
  ⟨hready.maxBlocks, hready.tree, hready.granted,
    fun i hi hfree => ⟨(hready.unused i hi hfree).1, (hready.unused i hi hfree).2.mono hlo hhi⟩,
    fun q hq f hf => (hready.apart q hq f hf).mono hlo hhi⟩

/-- A byte of the ramdisk is in no frame that has been granted. -/
theorem Apart.not_mem {a : ℕ} (hapart : Apart a rd len) (hlo : rd ≤ x) (hhi : x < rd + len) :
    ¬ (a ≤ x ∧ x < a + 4096) := by
  unfold Apart at hapart
  omega

/-- Mapping a page changes tables only. -/
theorem GrownFrom.mapNewPage_sameFile {virt flags : ℕ} {role : FrameRole}
    (hgrown : GrownFrom base slots new m) (hslot : slot virt 39 ∈ slots)
    (hready : Ready base slots rd len)
    (halloc : Allocates base slots rd len (m.mapNewPage role virt flags)) :
    SameFile m.mem (m.mapNewPage role virt flags).mem rd len := by
  obtain ⟨more, a, hgrown', hmaps⟩ := hgrown.mapNewPage hslot role flags halloc.fresh
  exact fun x hlo hhi => hmaps.outside x fun q hq =>
    hgrown'.file_not_table hready (halloc.apart _ hgrown'.granted) hlo hhi hq

/-- Stores to placed pages keep the ramdisk. -/
theorem Placed.sameFile (hplaced : Placed base slots file len new frames m) {mem : Memory}
    {rdLen : ℕ} (halloc : Allocates base slots rd rdLen m)
    (hmem : ∀ x, (∀ n a, frames n = some a → ∀ k < 4096, x ≠ a + k) → mem x = m.mem x) :
    SameFile m.mem mem rd rdLen := by
  refine fun x hlo hhi => hmem x ?_
  rintro n a hframe k hk rfl
  obtain ⟨role, -, hgrant⟩ := hplaced.role n a hframe
  exact (halloc.apart _ hplaced.grown.granted _ hgrant).not_mem hlo hhi
    ⟨Nat.le_add_right a k, by dsimp only; omega⟩

end Machine

namespace Loader

open Machine

variable {base : Machine} {slots : Set (Fin 512)} {file len rd rdLen n : ℕ} {s : Loader}

/-- A step keeps what is apart from the tables and the granted frames. -/
theorem step_sameFile (hfile : Loadable base.mem slots file len)
    (hinv : Inv base slots file len s) (hready' : Ready base slots rd rdLen)
    (halloc' : Allocates base slots rd rdLen (step file s).machine) :
    SameFile s.machine.mem (step file s).machine.mem rd rdLen := by
  rcases step_machine hfile hinv with hsame | ⟨role, virt, hslot, hmap⟩ |
    ⟨new, frames, mem, hplaced, hstore, hkept⟩
  · rw [hsame]
    exact fun _ _ _ => rfl
  · obtain ⟨new, frames, hplaced, -⟩ := hinv
    rw [hmap] at halloc' ⊢
    exact hplaced.grown.mapNewPage_sameFile hslot hready' halloc'
  · rw [hstore]
    exact hplaced.sameFile (halloc'.of_allocs (step_allocs file s)) hkept

/-- The loader keeps what is apart from the tables and the granted frames. -/
theorem run_sameFile (hready : Ready base slots file len)
    (hfile : Loadable base.mem slots file len)
    (halloc : ∀ n, Allocates base slots file len (run file base n).machine)
    (hready' : Ready base slots rd rdLen)
    (halloc' : ∀ n, Allocates base slots rd rdLen (run file base n).machine) (n : ℕ) :
    SameFile base.mem (run file base n).machine.mem rd rdLen := by
  induction n with
  | zero => exact fun _ _ _ => rfl
  | succ n ih =>
      have hnext := halloc' (n + 1)
      rw [run_succ] at hnext ⊢
      have hstep := step_sameFile hfile (run_inv hready hfile halloc n) hready' hnext
      exact fun x hlo hhi => (hstep x hlo hhi).trans (ih x hlo hhi)

end Loader

namespace Machine

variable {before m : Machine} {slots : Set (Fin 512)} {file len vidPhys vidSize i : ℕ}
variable {new : List (FrameRole × ℕ)} {frames : ℕ → Option ℕ}

/-! ## The window at the jump to user mode -/

/-- Pages placed below the window leave the pages of the video in it. -/
theorem Placed.translate_video (hplaced : Placed before bootSlots file len new frames m)
    (hbelow : ∀ n a, frames n = some a → n < 0x80000)
    (hvideo : ∀ k < pagesNeeded vidPhys vidSize, before.HasVideoPage vidPhys k)
    (hsize : vidSize < 2 ^ 32) (hfits : vidPhys + vidSize ≤ 2 ^ 52)
    (hi : i < vidPhys % 4096 + vidSize) :
    m.translate (0x80000000 + i) = some (vidPhys - vidPhys % 4096 + i) := by
  have hcount := pagesNeeded_le vidPhys hsize
  obtain ⟨k, hk⟩ : ∃ k, k = i / 4096 := ⟨_, rfl⟩
  have hneeded : k < pagesNeeded vidPhys vidSize := by
    unfold pagesNeeded
    rw [Nat.mod_eq_of_lt (by omega)]
    omega
  have hvirt : (0x80000000 + k * 4096) % 2 ^ 64 = 0x80000000 + k * 4096 :=
    Nat.mod_eq_of_lt (by omega)
  have hphys : (4096 * (vidPhys / 4096) + k * 4096) % 2 ^ 64 = 4096 * (vidPhys / 4096 + k) := by
    rw [Nat.mod_eq_of_lt (by omega)]
    omega
  have hentry := hvideo k hneeded
  unfold HasVideoPage at hentry
  rw [hvirt, hphys] at hentry
  have hslot : slot (0x80000000 + k * 4096) 39 ∈ bootSlots := slot_lower (by omega)
  have hkept := hplaced.kept _ (mem_paths_of_slot hslot).2.2 rfl
    (slot (0x80000000 + k * 4096) 12) fun n a hframe hpage => by
      have hn := hbelow n a hframe
      have hsame := page_eq_iff.mpr hpage
      unfold page at hsame
      omega
  have hsame : page (0x80000000 + i) = page (0x80000000 + k * 4096) := by
    unfold page
    omega
  obtain ⟨hpath, hindex⟩ := page_eq_iff.mp hsame
  have hlookup := hkept.trans hentry
  rw [← hpath, ← hindex] at hlookup
  rw [translate_of_lookup hplaced.grown.tree (slot_lower (by omega)) (Or.inl (by omega))
    (by omega) hlookup]
  congr 1
  omega

end Machine

/-! ## The ramdisk -/

namespace Fs

/-- The kernel's view of memory when it looks for its files: the ramdisk behind the
direct map, the two file names and the variable `vid_size`. -/
structure KernelView (view mem : Memory) (hhdmOffset rd len videoName vidSize kexName : ℕ) :
    Prop where
  sees : ∀ x, rd ≤ x → x < rd + len → view (hhdmOffset + x) = mem x
  videoString : view.IsString videoName (Libc.ascii "video.bad") ∧ videoName + 9 < 2 ^ 64
  kexString : view.IsString kexName (Libc.ascii "init.kex") ∧ kexName + 8 < 2 ^ 64
  vidSize_ne : vidSize ≠ 0
  vidSize_ramdisk : vidSize + 8 ≤ hhdmOffset + rd ∨ hhdmOffset + (rd + len) ≤ vidSize
  vidSize_kexName : vidSize + 8 ≤ kexName ∨ kexName + 9 ≤ vidSize

/-- The physical address of the contents of the file behind `before`. -/
def contentPhys (rd : ℕ) (before : List TarEntry) : ℕ := headerAddr rd before + 512

variable {m m' view mem : Memory} {a b hhdmOffset rd len videoName kexName filename : ℕ}
variable {vidSize outSize : ℕ} {entries before behind : List TarEntry} {e : TarEntry}
variable {name : List UInt8}

/-- A header is a header wherever its bytes are. -/
theorem HeaderAt.congr_at (hheader : HeaderAt m a e) (h : ∀ i < 512, m' (b + i) = m (a + i)) :
    HeaderAt m' b e := by
  have hlength := hheader.name_length.2
  obtain ⟨digits, hdigits, hlt, hfield, hsize⟩ := hheader.size
  refine ⟨hheader.name.congr_at fun i hi => h i (by omega), hheader.name_length,
    ⟨digits, hdigits, hlt, fun i hi => ?_, hsize⟩, hheader.size_le⟩
  rw [← hfield i hi, sizeOffset, Nat.add_assoc, Nat.add_assoc]
  exact h _ (by omega)

/-- An archive is an archive wherever its bytes are, with the block behind it. -/
theorem Archive.congr_at (harchive : Archive m a entries)
    (hrange : b + (entries.map TarEntry.span).sum < 2 ^ 64)
    (h : ∀ i ≤ (entries.map TarEntry.span).sum, m' (b + i) = m (a + i)) :
    Archive m' b entries := by
  induction entries generalizing a b with
  | nil => exact (h 0 le_rfl).trans harchive
  | cons e rest ih =>
      obtain ⟨hheader, -, hrest⟩ := harchive
      rw [List.map_cons, List.sum_cons] at hrange h
      have hspan : 512 ≤ e.span := Nat.le_add_right _ _
      refine ⟨hheader.congr_at fun i hi => h i (by omega), by omega, ih hrest (by omega) ?_⟩
      intro i hi
      rw [Nat.add_assoc, Nat.add_assoc]
      exact h (e.span + i) (by omega)

/-- The ramdisk behind the direct map. -/
theorem Archive.shift (hsees : ∀ x, rd ≤ x → x < rd + len → view (hhdmOffset + x) = mem x)
    (hhdm : hhdmOffset + (rd + len) ≤ 2 ^ 64) (harchive : Archive mem rd entries)
    (hinside : (entries.map TarEntry.span).sum < len) : Archive view (hhdmOffset + rd) entries :=
  harchive.congr_at (by omega) fun i hi => by
    rw [Nat.add_assoc]
    exact hsees _ (by omega) (by omega)

/-- The size of the video is stored neither in the ramdisk nor in the second name. -/
theorem KernelView.store
    (hview : KernelView view mem hhdmOffset rd len videoName vidSize kexName) (v : ℕ) :
    (∀ x, rd ≤ x → x < rd + len → view.store vidSize 8 v (hhdmOffset + x) = mem x) ∧
      (view.store vidSize 8 v).IsString kexName (Libc.ascii "init.kex") := by
  have hlength : (Libc.ascii "init.kex").length = 8 := by decide
  constructor
  · intro x hlo hhi
    have hapart := hview.vidSize_ramdisk
    rw [Memory.store_outside (by omega)]
    exact hview.sees x hlo hhi
  · refine hview.kexString.1.congr_at fun i hi => Memory.store_outside ?_
    have hapart := hview.vidSize_kexName
    omega

theorem headerAddr_add (a b : ℕ) (before : List TarEntry) :
    headerAddr (a + b) before = a + headerAddr b before := Nat.add_assoc a b _

/-- The contents of a file are inside the ramdisk. -/
theorem contentPhys_inside (rd : ℕ) (hsplit : entries = before ++ e :: behind)
    (hinside : (entries.map TarEntry.span).sum < len) :
    rd ≤ contentPhys rd before ∧ contentPhys rd before + e.size ≤ rd + len := by
  rw [hsplit, List.map_append, List.map_cons, List.sum_append, List.sum_cons] at hinside
  have hspan : 512 + e.size ≤ e.span := by
    unfold TarEntry.span
    omega
  unfold contentPhys headerAddr
  omega

/-- A lookup of the first file of a name. -/
theorem Archive.getFile (harchive : Archive view (hhdmOffset + rd) entries)
    (hname : view.IsString filename name) (hend : filename + name.length < 2 ^ 64)
    (hsplit : entries = before ++ e :: behind) (heq : e.name = name)
    (hfirst : ∀ e' ∈ before, e'.name ≠ name) (hout : outSize ≠ 0) :
    fsGetFile view (hhdmOffset + rd) filename outSize =
      some (hhdmOffset + contentPhys rd before, view.store outSize 8 e.size) := by
  subst hsplit heq
  rw [(harchive.found hname hend hfirst).1 outSize, if_pos hout, headerAddr_add, Nat.add_assoc,
    contentPhys]

end Fs

namespace Machine

/-! ## The first program -/

/-- `_start` from `fs_get_file("video.bad", &vid_size)` on, with the kernel's view of
memory: the machine and the file `load_kex_and_run` is called with. It is `none` when
there is no `init.kex`, or when a lookup does not end. -/
def startProgram (m : Machine) (view : Memory) (hhdmOffset fsStartAddr : ℕ)
    (videoName vidSize kexName fileSize : ℕ) (alloc : Allocator := allocBlock) :
    Option (Machine × ℕ) := do
  let (vidPtr, view) ← Fs.fsGetFile view fsStartAddr videoName vidSize
  let m := if vidPtr ≠ 0 then
      m.mapVideo (vidPhys vidPtr hhdmOffset) (view.load vidSize 8) alloc
    else m
  let (helloKex, _) ← Fs.fsGetFile view fsStartAddr kexName fileSize
  if helloKex ≠ 0 then some (m, vidPhys helloKex hhdmOffset) else none

variable {m : Machine} {view mem : Memory} {hhdmOffset rd len videoName kexName n : ℕ}
variable {vidSize fileSize : ℕ} {entries before behind before' behind' : List Fs.TarEntry}
variable {video kex : Fs.TarEntry}

theorem vidPhys_add (hn : n < 2 ^ 64) :
    vidPhys (hhdmOffset + n) hhdmOffset = n := by
  unfold vidPhys
  omega

/-- With both files in the ramdisk, the video is mapped and the program loaded from their
places. -/
theorem startProgram_eq (harchive : Fs.Archive mem rd entries)
    (hinside : (entries.map Fs.TarEntry.span).sum < len)
    (hview : Fs.KernelView view mem hhdmOffset rd len videoName vidSize kexName)
    (hhdm : hhdmOffset + 2 ^ 44 ≤ 2 ^ 64) (hbelow : rd + len ≤ 2 ^ 44)
    (hvideo : entries = before ++ video :: behind)
    (hvideoName : video.name = Libc.ascii "video.bad")
    (hvideoFirst : ∀ e ∈ before, e.name ≠ Libc.ascii "video.bad")
    (hkex : entries = before' ++ kex :: behind') (hkexName : kex.name = Libc.ascii "init.kex")
    (hkexFirst : ∀ e ∈ before', e.name ≠ Libc.ascii "init.kex")
    (hsize : video.size < 2 ^ 32) (hfileSize : fileSize ≠ 0) (alloc : Allocator) :
    m.startProgram view hhdmOffset (hhdmOffset + rd) videoName vidSize kexName fileSize alloc =
      some (m.mapVideo (Fs.contentPhys rd before) video.size alloc,
        Fs.contentPhys rd before') := by
  obtain ⟨hsees, hname⟩ := hview.store video.size
  have hvideoLookup := (harchive.shift hview.sees (by omega) hinside).getFile hview.videoString.1
    hview.videoString.2 hvideo hvideoName hvideoFirst hview.vidSize_ne
  have hkexLookup := (harchive.shift hsees (by omega) hinside).getFile hname hview.kexString.2 hkex
    hkexName hkexFirst hfileSize
  have hload : (view.store vidSize 8 video.size).load vidSize 8 = video.size :=
    Memory.load_store (by omega)
  obtain ⟨-, hvideoEnd⟩ := Fs.contentPhys_inside rd hvideo hinside
  obtain ⟨-, hkexEnd⟩ := Fs.contentPhys_inside rd hkex hinside
  have hvideoPtr : hhdmOffset + Fs.contentPhys rd before ≠ 0 := by
    unfold Fs.contentPhys
    omega
  have hkexPtr : hhdmOffset + Fs.contentPhys rd before' ≠ 0 := by
    unfold Fs.contentPhys
    omega
  simp only [startProgram, hvideoLookup, hkexLookup, Option.bind_eq_bind, Option.bind_some, hload,
    if_pos hvideoPtr, if_pos hkexPtr, ne_eq]
  rw [vidPhys_add (by omega), vidPhys_add (by omega)]

/-! ## User mode -/

/-- The process when it starts in user mode: at its entry point, with a stack, with its
executable in memory, and with the video and the ramdisk before it in the window. -/
structure UserStart (input : List UInt8) (mem : Memory) (rd videoPhys videoSize entryPoint : ℕ)
    (m : Machine) : Prop where
  entry : entryPoint = (KexLd.Elf.header input).entry
  stack : ∃ a, m.MapsTo Loader.stackPage a
  image : ∀ virt b, KexLd.Elf.HasByte input virt b → m.readByte virt = some b
  video : ∀ i < videoPhys % 4096 + videoSize, rd ≤ videoPhys - videoPhys % 4096 + i →
    m.readByte (0x80000000 + i) = some (mem (videoPhys - videoPhys % 4096 + i))

variable {old : Machine} {videoPhys videoSize : ℕ} {input : List UInt8}
variable {sha256 : List UInt8 → Vector UInt8 32} {uninit : ℕ → ℕ → UInt8}

/-- The boot up to the loader, as long as no allocation fails. -/
theorem BootReady.booted (hready : BootReady old rd len)
    (hstores : HeapStores old.vmmInitialize.mapHeap m) (hsize : videoSize < 2 ^ 32)
    (hnull : (m.mapVideo videoPhys videoSize).NeverNull) :
    SameFile old.mem m.mem rd len ∧ Allocs old.vmmInitialize (m.mapVideo videoPhys videoSize) ∧
      ∃ new, Booted old rd len new heapPages (m.mapVideo videoPhys videoSize) := by
  have hheap : Allocs old.vmmInitialize.mapHeap m := .refl hstores.pmm_eq hstores.granted_eq
  have hnullHeap := hnull.of_allocs (hheap.trans (mapVideo_allocs m videoPhys videoSize))
  obtain ⟨hallocs, new, hbooted⟩ := hready.mapHeap hnullHeap
  have hbooted' := hbooted.heapStores hready hallocs hnullHeap (le_refl _) hstores
  exact ⟨hbooted'.file_eq, hbooted'.mapVideo hready (hallocs.trans hheap) hsize hnull⟩

section Boot

variable (hready : BootReady old rd len) (hsound : old.pmm.Sound)
variable (hstores : HeapStores old.vmmInitialize.mapHeap m)
variable (hexe : KexLd.Elf.Executable input)
variable (hbelow : ∀ ph ∈ KexLd.Elf.loads input, ph.vaddr + ph.memsz ≤ 0x80000000)
variable {kexPhys : ℕ} (hkex : old.mem.Holds kexPhys (KexLd.link sha256 uninit input))
variable (hkexLo : rd ≤ kexPhys)
variable (hkexHi : kexPhys + (KexLd.link sha256 uninit input).length ≤ rd + len)
variable (hvideoHi : videoPhys + videoSize ≤ rd + len)
variable (hsize : videoSize < 2 ^ 32) (hmemory : rd + len ≤ 2 ^ 44)

include hready hsound hstores hexe hbelow hkex hkexLo hkexHi hvideoHi hsize hmemory

/-- A machine with enough free frames boots to user mode. There its bytes are in frames that
have been granted, and those of the window where the video is. -/
theorem boot_userStart
    (henough : bootFrames old kexPhys videoPhys videoSize ≤ old.pmm.freeBlocks) :
    SameFile old.mem m.mem rd len ∧
    (∀ n, (Loader.run kexPhys (m.mapVideo videoPhys videoSize) n).machine.NeverNull) ∧
    (∃ n entryPoint, (Loader.run kexPhys (m.mapVideo videoPhys videoSize) n).pc =
      .userMode entryPoint) ∧
    ∀ n entryPoint,
      (Loader.run kexPhys (m.mapVideo videoPhys videoSize) n).pc = .userMode entryPoint →
      UserStart input old.mem rd videoPhys videoSize entryPoint
          (Loader.run kexPhys (m.mapVideo videoPhys videoSize) n).machine ∧
        (∀ virt b, KexLd.Elf.HasByte input virt b →
          ∃ g ∈ (Loader.run kexPhys (m.mapVideo videoPhys videoSize) n).machine.granted,
            (Loader.run kexPhys (m.mapVideo videoPhys videoSize) n).machine.translate virt =
              some (g.2 + virt % 4096)) ∧
        ∀ i < videoPhys % 4096 + videoSize,
          (Loader.run kexPhys (m.mapVideo videoPhys videoSize) n).machine.translate
            (0x80000000 + i) = some (videoPhys - videoPhys % 4096 + i) := by
  have hmemory' : kexPhys + (KexLd.link sha256 uninit input).length ≤ 2 ^ 64 := by omega
  have hreadyKex := hready.mono hkexLo hkexHi
  have hfile := KexLd.link_loadable hexe hkex hmemory' (subset_refl lowerSlots)
  obtain ⟨⟨new, hbefore⟩, hvideo, hrun⟩ :=
    boot_stocked hreadyKex hsound hfile hstores hsize fun n => Or.inl henough
  have hnull : ∀ n, (Loader.run kexPhys (m.mapVideo videoPhys videoSize) n).machine.NeverNull :=
    fun n => (hrun n).1
  have hnull₀ : (m.mapVideo videoPhys videoSize).NeverNull := hnull 0
  obtain ⟨hramdisk, hallocs, newRd, hbooted⟩ := hready.booted hstores hsize hnull₀
  generalize m.mapVideo videoPhys videoSize = before at *
  have hlater : ∀ n, Allocs before (Loader.run kexPhys before n).machine :=
    fun n => Loader.run_allocs kexPhys before (Nat.zero_le n)
  have hreadyRd := hbooted.ready hready hallocs hnull₀
  have hallocRd : ∀ n, Allocates before bootSlots rd len (Loader.run kexPhys before n).machine :=
    fun n => hbooted.allocates hready hallocs (hlater n) (hnull n)
  have hkex' : before.mem.Holds kexPhys (KexLd.link sha256 uninit input) := fun i hi => by
    rw [hbooted.file_eq _ (by omega) (by omega)]
    exact hkex i hi
  have hloads := KexLd.link_loads hexe hkex' hmemory' (hreadyRd.mono hkexLo hkexHi)
    lowerSlots_subset
    fun n => (hallocRd n).mono hkexLo hkexHi
  refine ⟨hramdisk, hnull, hloads.run_image.1, fun n entryPoint hpc => ?_⟩
  obtain ⟨hentry, hstack, himage⟩ := KexLd.link_userMode hexe hkex' hmemory' hloads hpc
  obtain ⟨-, ⟨more, frames, hplaced, hdeclared, -⟩, -⟩ := hrun n
  have hpages : ∀ p a, frames p = some a → p < 0x80000 := by
    intro p a hframe
    rcases hdeclared p a hframe with rfl | ⟨j, hj, hsegment, k, hk, rfl⟩
    · decide
    · obtain ⟨hlt, off, heq⟩ := KexLd.link_segmentAt hexe hkex' hmemory' hj hsegment
      have hend := hbelow _ (List.getElem_mem hlt)
      rw [heq] at hk ⊢
      change k < (KexLd.Elf.loads input)[j].memsz at hk
      change ((KexLd.Elf.loads input)[j].vaddr + k) / 4096 < 0x80000
      omega
  have hsame := Loader.run_sameFile (hreadyRd.mono hkexLo hkexHi)
    (KexLd.link_loadable hexe hkex' hmemory' fun i hi => Or.inl hi)
    (fun n => (hallocRd n).mono hkexLo hkexHi) hreadyRd hallocRd n
  have hwindow : ∀ i < videoPhys % 4096 + videoSize,
      (Loader.run kexPhys before n).machine.translate (0x80000000 + i) =
        some (videoPhys - videoPhys % 4096 + i) :=
    fun i hi => hplaced.translate_video hpages hvideo hsize (by omega) hi
  refine ⟨⟨hentry, hstack, himage, fun i hi hinside => ?_⟩,
    fun virt b => KexLd.link_exists_frame hexe hkex' hmemory' hloads hpc, hwindow⟩
  rw [readByte, hwindow i hi, Option.map_some, hsame _ (by omega) (by omega),
    hbooted.file_eq _ (by omega) (by omega)]

end Boot

/-! ## With the bitmap in memory -/

theorem PhysReady.mono {lo room : ℕ} (hready : PhysReady old rd len lo room) (hlo : rd ≤ file)
    (hhi : file + n ≤ rd + len) : PhysReady old file n lo room := by
  have hapart := hready.apart
  exact ⟨hready.ready.mono hlo hhi, hready.clear, hready.physPmm, hready.bitmapIn, by omega⟩

/-- What is not in the bitmap is read as without it. -/
theorem Mirrors.readByte_eq {phys : Machine} {lo room virt a : ℕ} (h : Mirrors lo room m phys)
    (hsame : SameTables bootSlots m phys) (htree : m.TreeOn bootSlots) (hvirt : virt < 2 ^ 47)
    (htranslate : m.translate virt = some a) (hapart : a < lo ∨ lo + room ≤ a) :
    phys.readByte virt = m.readByte virt := by
  rw [readByte, readByte, hsame.translate_eq htree (slot_lower hvirt), htranslate,
    Option.map_some, Option.map_some, h.outside a hapart]

/-- A start whose pages are not in the bitmap is the same with the bitmap in memory. -/
theorem UserStart.mirrored {phys : Machine} {lo room entryPoint : ℕ}
    (huser : UserStart input mem rd videoPhys videoSize entryPoint m)
    (hmirrors : Mirrors lo room m phys) (hsame : SameTables bootSlots m phys)
    (htree : m.TreeOn bootSlots)
    (himage : ∀ virt b, KexLd.Elf.HasByte input virt b → virt < 2 ^ 47 ∧
      ∃ a, m.translate virt = some a ∧ (a < lo ∨ lo + room ≤ a))
    (hvideo : ∀ i < videoPhys % 4096 + videoSize, rd ≤ videoPhys - videoPhys % 4096 + i →
      0x80000000 + i < 2 ^ 47 ∧
        ∃ a, m.translate (0x80000000 + i) = some a ∧ (a < lo ∨ lo + room ≤ a)) :
    UserStart input mem rd videoPhys videoSize entryPoint phys := by
  refine ⟨huser.entry, ?_, fun virt b hbyte => ?_, fun i hi hramdisk => ?_⟩
  · obtain ⟨a, ha⟩ := huser.stack
    refine ⟨a, ?_⟩
    unfold MapsTo at ha ⊢
    rwa [hsame.lookup_eq (mem_paths_of_slot (slot_lower (by decide))).2.2]
  · obtain ⟨hvirt, a, htranslate, hapart⟩ := himage virt b hbyte
    rw [hmirrors.readByte_eq hsame htree hvirt htranslate hapart]
    exact huser.image virt b hbyte
  · obtain ⟨hvirt, a, htranslate, hapart⟩ := hvideo i hi hramdisk
    rw [hmirrors.readByte_eq hsame htree hvirt htranslate hapart]
    exact huser.video i hi hramdisk

section PhysBoot

variable {lo room : ℕ} (hready : PhysReady old rd len lo room) (hsound : old.pmm.Sound)
variable (hstores : HeapStores ((old.vmmInitialize allocPhys).mapHeap allocPhys) m)
variable (hexe : KexLd.Elf.Executable input)
variable (hbelow : ∀ ph ∈ KexLd.Elf.loads input, ph.vaddr + ph.memsz ≤ 0x80000000)
variable {kexPhys : ℕ} (hkex : old.mem.Holds kexPhys (KexLd.link sha256 uninit input))
variable (hkexLo : rd ≤ kexPhys)
variable (hkexHi : kexPhys + (KexLd.link sha256 uninit input).length ≤ rd + len)
variable (hvideoHi : videoPhys + videoSize ≤ rd + len)
variable (hsize : videoSize < 2 ^ 32) (hmemory : rd + len ≤ 2 ^ 44)

include hready hsound hstores hexe hbelow hkex hkexLo hkexHi hvideoHi hsize hmemory

/-- With its bitmap in its memory, a machine with enough free frames boots to user mode. -/
theorem PhysReady.boot_userStart
    (henough : bootFrames old kexPhys videoPhys videoSize ≤ old.pmm.freeBlocks) :
    SameFile old.mem m.mem rd len ∧
    (∃ n entryPoint, (Loader.run kexPhys (m.mapVideo videoPhys videoSize allocPhys) n
      allocPhys).pc = .userMode entryPoint) ∧
    ∀ n entryPoint, (Loader.run kexPhys (m.mapVideo videoPhys videoSize allocPhys) n
        allocPhys).pc = .userMode entryPoint →
      UserStart input old.mem rd videoPhys videoSize entryPoint
        (Loader.run kexPhys (m.mapVideo videoPhys videoSize allocPhys) n allocPhys).machine := by
  have hmemory' : kexPhys + (KexLd.link sha256 uninit input).length ≤ 2 ^ 64 := by omega
  have hfile := KexLd.link_loadable hexe hkex hmemory' (subset_refl lowerSlots)
  have hinside := fun i hi hsegment => KexLd.link_inside hexe hkex hmemory'
    (KexLd.link_segmentAt (i := i) hexe hkex hmemory' hi hsegment).1
  -- The machine with the bitmap apart has enough frames for the heap.
  have hserved : EitherServed old.vmmInitialize.mapHeap
      ((old.vmmInitialize allocPhys).mapHeap allocPhys) := by
    have hsame : HeapStores old.vmmInitialize.mapHeap old.vmmInitialize.mapHeap :=
      ⟨rfl, rfl, rfl, fun _ _ => rfl⟩
    obtain ⟨-, hnull, -⟩ := Machine.boot_userStart hready.ready hsound hsame hexe hbelow hkex
      hkexLo hkexHi hvideoHi hsize hmemory henough
    have hfirst := hnull 0
    exact Or.inl (NeverNull.of_allocs (mapVideo_allocs _ videoPhys videoSize) hfirst)
  obtain ⟨m', hstores', hmirrors, hfollows⟩ :=
    (hready.mono hkexLo hkexHi).boot_follows hfile hinside hstores hsize hserved
  obtain ⟨hramdisk, hnull, hexists, hstart⟩ := Machine.boot_userStart hready.ready hsound
    hstores' hexe hbelow hkex hkexLo hkexHi hvideoHi hsize hmemory henough
  have hapart := hready.apart
  refine ⟨fun x hlo hhi => ?_, ?_, fun n entryPoint hpc => ?_⟩
  · rw [hmirrors.outside x (by omega)]
    exact hramdisk x hlo hhi
  · obtain ⟨n, entryPoint, hpc⟩ := hexists
    obtain ⟨-, phys, hphys, -⟩ := hfollows n (Or.inl (hnull n))
    exact ⟨n, entryPoint, by rw [hphys]; exact hpc⟩
  · obtain ⟨hguards, phys, hphys, htracks⟩ := hfollows n (Or.inl (hnull n))
    obtain ⟨-, hallocs, -⟩ := hready.ready.booted hstores' hsize (hnull 0)
    have hall := ((vmmInitialize_allocs old).trans hallocs).trans
      (Loader.run_allocs kexPhys _ (Nat.zero_le n))
    have hnull := hnull n
    rw [hphys] at hpc ⊢
    obtain ⟨huser, hframes, hwindow⟩ := hstart n entryPoint hpc
    obtain ⟨new, hgrown⟩ := htracks.grown
    have hsame := htracks.mirrors.sameTables fun q hq f hf => htracks.apart hguards hnull hq hf
    rw [Loader.on_machine]
    refine huser.mirrored htracks.mirrors hsame hgrown.tree (fun virt b hbyte => ?_)
      fun i hi hramdisk => ⟨by omega, _, hwindow i hi, by omega⟩
    obtain ⟨g, hg, htranslate⟩ := hframes virt b hbyte
    obtain ⟨j, -, -, haddr, -, hframe⟩ := hready.clear.granted_frame hall hnull hg
    obtain ⟨ph, hph, k, hk, rfl, -⟩ := id hbyte
    have hend := hbelow ph hph
    unfold Apart at hframe
    exact ⟨by omega, _, htranslate, by omega⟩

end PhysBoot

end Machine

namespace MemoryMap

open Machine

variable {map : MemoryMap} {hhdmOffset rd len videoName vidSize kexName fileSize : ℕ}
variable {mem view : Memory} {entries before behind before' behind' : List Fs.TarEntry}
variable {video kex : Fs.TarEntry} {old m : Machine} {input : List UInt8}
variable {sha256 : List UInt8 → Vector UInt8 32} {uninit : ℕ → ℕ → UInt8}

section Start

variable (hboot : map.Handover hhdmOffset old rd len)
variable (hstores : HeapStores (((map.setUp old).vmmInitialize allocPhys).mapHeap allocPhys) m)
variable (harchive : Fs.Archive old.mem rd entries)
variable (hinside : (entries.map Fs.TarEntry.span).sum < len)
variable (hview : Fs.KernelView view m.mem hhdmOffset rd len videoName vidSize kexName)
variable (hvideo : entries = before ++ video :: behind)
variable (hvideoName : video.name = Libc.ascii "video.bad")
variable (hvideoFirst : ∀ e ∈ before, e.name ≠ Libc.ascii "video.bad")
variable (hkex : entries = before' ++ kex :: behind')
variable (hkexName : kex.name = Libc.ascii "init.kex")
variable (hkexFirst : ∀ e ∈ before', e.name ≠ Libc.ascii "init.kex")
variable (hsize : video.size < 2 ^ 32) (hfileSize : fileSize ≠ 0)
variable (hexe : KexLd.Elf.Executable input)
variable (hbelow : ∀ ph ∈ KexLd.Elf.loads input, ph.vaddr + ph.memsz ≤ 0x80000000)
variable (hlength : kex.size = (KexLd.link sha256 uninit input).length)
variable (hcontent : old.mem.Holds (Fs.contentPhys rd before') (KexLd.link sha256 uninit input))
variable (henough : bootFrames (map.setUp old) (Fs.contentPhys rd before')
  (Fs.contentPhys rd before) video.size ≤ map.available)

include hboot hstores harchive hinside hview hvideo hvideoName hvideoFirst hkex hkexName hkexFirst
  hsize hfileSize hexe hbelow hlength hcontent henough

/-- The video is mapped and the program loaded, from their places in the ramdisk. -/
theorem Handover.boots :
    m.startProgram view hhdmOffset (hhdmOffset + rd) videoName vidSize kexName fileSize
        allocPhys = some (m.mapVideo (Fs.contentPhys rd before) video.size allocPhys,
          Fs.contentPhys rd before') ∧
    (∃ n entryPoint, (Loader.run (Fs.contentPhys rd before')
      (m.mapVideo (Fs.contentPhys rd before) video.size allocPhys) n allocPhys).pc =
        .userMode entryPoint) ∧
    ∀ n entryPoint, (Loader.run (Fs.contentPhys rd before')
        (m.mapVideo (Fs.contentPhys rd before) video.size allocPhys) n allocPhys).pc =
          .userMode entryPoint →
      UserStart input old.mem rd (Fs.contentPhys rd before) video.size entryPoint
        (Loader.run (Fs.contentPhys rd before')
          (m.mapVideo (Fs.contentPhys rd before) video.size allocPhys) n allocPhys).machine := by
  have hsetUp : ∀ x, rd ≤ x → x < rd + len → (map.setUp old).mem x = old.mem x :=
    fun _ hlo hhi => hboot.ramdisk_eq hlo hhi
  obtain ⟨hvideoLo, hvideoHi⟩ := Fs.contentPhys_inside rd hvideo hinside
  obtain ⟨hkexLo, hkexHi⟩ := Fs.contentPhys_inside rd hkex hinside
  rw [hlength] at hkexHi
  have hready := hboot.physReady (by omega)
  have hkex' : (map.setUp old).mem.Holds (Fs.contentPhys rd before')
      (KexLd.link sha256 uninit input) := fun i hi => by
    rw [hsetUp _ (by omega) (by omega)]
    exact hcontent i hi
  rw [← hboot.freeBlocks_eq] at henough
  obtain ⟨hramdisk, hexists, hstart⟩ := hready.boot_userStart hboot.sound hstores hexe hbelow
    hkex' hkexLo hkexHi hvideoHi hsize hboot.below henough
  have harchive' : Fs.Archive m.mem rd entries := harchive.congr_at
    (by have := hboot.below; omega) fun i hi =>
      (hramdisk _ (by omega) (by omega)).trans (hsetUp _ (by omega) (by omega))
  refine ⟨startProgram_eq harchive' hinside hview hboot.hhdm hboot.below hvideo hvideoName
    hvideoFirst hkex hkexName hkexFirst hsize hfileSize allocPhys, hexists,
    fun n entryPoint hpc => ?_⟩
  obtain ⟨hentry, hstack, himage, hwindow⟩ := hstart n entryPoint hpc
  refine ⟨hentry, hstack, himage, fun i hi hlo => ?_⟩
  rw [hwindow i hi hlo, hsetUp _ hlo (by omega)]

/-- From what the bootloader hands over, a ramdisk with a video and a linked executable
boots to the executable, with the video in the window, if the memory map has as many
free frames as the boot takes. -/
theorem start_runs :
    ∃ mapped file, m.startProgram view hhdmOffset (hhdmOffset + rd) videoName vidSize kexName
        fileSize allocPhys = some (mapped, file) ∧
      (∃ n entryPoint, (Loader.run file mapped n allocPhys).pc = .userMode entryPoint) ∧
      ∀ n entryPoint, (Loader.run file mapped n allocPhys).pc = .userMode entryPoint →
        UserStart input old.mem rd (Fs.contentPhys rd before) video.size entryPoint
          (Loader.run file mapped n allocPhys).machine :=
  ⟨_, _, hboot.boots hstores harchive hinside hview hvideo hvideoName hvideoFirst hkex hkexName
    hkexFirst hsize hfileSize hexe hbelow hlength hcontent henough⟩

end Start

/-! ## A machine that boots -/

/-- 127 MiB of usable memory. -/
def smallMap : MemoryMap := [⟨0x100000, 0x7F00000, 0⟩]

theorem videoName_length :
    1 ≤ (Libc.ascii "video.bad").length ∧ (Libc.ascii "video.bad").length ≤ 99 := by
  decide

theorem videoName_noNul : 0 ∉ Libc.ascii "video.bad" := by decide

/-- A video of three bytes. -/
def videoFile : Fs.File :=
  .plain (Libc.ascii "video.bad") [0x42, 0x41, 0x44] videoName_length videoName_noNul (by decide)

def kexFile : Fs.File :=
  .plain (Libc.ascii "init.kex")
    (KexLd.link (fun _ => KexLd.tinyDigest) (fun _ _ => 0) KexLd.tinyElf)
    (by decide) (by decide) (by decide +kernel)

/-- The ramdisk behind the usable memory. -/
def smallMemory (rd : ℕ) (video : Fs.File) : Memory :=
  Memory.extend (fun _ => 0) rd (Fs.image [video, kexFile])

theorem smallMap_usable {b : ℕ} (husable : smallMap.Usable b) : 256 ≤ b ∧ b < 0x8000 := by
  obtain ⟨e, he, -, hcovers⟩ := husable
  obtain rfl := List.mem_singleton.mp he
  unfold LimineMemmapEntry.Covers blockSize at hcovers
  dsimp only at hcovers
  omega

theorem smallMap_available : 32511 ≤ smallMap.available := by
  have hphys : smallMap.bitmapPhys = 0x100000 := by decide
  have hsize : smallMap.bitmapSize = 4096 := by decide
  have hblocks : smallMap.memSize / 4096 = 32768 := by decide
  have hsubset : Finset.Ico 257 32768 ⊆ (Finset.range (smallMap.memSize / 4096)).filter
      fun b => smallMap.Usable b ∧ ¬ smallMap.Reserved b := by
    intro b hb
    rw [Finset.mem_Ico] at hb
    rw [Finset.mem_filter, Finset.mem_range, hblocks, Reserved, hphys, hsize]
    refine ⟨hb.2, ⟨_, List.mem_singleton_self _, rfl, ?_⟩, by omega⟩
    unfold LimineMemmapEntry.Covers blockSize
    dsimp only
    omega
  have hcard := Finset.card_le_card hsubset
  rwa [Nat.card_Ico] at hcard

/-- The machine with this ramdisk and an empty root table in frame 1. -/
def smallMachine (rd : ℕ) (video : Fs.File) : Machine where
  mem := smallMemory rd video
  cr3 := 0x1000
  pmm := ⟨fun _ => 0, 0, 0, 0⟩
  granted := []

theorem smallMap_holdsBitmap : smallMap.HoldsBitmap := by
  have hsize : smallMap.memSize / 4096 = 32768 := by decide
  have hphys : smallMap.bitmapPhys = 0x100000 := by decide
  refine ⟨⟨0x100000, 0x7F00000, 0⟩, by decide, by decide, by decide, by decide, ?_⟩
  intro b hb
  rw [wordPhys_natCast (by omega), hphys]
  dsimp only
  omega

theorem smallMap_handover (video : Fs.File) (hrd : 0x8000000 ≤ rd) (hend : rd + len ≤ 2 ^ 44) :
    smallMap.Handover 0xFFFF800000000000 (smallMachine rd video) rd len := by
  have hsize : smallMap.memSize = 0x8000000 := by decide
  have hroot : (smallMachine rd video).root = 1 := (by decide : frameOf 0x1000 = 1)
  have habsent : ∀ i ∈ ({288} : Set (Fin 512)), isPresent (tables (smallMachine rd video).mem
      (smallMachine rd video).root i) = false := by
    rintro i rfl
    have hzero : tables (smallMemory rd video) 1 288 = tables (fun _ => 0) 1 288 :=
      Machine.tables_of_outside (fun x hx => Memory.extend_below (by omega)) 288
    have hempty : isPresent (tables (fun _ => 0) 1 288) = false := by decide
    rw [← hzero] at hempty
    rw [hroot]
    exact hempty
  refine ⟨by constructor <;> decide, by decide, smallMap_holdsBitmap, Or.inl (by rw [hsize]),
    fun b hb htail => ?_, rfl, treeOn_of_absent habsent, fun q hq f hf => ?_, fun b hb => ?_, hend⟩
  · rw [hsize] at hb htail
    omega
  · obtain ⟨-, rfl⟩ := node_of_absent habsent hq hf
    rw [hroot]
    refine ⟨fun husable => ?_, Or.inl (by omega)⟩
    have := smallMap_usable husable
    omega
  · have := smallMap_usable hb
    exact Or.inl (by omega)

/-- The two names, and the direct map of a machine. -/
def smallView (m : Machine) : Memory := fun x =>
  if x < 0x10000 then
    Memory.extend (Memory.extend (fun _ => 0) 0x1000 (Libc.ascii "video.bad")) 0x2000
      (Libc.ascii "init.kex") x
  else m.mem (x - 0xFFFF800000000000)

theorem smallView_kernelView (m : Machine) (rd len : ℕ) :
    Fs.KernelView (smallView m) m.mem 0xFFFF800000000000 rd len 0x1000 0x3000 0x2000 := by
  have hvideo : (Memory.extend (Memory.extend (fun _ => 0) 0x1000 (Libc.ascii "video.bad")) 0x2000
      (Libc.ascii "init.kex")).IsString 0x1000 (Libc.ascii "video.bad") := by decide
  have hkex : (Memory.extend (Memory.extend (fun _ => 0) 0x1000 (Libc.ascii "video.bad")) 0x2000
      (Libc.ascii "init.kex")).IsString 0x2000 (Libc.ascii "init.kex") := by decide
  have hlength : (Libc.ascii "video.bad").length = 9 ∧ (Libc.ascii "init.kex").length = 8 := by
    decide
  refine ⟨fun x _ _ => ?_, ⟨hvideo.congr_at fun i hi => if_pos (by omega), by decide⟩,
    ⟨hkex.congr_at fun i hi => if_pos (by omega), by decide⟩, by decide, Or.inl (by omega),
    Or.inr (by decide)⟩
  rw [smallView, if_neg (by omega), Nat.add_sub_cancel_left]

theorem kexFile_content : kexFile.content =
    KexLd.link (fun _ => KexLd.tinyDigest) (fun _ _ => 0) KexLd.tinyElf := rfl

theorem kexFile_pagesFrom {file : ℕ} (hheld : mem.Holds file kexFile.content)
    (hend : file + kexFile.content.length ≤ 2 ^ 64) : Loader.pagesFrom mem file 0 = 3 := by
  rw [kexFile_content] at hheld hend
  rw [KexLd.link_pagesFrom KexLd.tinyElf_executable hheld hend]
  decide

/-- The frames for a boot with a small video are free. -/
theorem smallMemory_bootFrames (hrd : 0x8000000 ≤ rd) (vidPhys : ℕ) {file : ℕ} {video : Fs.File}
    (hsmall : video.content.length ≤ 4096) (hlo : rd ≤ file)
    (hheld : (smallMemory rd video).Holds file kexFile.content)
    (hend : file + kexFile.content.length ≤ rd + len) (hbelow : rd + len ≤ 2 ^ 44) :
    bootFrames (smallMap.setUp (smallMachine rd video)) file vidPhys video.content.length ≤
      smallMap.available := by
  have hboot := smallMap_handover video hrd hbelow
  have hheld' : (smallMap.setUp (smallMachine rd video)).mem.Holds file kexFile.content :=
    fun i hi => (hboot.ramdisk_eq (by omega) (by omega)).trans (hheld i hi)
  have hbound := bootFrames_le (smallMap.setUp (smallMachine rd video)) file vidPhys
    video.content.length
  have hpages : bootPages (smallMap.setUp (smallMachine rd video)).mem file =
      heapPages + (3 + 1) := by
    rw [bootPages, kexFile_pagesFrom hheld' (by omega)]
  have hwindow : pagesNeeded vidPhys video.content.length ≤ 2 := by
    unfold pagesNeeded
    omega
  have hroom := smallMap_available
  rw [hpages] at hbound
  unfold heapPages at hbound
  omega

/-- The machine comes to its program, with the first byte of the video in the window. -/
theorem smallMap_starts :
    ∃ (m mapped : Machine) (file n : ℕ), m.startProgram (smallView m) 0xFFFF800000000000
        (0xFFFF800000000000 + 0x8000000) 0x1000 0x3000 0x2000 8 allocPhys = some (mapped, file) ∧
      (Loader.run file mapped n allocPhys).pc = .userMode 0x400000 ∧
      (Loader.run file mapped n allocPhys).machine.readByte 0x80000200 = some 0x42 := by
  generalize hrd : 0x8000000 = rd
  have hlength := Fs.image_length [videoFile, kexFile]
  have hspan : (([videoFile, kexFile].map Fs.File.entry).map Fs.TarEntry.span).sum ≤ 2 ^ 20 := by
    decide +kernel
  have hend : rd + (Fs.image [videoFile, kexFile]).length ≤ 2 ^ 44 := by omega
  have hboot := smallMap_handover videoFile hrd.le hend
  have hheld : (smallMemory rd videoFile).Holds rd (Fs.image [videoFile, kexFile]) :=
    Memory.holds_extend _ _ _
  have hfirst : (smallMemory rd videoFile).Holds (Fs.contentPhys rd []) videoFile.content :=
    Fs.content_of_holds [] [kexFile] hheld
  have hcontent : (smallMemory rd videoFile).Holds (Fs.contentPhys rd [videoFile.entry])
      kexFile.content :=
    Fs.content_of_holds [videoFile] [] hheld
  generalize hbooted : ((smallMap.setUp (smallMachine rd videoFile)).vmmInitialize
    allocPhys).mapHeap allocPhys = booted
  have hstores : HeapStores (((smallMap.setUp (smallMachine rd videoFile)).vmmInitialize
      allocPhys).mapHeap allocPhys) booted := by
    rw [hbooted]
    exact ⟨rfl, rfl, rfl, fun _ _ => rfl⟩
  have hvideo : videoFile.entry.size < 2 ^ 32 := by decide
  have hbelow : ∀ ph ∈ KexLd.Elf.loads KexLd.tinyElf, ph.vaddr + ph.memsz ≤ 0x80000000 := by
    decide
  have harchive := Fs.archive_of_holds hheld (by omega)
  have hsum : (([videoFile, kexFile].map Fs.File.entry).map Fs.TarEntry.span).sum <
      (Fs.image [videoFile, kexFile]).length := by omega
  have hsecond : ∀ e ∈ [videoFile.entry], e.name ≠ Libc.ascii "init.kex" := by decide
  have hsplit' : [videoFile, kexFile].map Fs.File.entry =
      [videoFile.entry] ++ kexFile.entry :: [] := rfl
  obtain ⟨hplaceLo, hplaceHi⟩ := Fs.contentPhys_inside rd hsplit' hsum
  have hcontentSize : kexFile.entry.size = kexFile.content.length := by rw [Fs.File.entry]
  rw [hcontentSize] at hplaceHi
  have henough := smallMemory_bootFrames hrd.le (Fs.contentPhys rd []) (by decide) hplaceLo
    hcontent hplaceHi hend
  rw [kexFile_content] at hcontent
  have hsize : kexFile.entry.size =
      (KexLd.link (fun _ => KexLd.tinyDigest) (fun _ _ => 0) KexLd.tinyElf).length := by
    rw [← kexFile_content, hcontentSize]
  have hview := smallView_kernelView booted rd (Fs.image [videoFile, kexFile]).length
  have hsplit : [videoFile, kexFile].map Fs.File.entry = [] ++ videoFile.entry :: [kexFile.entry] :=
    rfl
  have hvideoName : videoFile.entry.name = Libc.ascii "video.bad" := rfl
  have hkexName : kexFile.entry.name = Libc.ascii "init.kex" := rfl
  obtain ⟨mapped, file, hstart, ⟨n, entryPoint, hpc⟩, huser⟩ := start_runs hboot hstores harchive
    hsum hview hsplit hvideoName (by simp) hsplit' hkexName hsecond hvideo (show 8 ≠ 0 by decide)
    KexLd.tinyElf_executable hbelow hsize hcontent henough
  refine ⟨_, mapped, file, n, hstart, ?_, ?_⟩
  · rw [hpc, (huser n entryPoint hpc).entry]
    decide
  · have hplace : Fs.contentPhys rd [] = rd + 512 := rfl
    have hsmall : videoFile.entry.size = 3 := rfl
    have hbyte := (huser n entryPoint hpc).video 512 (by omega) (by omega)
    have hphys : Fs.contentPhys rd [] - Fs.contentPhys rd [] % 4096 + 512 =
        Fs.contentPhys rd [] + 0 := by omega
    rw [hphys] at hbyte
    exact hbyte.trans (congrArg some (hfirst 0 (by decide)))

end MemoryMap

end BadOS.Kernel
