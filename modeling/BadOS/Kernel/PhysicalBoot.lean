import BadOS.Kernel.BootBudget
import BadOS.Kernel.PhysicalBitmap

/-! # The boot in physical memory

The boot of a machine whose bitmap is in its memory follows the boot of the same machine
with the bitmap kept apart: the same frames are taken, and the memories agree but for the
bitmap.
-/

namespace BadOS.Kernel

open Kex RadixTree

namespace Machine

variable {base old m m' phys phys' : Machine} {slots : Set (Fin 512)}
variable {lo len file size virt k : ℕ} {new : List (FrameRole × ℕ)} {frames : ℕ → Option ℕ}

/-! ## The clean root table -/

theorem Mirrors.setCr3 (h : Mirrors lo len m phys) (cr3 : ℕ) :
    Mirrors lo len { m with cr3 } { phys with cr3 } :=
  ⟨rfl, h.granted_eq, h.pmm_eq, h.bitmap, h.inside, h.outside⟩

theorem Mirrors.vmmInitialize (h : Mirrors lo len m phys)
    (hroot : Apart m.getActivePageDir lo len) (hnew : Apart (m.allocBlock .pml4).1 lo len) :
    Mirrors lo len m.vmmInitialize (phys.vmmInitialize allocPhys) := by
  obtain ⟨hframe, hmirrors⟩ := h.alloc .pml4
  have hold : phys.getActivePageDir = m.getActivePageDir := by
    unfold getActivePageDir
    rw [h.cr3_eq]
  unfold Machine.vmmInitialize
  dsimp only
  rw [hframe, hold]
  generalize (m.allocBlock .pml4).1 = table at hnew ⊢
  generalize (m.allocBlock .pml4).2 = before at hmirrors ⊢
  generalize (phys.allocPhys .pml4).2 = before' at hmirrors ⊢
  generalize m.getActivePageDir = oldTable at hroot ⊢
  have hcleared := Loop.times_related
    (fun _ mem mem' => Mirrors lo len (before.setMem mem) (before'.setMem mem'))
    (fun i mem => BadOS.Kernel.setEntry mem table i 0)
    (fun i mem => BadOS.Kernel.setEntry mem table i 0) 512 before.mem before'.mem hmirrors
    fun i hi mem mem' hmem => hmem.setEntry hnew hi 0
  have hcopied := Loop.times_related
    (fun _ mem mem' => Mirrors lo len (before.setMem mem) (before'.setMem mem'))
    (fun i mem => BadOS.Kernel.setEntry mem table (256 + i) (entry mem oldTable (256 + i)))
    (fun i mem => BadOS.Kernel.setEntry mem table (256 + i) (entry mem oldTable (256 + i)))
    256 _ _ hcleared fun i hi mem mem' hmem => by
      have hentry : entry mem' oldTable (256 + i) = entry mem oldTable (256 + i) :=
        hmem.entry_eq hroot (by omega)
      rw [hentry]
      exact hmem.setEntry hnew (by omega) _
  exact hcopied.setCr3 table

/-- The machine of `BootReady` guards the bitmap when its free frames and tables are apart
from it. -/
theorem BootReady.guards (hready : BootReady old lo len) (hnull : old.vmmInitialize.NeverNull) :
    Guards old.vmmInitialize bootSlots lo len :=
  ⟨hready.ready hnull, fun _ hallocs hnull => ⟨hready.fresh_of_allocs hallocs hnull,
    fun _ hgranted => (hready.freshLog hallocs hnull hgranted).2⟩⟩

theorem BootReady.vmmInitialize_tracks (hready : BootReady old lo len)
    (hmirrors : Mirrors lo len old phys)
    (hserved : EitherServed old.vmmInitialize (phys.vmmInitialize allocPhys)) :
    old.vmmInitialize.NeverNull ∧
      Tracks old.vmmInitialize bootSlots lo len old.vmmInitialize
        (phys.vmmInitialize allocPhys) := by
  have hnull : old.vmmInitialize.NeverNull :=
    ((hmirrors.alloc .pml4).2.neverNull (m := (old.allocBlock .pml4).2) hserved).1
  obtain ⟨i, -, -, hframe, -, hapart⟩ := hready.rootFrame hnull
  have hnew : Apart (old.allocBlock .pml4).1 lo len := by
    rw [← hframe] at hapart
    exact hapart
  have hroot : Apart old.getActivePageDir lo len := by
    rw [getActivePageDir, and_addrMask]
    exact hready.apart [] (by simp [paths]) _ rfl
  exact ⟨hnull, hmirrors.vmmInitialize hroot hnew, .refl rfl rfl, [],
    .refl (hready.ready hnull).tree⟩

/-! ## The loops that map pages -/

theorem mapHeap_granted (m : Machine) : m.granted <:+ (m.mapHeap allocPhys).granted :=
  Loop.times_invariant (fun _ m' => m.granted <:+ m'.granted) _ _ m (List.suffix_refl _)
    fun _ _ m' hm' => hm'.trans (mapNewPage_granted m' _ _ _)

theorem mapHeap_allocs (m : Machine) : Allocs m m.mapHeap :=
  Loop.times_invariant (fun _ m' => Allocs m m') _ _ m (.refl rfl rfl)
    fun _ _ m' hm' => hm'.trans (mapNewPage_allocs m' _ _ _)

theorem mapVideo_granted (m : Machine) (vidPhys vidSize : ℕ) :
    m.granted <:+ (m.mapVideo vidPhys vidSize allocPhys).granted :=
  Loop.times_invariant (fun _ m' => m.granted <:+ m'.granted) _ _ m (List.suffix_refl _)
    fun _ _ m' hm' => hm'.trans (vmmMapPage_granted m' _ _ _)

theorem Tracks.mapHeap (h : Tracks base bootSlots lo len m phys)
    (hguards : Guards base bootSlots lo len)
    (hserved : EitherServed m.mapHeap (phys.mapHeap allocPhys)) :
    Tracks base bootSlots lo len m.mapHeap (phys.mapHeap allocPhys) := by
  refine Loop.times_related (fun _ m phys => EitherServed m phys →
    Tracks base bootSlots lo len m phys) _ _ heapPages m phys (fun _ => h) ?_ hserved
  intro i hi m phys htracks hserved
  have hbefore := hserved.of_granted (mapNewPage_allocs m .heap (heapStart + 4096 * i) 3).granted
    (mapNewPage_granted phys .heap (heapStart + 4096 * i) 3)
  exact (htracks hbefore).mapNewPage hguards (slot_heapPage hi) .heap 3 hserved

theorem Tracks.mapVideo (h : Tracks base bootSlots lo len m phys)
    (hguards : Guards base bootSlots lo len) {vidPhys vidSize : ℕ} (hsize : vidSize < 2 ^ 32)
    (hserved : EitherServed (m.mapVideo vidPhys vidSize)
      (phys.mapVideo vidPhys vidSize allocPhys)) :
    Tracks base bootSlots lo len (m.mapVideo vidPhys vidSize)
      (phys.mapVideo vidPhys vidSize allocPhys) := by
  refine Loop.times_related (fun _ m phys => EitherServed m phys →
    Tracks base bootSlots lo len m phys) _ _ (pagesNeeded vidPhys vidSize) m phys (fun _ => h) ?_
    hserved
  intro i hi m phys htracks hserved
  have hbefore := hserved.of_granted (vmmMapPage_allocs m _ _ _).granted
    (vmmMapPage_granted phys _ _ _)
  exact (htracks hbefore).vmmMapPage hguards (slot_lower (videoPage_lower hsize hi)) _ _ hserved

/-- What the kernel keeps on its heap does not touch the bitmap. -/
theorem Tracks.heapStores (h : Tracks old.vmmInitialize bootSlots lo len m phys)
    (hguards : Guards old.vmmInitialize bootSlots lo len) (hready : BootReady old file size)
    (hbooted : Booted old file size new k m) (hnull : m.NeverNull)
    (hstores : HeapStores phys phys') :
    ∃ m', HeapStores m m' ∧ Tracks old.vmmInitialize bootSlots lo len m' phys' := by
  have hmirrors := h.mirrors
  have hallocates := hguards.allocates m h.allocs hnull
  have hheap : ∀ a, (.heap, a) ∈ m.granted → Apart a lo len := by
    intro a ha
    refine hallocates.apart _ hbooted.grown.granted (.heap, a) ?_
    rw [hbooted.grown.granted, vmmInitialize_granted, hready.granted] at ha
    simpa using ha
  let mem : Memory := fun x => if lo ≤ x ∧ x < lo + len then m.mem x else phys'.mem x
  have hkept : HeapStores m (m.setMem mem) := by
    refine ⟨rfl, rfl, rfl, fun x hx => ?_⟩
    change (if lo ≤ x ∧ x < lo + len then m.mem x else phys'.mem x) = m.mem x
    split
    next => rfl
    next hout =>
      rw [hstores.outside x fun a ha => hx a (hmirrors.granted_eq ▸ ha)]
      exact hmirrors.outside x (by omega)
  have hsame := hbooted.sameTables hready h.allocs hnull hkept
  refine ⟨m.setMem mem, hkept, ⟨hstores.cr3_eq.trans hmirrors.cr3_eq,
    hstores.granted_eq.trans hmirrors.granted_eq, ?_, hmirrors.bitmap, fun x hlo hhi => ?_,
    fun x hx => ?_⟩, h.allocs.trans (.refl rfl rfl), _, hbooted.grown.sameTables hsame rfl⟩
  · have hfields := hmirrors.pmm_eq
    unfold physPmm at hfields ⊢
    rw [hstores.pmm_eq]
    simp only [Pmm.mk.injEq, true_and] at hfields ⊢
    exact hfields
  · rw [hstores.outside x fun a ha hin => ?_]
    · exact hmirrors.inside x hlo hhi
    · have := hheap a (hmirrors.granted_eq ▸ ha)
      unfold Apart at this
      omega
  · exact (if_neg (by omega)).symm

/-! ## Filling segments -/

/-- A store loop over placed bytes stores the same bytes in both machines. -/
theorem Tracks.storeBytes (h : Tracks base slots lo len m phys)
    (hplaced : Placed base slots file size new frames m) (hready : Ready base slots lo len)
    (hnew : ∀ g ∈ new, Apart g.2 lo len) (hfile : file + size ≤ lo ∨ lo + len ≤ file)
    (byte : Memory → ℕ → UInt8) {count : ℕ}
    (hbyte : ∀ mem mem', SameFile mem mem' file size → ∀ k < count, byte mem' k = byte mem k)
    (hall : AllPlaced frames virt count) :
    ∃ m' phys', m.storeBytes virt byte count = some m' ∧
      phys.storeBytes virt byte count = some phys' ∧
      Tracks base slots lo len m' phys' ∧ Placed base slots file size new frames m' := by
  induction count with
  | zero => exact ⟨m, phys, rfl, rfl, h, hplaced⟩
  | succ count ih =>
      obtain ⟨m₁, phys₁, hstore, hstore', htracks, hplaced₁⟩ :=
        ih (fun mem mem' hsame k hk => hbyte mem mem' hsame k (by omega))
          fun k hk => hall k (by omega)
      obtain ⟨a, hframe⟩ := Option.isSome_iff_exists.mp (hall count (Nat.lt_succ_self count))
      have hmirrors := htracks.mirrors
      have htables : ∀ q ∈ paths slots, ∀ f, m₁.node q = some f → Apart (4096 * f) lo len := by
        intro q hq f hf
        rcases hplaced₁.grown.node q hq f hf with hold | ⟨role, -, hgrant⟩
        · exact hready.apart q hq f hold
        · exact hnew _ hgrant
      have hslot : slot (virt + count) 39 ∈ slots := by
        rw [slot_page]
        exact hplaced₁.inSlots _ a hframe
      have htranslate := hplaced₁.translate hframe
      have htranslate' := ((hmirrors.sameTables htables).translate_eq hplaced₁.grown.tree
        hslot).trans htranslate
      have hnowrap : (virt + count) % 2 ^ 64 = virt + count :=
        Nat.mod_eq_of_lt (hplaced₁.lt_addressSpace hframe)
      have hsame : byte phys₁.mem count = byte m₁.mem count :=
        hbyte _ _ (fun x hlo hhi => hmirrors.outside x (by omega)) count (Nat.lt_succ_self count)
      obtain ⟨role, -, hgrant⟩ := hplaced₁.role _ a hframe
      have hapart : Apart a lo len := hnew _ hgrant
      have hoffset : (virt + count) % 4096 < 4096 := Nat.mod_lt _ (by decide)
      rw [Machine.storeBytes, hstore, Option.bind_some, writeByte, hnowrap, htranslate,
        Machine.storeBytes, hstore', Option.bind_some, writeByte, hnowrap, htranslate']
      refine ⟨_, _, rfl, rfl, ?_⟩
      have hplaced₂ : Placed base slots file size new frames (m₁.setMem
          (Function.update m₁.mem (a + (virt + count) % 4096) (byte m₁.mem count))) :=
        hplaced₁.setMem fun x hx => Function.update_of_ne (hx _ a hframe _ hoffset) _ _
      refine ⟨⟨?_, htracks.allocs.trans (.refl rfl rfl), _, hplaced₂.grown⟩, hplaced₂⟩
      rw [hsame]
      unfold Apart at hapart
      refine hmirrors.setMem (fun x hlo hhi => Function.update_of_ne (by omega) _ _)
        fun x hx => ?_
      rw [Function.update_apply, Function.update_apply, hmirrors.outside x hx]

/-- A segment is filled with the same bytes in both machines. -/
theorem Tracks.fillSegment (h : Tracks base slots lo len m phys)
    (hplaced : Placed base slots file size new frames m) (hready : Ready base slots lo len)
    (hnew : ∀ g ∈ new, Apart g.2 lo len) (hfile : file + size ≤ lo ∨ lo + len ≤ file)
    {cmd : ℕ} {seg : SegmentCmd}
    (hseg : ∀ mem, SameFile base.mem mem file size → segmentCmd mem cmd = seg)
    (hall : AllPlaced frames seg.rva seg.memSize) (hfits : seg.fileSize ≤ seg.memSize)
    (hinside : seg.fileOffset + seg.fileSize ≤ size) (hmemory : file + size ≤ 2 ^ 64) :
    ∃ m' phys', m.fillSegment file cmd = some m' ∧ phys.fillSegment file cmd = some phys' ∧
      Tracks base slots lo len m' phys' := by
  have hsame : ∀ {m phys : Machine}, Tracks base slots lo len m phys →
      Placed base slots file size new frames m → SameFile base.mem phys.mem file size :=
    fun htracks hplaced x hlo hhi =>
      (htracks.mirrors.outside x (by omega)).trans (hplaced.file_eq x hlo hhi)
  obtain ⟨m₁, phys₁, hstore, hstore', htracks, hplaced₁⟩ := h.storeBytes hplaced hready hnew hfile
    (fun _ _ => UInt8.ofNat (CInt.toU8 0)) (fun _ _ _ _ _ => rfl) hall
  have hmemset : m.memset seg.rva 0 seg.memSize = some m₁ := hstore
  have hmemset' : phys.memset seg.rva 0 seg.memSize = some phys₁ := hstore'
  unfold Machine.fillSegment
  dsimp only
  rw [hseg _ hplaced.file_eq, hseg _ (hsame h hplaced), hmemset, hmemset', Option.bind_some,
    Option.bind_some, hseg _ hplaced₁.file_eq, hseg _ (hsame htracks hplaced₁)]
  by_cases hsize : 0 < seg.fileSize
  · rw [if_pos hsize, if_pos hsize]
    have hpointer : pointer file seg.fileOffset = file + seg.fileOffset :=
      Nat.mod_eq_of_lt (by omega)
    have hwithin : ∀ k < seg.fileSize, (frames ((seg.rva + k) / 4096)).isSome :=
      fun k hk => hall k (by omega)
    obtain ⟨m₂, phys₂, hcopy, hcopy', htracks₂, -⟩ := htracks.storeBytes hplaced₁ hready hnew hfile
      (fun mem k => mem (pointer file seg.fileOffset + k))
      (fun mem mem' hmem k hk => hmem _ (by omega) (by omega)) hwithin
    exact ⟨m₂, phys₂, hcopy, hcopy', htracks₂⟩
  · rw [if_neg hsize, if_neg hsize]
    exact ⟨m₁, phys₁, rfl, rfl, htracks⟩

end Machine

namespace Loader

open Machine

variable {base phys : Machine} {slots : Set (Fin 512)} {lo len file size n : ℕ} {s t : Loader}
variable {new : List (FrameRole × ℕ)} {frames : ℕ → Option ℕ}

/-! ## The loader -/

/-- The same point of the source and local variables on another machine. -/
def on (s : Loader) (m : Machine) : Loader := { s with machine := m }

@[simp] theorem on_machine (s : Loader) (m : Machine) : (s.on m).machine = m := rfl

/-- `t` is `s` on a machine that mirrors the machine of `s`. -/
def Follows (base : Machine) (slots : Set (Fin 512)) (lo len : ℕ) (s t : Loader) : Prop :=
  ∃ phys, t = s.on phys ∧ Tracks base slots lo len s.machine phys

theorem step_granted (file : ℕ) (s : Loader) :
    s.machine.granted <:+ (stepWith allocPhys file s).machine.granted := by
  unfold stepWith
  cases hpc : s.pc <;> dsimp only
  case start => split <;> exact List.suffix_refl _
  case commands =>
    split
    · split <;> exact List.suffix_refl _
    · exact mapNewPage_granted _ _ _ _
  case pages =>
    split
    · exact mapNewPage_granted _ _ _ _
    · exact List.suffix_refl _
  case fill =>
    cases hfill : s.machine.fillSegment file (s.cmd file) with
    | none => exact List.suffix_refl _
    | some m => exact (fillSegment_allocs hfill).granted
  all_goals exact List.suffix_refl _

section Steps

variable (hguards : Guards base slots lo len) (hfile : Loadable base.mem slots file size)
variable (hapart : file + size ≤ lo ∨ lo + len ≤ file)
variable (htracks : Tracks base slots lo len s.machine phys)
variable (hplaced : Placed base slots file size new frames s.machine)

include hapart in
theorem sameFile_of_tracks {m : Machine} (htracks : Tracks base slots lo len m phys) :
    SameFile m.mem phys.mem file size :=
  fun x hlo hhi => htracks.mirrors.outside x (by omega)

include hfile hapart htracks in
theorem follows_start (hpc : s.pc = .start) :
    Follows base slots lo len (step file s) (stepWith allocPhys file (s.on phys)) := by
  have hsame := sameFile_of_tracks hapart htracks
  have hmagic := hsame.validMagic_eq hfile.header
  have hoffset := hsame.cmdOffset_eq hfile.header
  unfold step stepWith on
  dsimp only
  rw [hpc]
  dsimp only
  rw [hmagic, hoffset]
  split
  · exact ⟨phys, rfl, htracks⟩
  · exact ⟨phys, rfl, htracks⟩

/-- The next command is read from the same bytes. -/
theorem on_nextCommand {m : Machine} (hfile : Loadable base.mem slots file size)
    (hsame : SameFile m.mem phys.mem file size) (hi : s.i < commandCount base.mem file)
    (hoffset : s.currentOffset = commandOffset base.mem file s.i) :
    (s.on phys).nextCommand file = ((s.on m).nextCommand file).on phys := by
  have hat := hfile.commandAt_eq hi
  have hcommand := hfile.command s.i hi
  unfold commandAt at hat
  have hnext : nextOffset phys.mem file s.currentOffset =
      nextOffset m.mem file s.currentOffset := by
    unfold nextOffset headSize
    rw [hoffset, hat, hsame.load_eq (by omega) (by omega)]
  unfold nextCommand on
  dsimp only
  rw [hnext]

include hguards hfile hapart htracks hplaced

theorem follows_commands (hwalked : Walked base file size frames s) (hpc : s.pc = .commands)
    (hserved : EitherServed (step file s).machine
      (stepWith allocPhys file (s.on phys)).machine) :
    Follows base slots lo len (step file s) (stepWith allocPhys file (s.on phys)) := by
  have hsame := sameFile_of_tracks hapart htracks
  have hcount := hplaced.file_eq.commandCount_eq hfile.header
  have hcount' : commandCount (s.on phys).machine.mem file = commandCount s.machine.mem file :=
    hsame.commandCount_eq hfile.header
  by_cases hi : s.i < commandCount s.machine.mem file
  · have hbase : s.i < commandCount base.mem file := hcount ▸ hi
    have htype : headType phys.mem (s.cmd file) = headType s.machine.mem (s.cmd file) := by
      have hat := hfile.commandAt_eq hbase
      have hinside := hfile.command s.i hbase
      unfold commandAt at hat
      unfold headType cmd
      rw [hwalked.offset_eq, hat]
      exact hsame.load_eq (by omega) (by omega)
    by_cases hsegment : headType s.machine.mem (s.cmd file) = cmdSegment
    · rw [step_segment hpc hi hsegment, stepWith_segment (s := s.on phys) hpc (hcount' ▸ hi)
        (htype.trans hsegment)]
      exact ⟨phys, rfl, htracks⟩
    · rw [step_otherCommand hpc hi hsegment, stepWith_otherCommand (s := s.on phys) hpc
        (hcount' ▸ hi) (fun h => hsegment (htype.symm.trans h))]
      exact ⟨phys, on_nextCommand hfile hsame hbase hwalked.offset_eq, htracks⟩
  · have hi' : ¬ (s.on phys).i < commandCount (s.on phys).machine.mem file := hcount' ▸ hi
    rw [step_lastCommand hpc hi, stepWith_lastCommand (s := s.on phys) hpc hi'] at hserved ⊢
    have hmapped := htracks.mapNewPage hguards hfile.stack .stack 0x7 hserved
    refine ⟨_, ?_, hmapped⟩
    unfold enterUserMode on
    dsimp only
    rw [(sameFile_of_tracks hapart hmapped).entryRva_eq hfile.header]

theorem follows_pages (hin : InSegment base file size frames s) (hpc : s.pc = .pages)
    (hserved : EitherServed (step file s).machine
      (stepWith allocPhys file (s.on phys)).machine) :
    Follows base slots lo len (step file s) (stepWith allocPhys file (s.on phys)) := by
  have hsame := sameFile_of_tracks hapart htracks
  have hphys : SameFile base.mem phys.mem file size :=
    fun x hlo hhi => (hsame x hlo hhi).trans (hplaced.file_eq x hlo hhi)
  have hseg := hin.segmentCmd_eq hfile hplaced.file_eq
  have hseg' : segmentCmd (s.on phys).machine.mem ((s.on phys).cmd file) =
      segmentAt base.mem file s.i := hin.segmentCmd_eq hfile hphys
  by_cases hmore : s.offset < (segmentAt base.mem file s.i).memSize
  · rw [step_nextPage hpc (by rwa [hseg]), stepWith_nextPage (s := s.on phys) hpc
      (by rwa [hseg']), hseg, hseg'] at hserved ⊢
    have hslot : slot (((segmentAt base.mem file s.i).rva + s.offset) % 2 ^ 64) 39 ∈ slots := by
      have hhere := hfile.canonical s.i hin.i_lt hin.isSegment s.offset hmore
      unfold Canonical at hhere
      rw [Nat.mod_eq_of_lt (by omega)]
      exact hfile.inSlots s.i hin.i_lt hin.isSegment s.offset hmore
    exact ⟨_, rfl, htracks.mapNewPage hguards hslot .segment 0x7 hserved⟩
  · rw [step_pagesEnd hpc (by rwa [hseg]), stepWith_pagesEnd (s := s.on phys) hpc
      (by rwa [hseg'])]
    exact ⟨phys, rfl, htracks⟩

theorem follows_fill (hnew : ∀ g ∈ new, Apart g.2 lo len)
    (hin : InSegment base file size frames s)
    (hall : AllPlaced frames (segmentAt base.mem file s.i).rva
      (segmentAt base.mem file s.i).memSize)
    (hinside : (segmentAt base.mem file s.i).fileOffset + (segmentAt base.mem file s.i).fileSize ≤
      size) (hpc : s.pc = .fill) :
    Follows base slots lo len (step file s) (stepWith allocPhys file (s.on phys)) := by
  obtain ⟨m', phys', hfill, hfill', htracks'⟩ := htracks.fillSegment hplaced hguards.ready hnew
    hapart (fun mem hmem => hin.segmentCmd_eq hfile hmem) hall
    (hfile.fits s.i hin.i_lt hin.isSegment) hinside hfile.inMemory
  rw [step_filled hpc hfill, stepWith_filled (s := s.on phys) hpc hfill']
  exact ⟨phys', on_nextCommand hfile (sameFile_of_tracks hapart htracks') hin.i_lt hin.offset_eq,
    htracks'⟩

end Steps

theorem stepWith_of_halted (alloc : Allocator) (hhalted : Halted s) :
    stepWith alloc file s = s := by
  unfold Halted at hhalted
  unfold stepWith
  cases hpc : s.pc <;> simp only [hpc] at hhalted ⊢

/-- A step keeps the two loaders together, as long as one of the machines is served. -/
theorem step_follows (hguards : Guards base slots lo len)
    (hfile : Loadable base.mem slots file size)
    (hinside : ∀ i < commandCount base.mem file, IsSegment base.mem file i →
      (segmentAt base.mem file i).fileOffset + (segmentAt base.mem file i).fileSize ≤ size)
    (hapart : file + size ≤ lo ∨ lo + len ≤ file) (hinv : Inv base slots file size s)
    (htracks : Tracks base slots lo len s.machine phys)
    (hserved : EitherServed (step file s).machine
      (stepWith allocPhys file (s.on phys)).machine) :
    Follows base slots lo len (step file s) (stepWith allocPhys file (s.on phys)) := by
  by_cases hhalted : Halted s
  · rw [step_of_halted hhalted, stepWith_of_halted allocPhys (s := s.on phys) hhalted]
    exact ⟨phys, rfl, htracks⟩
  · obtain ⟨new, frames, hplaced, -, hat⟩ := hinv
    have hbefore := hserved.of_granted (step_allocs file s).granted (step_granted file _)
    have hnull := (htracks.mirrors.neverNull hbefore).1
    have hnew := (hguards.allocates _ htracks.allocs hnull).apart _ hplaced.grown.granted
    unfold AtPc at hat
    unfold Halted at hhalted
    cases hpc : s.pc <;> rw [hpc] at hat hhalted <;> dsimp only at hat hhalted
    case start => exact follows_start hfile hapart htracks hpc
    case commands => exact follows_commands hguards hfile hapart htracks hplaced hat hpc hserved
    case pages => exact follows_pages hguards hfile hapart htracks hplaced hat.1 hpc hserved
    case fill =>
      obtain ⟨hin, hall⟩ := hat
      exact follows_fill hguards hfile hapart htracks hplaced hnew hin hall
        (hinside s.i hin.i_lt hin.isSegment) hpc
    all_goals exact absurd trivial hhalted

theorem run_granted (file : ℕ) (m : Machine) (n : ℕ) :
    m.granted <:+ (run file m n allocPhys).machine.granted := by
  induction n with
  | zero => exact List.suffix_refl _
  | succ n ih =>
      have hsucc : run file m (n + 1) allocPhys =
          stepWith allocPhys file (run file m n allocPhys) := Function.iterate_succ_apply' _ _ _
      rw [hsucc]
      exact ih.trans (step_granted file _)

/-- The loader makes the same steps on both machines, as long as one of them is served. -/
theorem run_follows (hguards : Guards base slots lo len)
    (hallocates : Guards base slots file size) (hfile : Loadable base.mem slots file size)
    (hinside : ∀ i < commandCount base.mem file, IsSegment base.mem file i →
      (segmentAt base.mem file i).fileOffset + (segmentAt base.mem file i).fileSize ≤ size)
    (hapart : file + size ≤ lo ∨ lo + len ≤ file)
    (htracks : Tracks base slots lo len base phys) (n : ℕ)
    (hserved : EitherServed (run file base n).machine (run file phys n allocPhys).machine) :
    Inv base slots file size (run file base n) ∧
      Follows base slots lo len (run file base n) (run file phys n allocPhys) := by
  induction n with
  | zero =>
      exact ⟨⟨[], _, hallocates.ready.placed, fun _ _ h => (nomatch h), trivial⟩,
        phys, rfl, htracks⟩
  | succ n ih =>
      have hsucc : run file phys (n + 1) allocPhys =
          stepWith allocPhys file (run file phys n allocPhys) := Function.iterate_succ_apply' _ _ _
      rw [hsucc, run_succ] at hserved ⊢
      obtain ⟨hinv, phys', hphys', htracks'⟩ := ih (hserved.of_granted
        (step_allocs file _).granted (step_granted file _))
      rw [hphys'] at hserved ⊢
      generalize run file base n = s at hinv htracks' hserved ⊢
      have hfollows := step_follows hguards hfile hinside hapart hinv htracks' hserved
      refine ⟨step_inv hallocates.ready hfile hinv ?_, hfollows⟩
      obtain ⟨phys'', hstep, htracks''⟩ := hfollows
      rw [hstep] at hserved
      exact hallocates.allocates _ htracks''.allocs (htracks''.mirrors.neverNull hserved).1

end Loader

namespace Machine

variable {old m m' : Machine} {lo len file size vidPhys vidSize : ℕ}

/-! ## The boot -/

/-- The machine of `BootReady` with its bitmap in its memory, and with neither free frames
nor tables nor the file where the bitmap is. -/
structure PhysReady (m : Machine) (file size lo len : ℕ) : Prop where
  ready : BootReady m file size
  clear : BootReady m lo len
  physPmm : m.physPmm = m.pmm
  bitmapIn : m.pmm.BitmapIn lo len
  apart : file + size ≤ lo ∨ lo + len ≤ file

/-- Up to the heap the two machines go together. -/
theorem PhysReady.mapHeap (hready : PhysReady old file size lo len)
    (hserved : EitherServed old.vmmInitialize.mapHeap
      ((old.vmmInitialize allocPhys).mapHeap allocPhys)) :
    Guards old.vmmInitialize bootSlots lo len ∧
      Tracks old.vmmInitialize bootSlots lo len old.vmmInitialize.mapHeap
        ((old.vmmInitialize allocPhys).mapHeap allocPhys) := by
  have hmirrors := Mirrors.refl hready.physPmm hready.bitmapIn
  obtain ⟨hnull, htracks⟩ := hready.clear.vmmInitialize_tracks hmirrors
    (hserved.of_granted (mapHeap_allocs _).granted (mapHeap_granted _))
  have hguards := hready.clear.guards hnull
  exact ⟨hguards, htracks.mapHeap hguards hserved⟩

/-- Whatever is on the heap of the one machine can be on the heap of the other; from there
the rest of the boot goes together. -/
theorem PhysReady.boot_follows (hready : PhysReady old file size lo len)
    (hfile : Loadable old.mem lowerSlots file size)
    (hinside : ∀ i < commandCount old.mem file, IsSegment old.mem file i →
      (segmentAt old.mem file i).fileOffset + (segmentAt old.mem file i).fileSize ≤ size)
    (hstores : HeapStores ((old.vmmInitialize allocPhys).mapHeap allocPhys) m)
    (hsize : vidSize < 2 ^ 32)
    (hserved : EitherServed old.vmmInitialize.mapHeap
      ((old.vmmInitialize allocPhys).mapHeap allocPhys)) :
    ∃ m', HeapStores old.vmmInitialize.mapHeap m' ∧ Mirrors lo len m' m ∧ ∀ n,
      EitherServed (Loader.run file (m'.mapVideo vidPhys vidSize) n).machine
        (Loader.run file (m.mapVideo vidPhys vidSize allocPhys) n allocPhys).machine →
      Guards (m'.mapVideo vidPhys vidSize) bootSlots lo len ∧
        Loader.Follows (m'.mapVideo vidPhys vidSize) bootSlots lo len
          (Loader.run file (m'.mapVideo vidPhys vidSize) n)
          (Loader.run file (m.mapVideo vidPhys vidSize allocPhys) n allocPhys) := by
  obtain ⟨hguards, htracks⟩ := hready.mapHeap hserved
  have hnull := (htracks.mirrors.neverNull hserved).1
  obtain ⟨hallocs, new, hbooted⟩ := hready.ready.mapHeap hnull
  obtain ⟨m', hstores', htracks'⟩ := htracks.heapStores hguards hready.ready hbooted hnull hstores
  refine ⟨m', hstores', htracks'.mirrors, fun n hserved => ?_⟩
  have hbooted' := hbooted.heapStores hready.ready hallocs hnull (le_refl _) hstores'
  have hrunAllocs := Loader.run_allocs file (m'.mapVideo vidPhys vidSize) (Nat.zero_le n)
  have hrunGranted : (m.mapVideo vidPhys vidSize allocPhys).granted <:+
      (Loader.run file (m.mapVideo vidPhys vidSize allocPhys) n allocPhys).machine.granted :=
    Loader.run_granted file _ n
  have hservedVideo := hserved.of_granted hrunAllocs.granted hrunGranted
  have hvideo := htracks'.mapVideo hguards hsize hservedVideo
  have hnullVideo := (hvideo.mirrors.neverNull hservedVideo).1
  obtain ⟨hbeforeAllocs, new', hbefore⟩ :=
    hbooted'.mapVideo hready.ready htracks'.allocs hsize hnullVideo
  generalize m'.mapVideo vidPhys vidSize = before at *
  have hguards' := hguards.later hbefore.grown hbeforeAllocs hnullVideo
  have hfileGuards : Guards before bootSlots file size :=
    ⟨hbefore.ready hready.ready hbeforeAllocs hnullVideo, fun _ hlater hnull =>
      hbefore.allocates hready.ready hbeforeAllocs hlater hnull⟩
  have hload := Loadable.mono lowerSlots_subset
    (Loadable.of_sameFile hbefore.file_eq hfile)
  have hstart : Tracks before bootSlots lo len before (m.mapVideo vidPhys vidSize allocPhys) :=
    ⟨hvideo.mirrors, .refl rfl rfl, [], .refl hbefore.grown.tree⟩
  refine ⟨hguards', (Loader.run_follows hguards' hfileGuards hload (fun i hi hsegment => ?_)
    hready.apart hstart n hserved).2⟩
  have hi' := hbefore.file_eq.commandCount_eq hfile.header ▸ hi
  have hsegment' := (hbefore.file_eq.isSegment_iff hfile.toCommandsInside hi').mp hsegment
  rw [hbefore.file_eq.segmentAt_eq hfile.toCommandsInside hi' hsegment']
  exact hinside i hi' hsegment'

/-- With the bitmap in physical memory, exactly with `bootFrames` free frames no allocation
of the boot fails; then it comes to user mode, and it has taken just these frames. -/
theorem boot_served_iff (hready : PhysReady old file size lo len) (hsound : old.pmm.Sound)
    (hfile : Loadable old.mem lowerSlots file size)
    (hinside : ∀ i < commandCount old.mem file, IsSegment old.mem file i →
      (segmentAt old.mem file i).fileOffset + (segmentAt old.mem file i).fileSize ≤ size)
    (hstores : HeapStores ((old.vmmInitialize allocPhys).mapHeap allocPhys) m)
    (hsize : vidSize < 2 ^ 32) (hmagic : validMagic old.mem file = true) :
    ((∀ n, (Loader.run file (m.mapVideo vidPhys vidSize allocPhys) n allocPhys).machine.NeverNull)
      ↔ bootFrames old file vidPhys vidSize ≤ old.pmm.freeBlocks) ∧
    ((∀ n, (Loader.run file (m.mapVideo vidPhys vidSize allocPhys) n allocPhys).machine.NeverNull) →
      ∃ n entryPoint,
        (Loader.run file (m.mapVideo vidPhys vidSize allocPhys) n allocPhys).pc =
          .userMode entryPoint ∧
        (Loader.run file (m.mapVideo vidPhys vidSize allocPhys) n
          allocPhys).machine.granted.length = bootFrames old file vidPhys vidSize) := by
  -- No allocation fails up to the heap, on the one machine or the other.
  have hgranted : ((old.vmmInitialize allocPhys).mapHeap allocPhys).granted <:+
      (Loader.run file (m.mapVideo vidPhys vidSize allocPhys) 0 allocPhys).machine.granted := by
    rw [← hstores.granted_eq]
    exact mapVideo_granted m vidPhys vidSize
  have hphys : (∀ n, (Loader.run file (m.mapVideo vidPhys vidSize allocPhys) n
      allocPhys).machine.NeverNull) → EitherServed old.vmmInitialize.mapHeap
        ((old.vmmInitialize allocPhys).mapHeap allocPhys) :=
    fun hnull => Or.inr fun g hg => hnull 0 g (hgranted.subset hg)
  have henough : bootFrames old file vidPhys vidSize ≤ old.pmm.freeBlocks →
      EitherServed old.vmmInitialize.mapHeap
        ((old.vmmInitialize allocPhys).mapHeap allocPhys) := by
    intro henough
    have hsame : HeapStores old.vmmInitialize.mapHeap old.vmmInitialize.mapHeap :=
      ⟨rfl, rfl, rfl, fun _ _ => rfl⟩
    have hnull := (boot_neverNull_iff hready.ready hsound hfile hsame hsize hmagic).1.mpr henough 0
    exact Or.inl (NeverNull.of_allocs (mapVideo_allocs _ vidPhys vidSize) hnull)
  constructor
  · constructor
    · intro hnull
      obtain ⟨m', hstores', -, hfollows⟩ := hready.boot_follows hfile hinside hstores hsize
        (hphys hnull)
      refine (boot_neverNull_iff hready.ready hsound hfile hstores' hsize hmagic).1.mp fun n => ?_
      obtain ⟨-, phys, hphys, htracks⟩ := hfollows n (Or.inr (hnull n))
      have hserved := hnull n
      rw [hphys] at hserved
      exact (htracks.mirrors.neverNull (Or.inr hserved)).1
    · intro hframes n
      obtain ⟨m', hstores', -, hfollows⟩ := hready.boot_follows hfile hinside hstores hsize
        (henough hframes)
      have hnull := (boot_neverNull_iff hready.ready hsound hfile hstores' hsize hmagic).1.mpr
        hframes n
      obtain ⟨-, phys, hphys, htracks⟩ := hfollows n (Or.inl hnull)
      rw [hphys]
      exact (htracks.mirrors.neverNull (Or.inl hnull)).2
  · intro hnull
    obtain ⟨m', hstores', -, hfollows⟩ := hready.boot_follows hfile hinside hstores hsize
      (hphys hnull)
    have hnull' : ∀ n, (Loader.run file (m'.mapVideo vidPhys vidSize) n).machine.NeverNull := by
      intro n
      obtain ⟨-, phys, hphys, htracks⟩ := hfollows n (Or.inr (hnull n))
      have hserved := hnull n
      rw [hphys] at hserved
      exact (htracks.mirrors.neverNull (Or.inr hserved)).1
    obtain ⟨n, entryPoint, hpc, hlength⟩ :=
      (boot_neverNull_iff hready.ready hsound hfile hstores' hsize hmagic).2 hnull'
    obtain ⟨-, phys, hphys, htracks⟩ := hfollows n (Or.inl (hnull' n))
    rw [← htracks.mirrors.granted_eq] at hlength
    refine ⟨n, entryPoint, ?_, ?_⟩ <;> rw [hphys]
    · exact hpc
    · exact hlength

theorem bootable_physReady : PhysReady bootable 0x10000 227 0x2000 0x1000 := by
  have hroot : bootable.root = 1 := by decide
  refine ⟨bootable_bootReady (le_refl _) (by decide), ?_, rfl, ⟨rfl, by decide, by decide,
    by decide⟩, Or.inr (by decide)⟩
  refine bootable_freeFrom.bootReady (by rw [hroot]; decide) (by decide) (by decide) rfl ?_
    (Or.inr (by decide))
  rw [hroot]
  exact Or.inl (by decide)

theorem bootable_inside : ∀ i < commandCount bootable.mem 0x10000,
    IsSegment bootable.mem 0x10000 i → (segmentAt bootable.mem 0x10000 i).fileOffset +
      (segmentAt bootable.mem 0x10000 i).fileSize ≤ 227 := by
  have hcount : commandCount bootable.mem 0x10000 = 3 := by decide
  have hall : ∀ i < 3, IsSegment bootable.mem 0x10000 i →
      (segmentAt bootable.mem 0x10000 i).fileOffset +
        (segmentAt bootable.mem 0x10000 i).fileSize ≤ 227 := by decide
  rw [hcount]
  exact hall

theorem bootable_served_iff :
    ((∀ n, (Loader.run 0x10000 (((bootable.vmmInitialize allocPhys).mapHeap allocPhys).mapVideo
        0x10000 227 allocPhys) n allocPhys).machine.NeverNull) ↔
      bootFrames bootable 0x10000 0x10000 227 ≤ 2 ^ 15 - 17) ∧
    bootFrames bootable 0x10000 0x10000 227 ≤ 2 ^ 15 - 17 := by
  have hstores : HeapStores ((bootable.vmmInitialize allocPhys).mapHeap allocPhys)
      ((bootable.vmmInitialize allocPhys).mapHeap allocPhys) := ⟨rfl, rfl, rfl, fun _ _ => rfl⟩
  rw [← bootable_freeBlocks]
  exact ⟨(boot_served_iff bootable_physReady bootable_freeFrom.sound bootable_loadable
    bootable_inside hstores (by decide) (by decide)).1, bootable_bootFrames (by decide)⟩

end Machine

end BadOS.Kernel
