import BadOS.Kernel.Ledger
import BadOS.Kernel.SegmentFrames

/-! # Stale bytes in user memory

The loader never reads or writes the frame it will map for the user stack, so
what the frame held before the load is there when user mode is entered.
-/

namespace BadOS.Kernel

open Kex

namespace Machine

/-- One byte of memory replaced. -/
def patch (m : Machine) (x : ℕ) (b : UInt8) : Machine := m.setMem (Function.update m.mem x b)

variable {base m m' : Machine} {slots : Set (Fin 512)} {new : List (FrameRole × ℕ)}
variable {frames : ℕ → Option ℕ} {file len x f k virt size : ℕ} {b : UInt8} {role : FrameRole}

/-! ## Operations that leave the byte alone -/

theorem entry_patch (hx : x / 4096 ≠ f) (hk : k < 512) :
    entry (m.patch x b).mem (4096 * f) k = entry m.mem (4096 * f) k :=
  Memory.load_update_of_outside (by omega)

theorem setEntry_patch {v : ℕ} (hx : x / 4096 ≠ f) (hk : k < 512) :
    setEntry (m.patch x b).mem (4096 * f) k v =
      Function.update (setEntry m.mem (4096 * f) k v) x b :=
  Memory.store_update_of_outside (by omega)

theorem memset_patch {a : ℕ} (ha : a % 4096 = 0) (hx : x / 4096 ≠ a / 4096) :
    Libc.memset (m.patch x b).mem a 0 4096 = Function.update (Libc.memset m.mem a 0 4096) x b := by
  rw [Libc.memset_eq_fill, Libc.memset_eq_fill]
  exact Memory.fill_update_of_outside (by omega)

/-- A table just allocated is the one its link leads to. -/
theorem ensureTable_child (habsent : entry m.mem (4096 * f) k &&& 1 = 0)
    (hframe : IsFrame m.pmm.pmmAllocBlock.1) :
    frameOf (entry (m.ensureTable role (4096 * f) k).mem (4096 * f) k) =
      m.pmm.pmmAllocBlock.1 / 4096 := by
  obtain ⟨n, hn, -, haddr⟩ := hframe.exists_eq
  have hentry : entry (m.ensureTable role (4096 * f) k).mem (4096 * f) k = 4096 * n ||| 0x7 := by
    rw [ensureTable_of_absent habsent, haddr, link_eq]
    exact Memory.load_store (by omega)
  rw [hentry, link_eq, frameOf, haddr]
  omega

/-- Ensuring a table commutes with a change outside the two tables. -/
theorem ensureTable_patch (hx : x / 4096 ≠ f) (hk : k < 512)
    (hfresh : m.EnsureFresh slots (4096 * f) k)
    (hchild : x / 4096 ≠ frameOf (entry (m.ensureTable role (4096 * f) k).mem (4096 * f) k)) :
    (m.patch x b).ensureTable role (4096 * f) k = (m.ensureTable role (4096 * f) k).patch x b := by
  have hentry : entry (m.patch x b).mem (4096 * f) k = entry m.mem (4096 * f) k :=
    entry_patch hx hk
  by_cases habsent : entry m.mem (4096 * f) k &&& 1 = 0
  · obtain ⟨hframe, -⟩ := hfresh habsent
    rw [ensureTable_child habsent hframe] at hchild
    rw [ensureTable_of_absent habsent, ensureTable_of_absent (by rwa [hentry])]
    have hcleared : Libc.memset (m.patch x b).mem m.pmm.pmmAllocBlock.1 0 4096 =
        Function.update (Libc.memset m.mem m.pmm.pmmAllocBlock.1 0 4096) x b :=
      memset_patch hframe.2.1 hchild
    have hlinked := setEntry_patch (m := m.setMem (Libc.memset m.mem m.pmm.pmmAllocBlock.1 0 4096))
      (b := b) (v := m.pmm.pmmAllocBlock.1 ||| 0x7) hx hk
    unfold patch setMem at hcleared hlinked ⊢
    dsimp only at hcleared hlinked ⊢
    rw [hcleared, hlinked]
  · rw [ensureTable_of_present habsent, ensureTable_of_present (by rwa [hentry])]

/-- Mapping a page commutes with a change outside the tables there are then. -/
theorem vmmMapPage_patch (phys flags : ℕ) (htree : m.TreeOn slots) (hslot : slot virt 39 ∈ slots)
    (hfresh : m.MapFresh slots virt)
    (hout : ∀ q ∈ paths slots, (m.vmmMapPage phys virt flags).node q ≠ some (x / 4096)) :
    (m.patch x b).vmmMapPage phys virt flags = (m.vmmMapPage phys virt flags).patch x b := by
  obtain ⟨hpath₁, hpath₂, hpath₃⟩ := mem_paths_of_slot hslot
  have hindex : ∀ shift, index virt shift < 512 := by
    intro shift
    rw [index_eq]
    exact Nat.mod_lt _ (by decide)
  have hslots : ∀ shift, ((slot virt shift : Fin 512) : ℕ) = index virt shift := fun _ => rfl
  have hcr3 : (m.patch x b).cr3 = m.cr3 := rfl
  have hnode : m.node [] = some (frameOf m.cr3) := rfl
  unfold MapFresh at hfresh
  unfold vmmMapPage at hout ⊢
  dsimp only [getActivePageDir] at hfresh hout ⊢
  simp only [and_addrMask] at hfresh hout ⊢
  rw [hcr3]
  obtain ⟨hfresh₁, hfresh₂, hfresh₃⟩ := hfresh
  obtain ⟨hextends₁, hnode₁⟩ :=
    ensureTable_extends .pdpt rfl htree (p := []) (i := slot virt 39) hpath₁ hnode hfresh₁
  rw [hslots] at hextends₁ hnode₁
  generalize hm₁ : m.ensureTable .pdpt (4096 * frameOf m.cr3) (index virt 39) = m₁ at *
  generalize hpdpt : frameOf (entry m₁.mem (4096 * frameOf m.cr3) (index virt 39)) = pdpt at *
  obtain ⟨hextends₂, hnode₂⟩ :=
    ensureTable_extends .pd rfl hextends₁.tree (i := slot virt 30) hpath₂ hnode₁ hfresh₂
  rw [hslots] at hextends₂ hnode₂
  generalize hm₂ : m₁.ensureTable .pd (4096 * pdpt) (index virt 30) = m₂ at *
  generalize hpd : frameOf (entry m₂.mem (4096 * pdpt) (index virt 30)) = pd at *
  obtain ⟨hextends₃, hnode₃⟩ :=
    ensureTable_extends .pt rfl hextends₂.tree (i := slot virt 21) hpath₃ hnode₂ hfresh₃
  rw [hslots] at hextends₃ hnode₃
  generalize hm₃ : m₂.ensureTable .pt (4096 * pd) (index virt 21) = m₃ at *
  generalize hpt : frameOf (entry m₃.mem (4096 * pd) (index virt 21)) = pt at *
  -- All tables involved are tables of `m₃`, none of which contains `x`.
  have hkept : ∀ q ∈ paths slots, ∀ g, m₃.node q = some g → x / 4096 ≠ g := by
    rintro q hq g hg rfl
    have hleaf := node_setLeaf (leafEntry_lt phys flags) hextends₃.tree hslot hnode₃ hq
    exact hout q hq (hleaf.trans hg)
  have hmono := (hextends₂.trans hextends₃).node_mono
  have hempty : [] ∈ paths slots := by simp [paths]
  have hroot := hkept [] hempty _
    ((hextends₁.trans (hextends₂.trans hextends₃)).node_mono [] hempty _ hnode)
  have hne₁ := hkept _ hpath₁ _ (hmono _ hpath₁ _ hnode₁)
  have hne₂ := hkept _ hpath₂ _ (hextends₃.node_mono _ hpath₂ _ hnode₂)
  have hne₃ := hkept _ hpath₃ _ hnode₃
  have hcommute₁ : (m.patch x b).ensureTable .pdpt (4096 * frameOf m.cr3) (index virt 39) =
      m₁.patch x b := by
    rw [← hm₁]
    exact ensureTable_patch hroot (hindex 39) hfresh₁ (by rwa [hm₁, hpdpt])
  have hcommute₂ : (m₁.patch x b).ensureTable .pd (4096 * pdpt) (index virt 30) =
      m₂.patch x b := by
    rw [← hm₂]
    exact ensureTable_patch hne₁ (hindex 30) hfresh₂ (by rwa [hm₂, hpd])
  have hcommute₃ : (m₂.patch x b).ensureTable .pt (4096 * pd) (index virt 21) = m₃.patch x b := by
    rw [← hm₃]
    exact ensureTable_patch hne₂ (hindex 21) hfresh₃ (by rwa [hm₃, hpt])
  rw [hcommute₁, entry_patch hroot (hindex 39), hpdpt, hcommute₂, entry_patch hne₁ (hindex 30),
    hpd, hcommute₃, entry_patch hne₂ (hindex 21), hpt, setEntry_patch hne₃ (hindex 12)]
  rfl

theorem mapNewPage_patch (hgrown : GrownFrom base slots new m) (role : FrameRole)
    (hslot : slot virt 39 ∈ slots) (flags : ℕ)
    (hlog : ∀ more, (m.mapNewPage role virt flags).granted = more ++ base.granted →
      FreshLog base slots more)
    (hout : ∀ q ∈ paths slots, (m.mapNewPage role virt flags).node q ≠ some (x / 4096)) :
    (m.patch x b).mapNewPage role virt flags = (m.mapNewPage role virt flags).patch x b := by
  have hnext := hgrown.allocBlock role
  generalize hphys : m.pmm.pmmAllocBlock.1 = a at hnext
  have hmap : m.mapNewPage role virt flags = (m.allocBlock role).2.vmmMapPage a virt flags := by
    rw [← hphys]
    rfl
  have hmap' : (m.patch x b).mapNewPage role virt flags =
      ((m.allocBlock role).2.patch x b).vmmMapPage a virt flags := by
    rw [← hphys]
    rfl
  rw [hmap] at hlog hout ⊢
  rw [hmap']
  obtain ⟨l, hl⟩ := (vmmMapPage_allocs (m.allocBlock role).2 a virt flags).granted
  rw [hnext.granted, ← List.append_assoc] at hl
  have hfresh := hnext.mapFresh hslot hl.symm (hlog _ hl.symm)
  exact vmmMapPage_patch _ flags hnext.tree hslot hfresh hout

/-- A frame that is in no table, no placed page and not in the file. -/
structure Spare (slots : Set (Fin 512)) (frames : ℕ → Option ℕ) (file len : ℕ) (m : Machine)
    (a : ℕ) : Prop where
  aligned : a % 4096 = 0
  node_ne : ∀ q ∈ paths slots, m.node q ≠ some (a / 4096)
  frame_ne : ∀ n c, frames n = some c → c ≠ a
  apart : Apart a file len

variable {a : ℕ}

/-- A frame granted later is spare. -/
theorem Placed.spare (hplaced : Placed base slots file len new frames m)
    (hlog : FreshLog base slots ((role, a) :: new)) (hapart : Apart a file len) :
    Spare slots frames file len m a := by
  obtain ⟨hframe, hunused⟩ := hplaced.grown.freshFrame hlog
  refine ⟨hframe.2.1, hunused, ?_, hapart⟩
  rintro n c hn rfl
  obtain ⟨role', -, hgrant⟩ := hplaced.role n c hn
  have hnodup := hlog.nodup
  rw [List.map_cons, List.nodup_cons] at hnodup
  exact hnodup.1 (List.mem_map.mpr ⟨_, hgrant, rfl⟩)

theorem patch_sameTables (hx : ∀ q ∈ paths slots, m.node q ≠ some (x / 4096)) :
    SameTables slots m (m.patch x b) := by
  refine ⟨rfl, fun y hy => Function.update_of_ne ?_ _ _⟩
  rintro rfl
  obtain ⟨q, hq, hnode⟩ := hy
  exact hx q hq hnode

/-- A store loop over placed bytes commutes with a change of a spare frame, if
the bytes stored do not depend on it. -/
theorem Placed.storeBytes_patch (hplaced : Placed base slots file len new frames m)
    (hlog : FreshLog base slots ((role, a) :: new)) (hapart : Apart a file len)
    (byte : Memory → ℕ → UInt8) (hall : AllPlaced frames virt size)
    (hbyte : ∀ (mem : Memory), ∀ k < size, byte (Function.update mem a b) k = byte mem k) :
    (m.patch a b).storeBytes virt byte size =
      (m.storeBytes virt byte size).map fun m => m.patch a b := by
  induction size with
  | zero => rfl
  | succ size ih =>
      have hbefore : AllPlaced frames virt size := fun k hk => hall k (by omega)
      obtain ⟨mem, hstore, hplaced', -⟩ := hplaced.storeBytes byte hbefore
      obtain ⟨c, hframe⟩ := Option.isSome_iff_exists.mp (hall size (Nat.lt_succ_self size))
      have hspare := hplaced'.spare hlog hapart
      have hnowrap : (virt + size) % 2 ^ 64 = virt + size :=
        Nat.mod_eq_of_lt (hplaced.lt_addressSpace hframe)
      have hslot : slot (virt + size) 39 ∈ slots := by
        rw [slot_page]
        exact hplaced.inSlots _ c hframe
      have hne : c + (virt + size) % 4096 ≠ a := by
        have haligned := (hplaced.isFrame hframe).2.1
        have haligned' := hspare.aligned
        have hother := hspare.frame_ne _ c hframe
        omega
      have htranslate := hplaced'.translate hframe
      have hpatched : ((m.setMem mem).patch a b).translate (virt + size) =
          some (c + (virt + size) % 4096) := by
        rw [(patch_sameTables hspare.node_ne).translate_eq hplaced'.grown.tree hslot, htranslate]
      rw [Machine.storeBytes, Machine.storeBytes, ih hbefore fun mem k hk => hbyte mem k (by omega),
        hstore, Option.map_some, Option.bind_some, Option.bind_some, writeByte, writeByte, hnowrap,
        hpatched, htranslate, Option.map_some, Option.map_some, Option.map_some]
      unfold patch Machine.setMem
      dsimp only
      rw [hbyte mem size (Nat.lt_succ_self size), Function.update_comm hne]

/-- The patch changes no byte of the file. -/
theorem sameFile_patch (mem : Memory) (haligned : a % 4096 = 0) (hapart : Apart a file len) :
    SameFile mem (Function.update mem a b) file len := by
  intro x hlo hhi
  apply Function.update_of_ne
  unfold Apart at hapart
  omega

theorem SameFile.trans {mem mem' mem'' : Memory} (h : SameFile mem mem' file len)
    (h' : SameFile mem' mem'' file len) : SameFile mem mem'' file len :=
  fun x hlo hhi => (h' x hlo hhi).trans (h x hlo hhi)

theorem Placed.fillSegment_patch (hplaced : Placed base slots file len new frames m)
    (hlog : FreshLog base slots ((role, a) :: new)) (hapart : Apart a file len) {cmd : ℕ}
    {seg : SegmentCmd} (hseg : ∀ mem, SameFile base.mem mem file len → segmentCmd mem cmd = seg)
    (hall : AllPlaced frames seg.rva seg.memSize) (hfits : seg.fileSize ≤ seg.memSize)
    (hinside : seg.fileOffset + seg.fileSize ≤ len) (hmemory : file + len ≤ 2 ^ 64) :
    (m.patch a b).fillSegment file cmd = (m.fillSegment file cmd).map fun m => m.patch a b := by
  have haligned := (hplaced.spare hlog hapart).aligned
  have hpatched : ∀ mem, SameFile base.mem mem file len →
      segmentCmd (Function.update mem a b) cmd = seg := fun mem hsame =>
    hseg _ (SameFile.trans hsame (sameFile_patch mem haligned hapart))
  obtain ⟨mem, hstore, hcleared, -⟩ :=
    hplaced.storeBytes (fun _ _ => UInt8.ofNat (CInt.toU8 0)) hall
  have hstore' := hplaced.storeBytes_patch (b := b) hlog hapart
    (fun _ _ => UInt8.ofNat (CInt.toU8 0)) hall fun _ _ _ => rfl
  have hmemset : m.memset seg.rva 0 seg.memSize = some (m.setMem mem) := hstore
  have hmemset' : (m.patch a b).memset seg.rva 0 seg.memSize =
      some ((m.setMem mem).patch a b) := by
    rw [hstore] at hstore'
    exact hstore'
  have hbefore := hseg m.mem hplaced.file_eq
  have hbefore' : segmentCmd (m.patch a b).mem cmd = seg := hpatched m.mem hplaced.file_eq
  have hafter : segmentCmd (m.setMem mem).mem cmd = seg := hseg _ hcleared.file_eq
  have hafter' : segmentCmd ((m.setMem mem).patch a b).mem cmd = seg :=
    hpatched mem hcleared.file_eq
  unfold Machine.fillSegment
  dsimp only
  rw [hbefore, hbefore', hmemset, hmemset', Option.bind_some, Option.bind_some, hafter, hafter']
  by_cases hsize : 0 < seg.fileSize
  · rw [if_pos hsize, if_pos hsize]
    apply hcleared.storeBytes_patch hlog hapart _ fun k hk => hall k (by omega)
    intro mem k hk
    have hpointer : pointer file seg.fileOffset = file + seg.fileOffset :=
      Nat.mod_eq_of_lt (by omega)
    apply Function.update_of_ne
    unfold Apart at hapart
    omega
  · rw [if_neg hsize, if_neg hsize]
    rfl

end Machine

namespace Loader

open Machine

variable {base m m' : Machine} {slots : Set (Fin 512)} {new : List (FrameRole × ℕ)}
variable {frames : ℕ → Option ℕ} {file len n a : ℕ} {b : UInt8} {role : FrameRole} {s : Loader}

/-- One byte of memory replaced. -/
def patch (s : Loader) (a : ℕ) (b : UInt8) : Loader := { s with machine := s.machine.patch a b }

/-- The next command is found alike in memories that agree on the file. -/
theorem nextCommand_patch (hsame : SameFile base.mem s.machine.mem file len)
    (hsame' : SameFile base.mem (s.patch a b).machine.mem file len)
    (hfile : Loadable base.mem slots file len)
    (hoffset : s.currentOffset = commandOffset base.mem file s.i)
    (hi : s.i < commandCount base.mem file) :
    (s.patch a b).nextCommand file = (s.nextCommand file).patch a b := by
  have hnext := hsame.nextOffset_eq hfile.toCommandsInside hi
  have hnext' := hsame'.nextOffset_eq hfile.toCommandsInside hi
  rw [← hoffset] at hnext hnext'
  unfold Loader.nextCommand
  rw [hnext, show (s.patch a b).currentOffset = s.currentOffset from rfl, hnext']
  rfl

theorem step_start_patch (hsame : SameFile base.mem s.machine.mem file len)
    (hsame' : SameFile base.mem (s.patch a b).machine.mem file len)
    (hfile : Loadable base.mem slots file len) (hpc : s.pc = .start) :
    step file (s.patch a b) = (step file s).patch a b := by
  have hpc' : (s.patch a b).pc = .start := hpc
  unfold step stepWith
  rw [hpc, hpc']
  dsimp only
  rw [hsame.validMagic_eq hfile.header, hsame'.validMagic_eq hfile.header,
    hsame.cmdOffset_eq hfile.header, hsame'.cmdOffset_eq hfile.header]
  split <;> rfl

theorem step_commands_patch (hready : Ready base slots file len)
    (hplaced : Placed base slots file len new frames s.machine)
    (hwalked : Walked base file len frames s) (hfile : Loadable base.mem slots file len)
    (hsame : SameFile base.mem (s.patch a b).machine.mem file len)
    (haligned : a % 4096 = 0) (hapart : Apart a file len)
    (halloc : Allocates base slots file len (step file s).machine) (hpc : s.pc = .commands)
    (hafter : ∀ q ∈ paths slots, (step file s).machine.node q ≠ some (a / 4096)) :
    step file (s.patch a b) = (step file s).patch a b := by
  have hcount := hplaced.file_eq.commandCount_eq hfile.header
  have hcount' := hsame.commandCount_eq hfile.header
  have hpc' : (s.patch a b).pc = .commands := hpc
  have hcmd : s.cmd file = commandAt base.mem file s.i := by
    rw [cmd, hwalked.offset_eq]
    rfl
  by_cases hi : s.i < commandCount base.mem file
  · have hi' : (s.patch a b).i < commandCount (s.patch a b).machine.mem file := by
      rw [hcount']
      exact hi
    have htype := hplaced.file_eq.headType_eq hfile.toCommandsInside hi
    have htype' := hsame.headType_eq hfile.toCommandsInside hi
    rw [← hcmd] at htype htype'
    rw [show s.cmd file = (s.patch a b).cmd file from rfl] at htype'
    by_cases hsegment : headType base.mem (s.cmd file) = cmdSegment
    · rw [step_segment hpc (by rwa [hcount]) (by rwa [htype]),
        step_segment hpc' hi' (htype'.trans hsegment)]
      rfl
    · rw [step_otherCommand hpc (by rwa [hcount]) (by rwa [htype]),
        step_otherCommand hpc' hi' (by rw [htype']; exact hsegment)]
      exact nextCommand_patch hplaced.file_eq hsame hfile hwalked.offset_eq hi
  · have hi' : ¬ (s.patch a b).i < commandCount (s.patch a b).machine.mem file := by
      rw [hcount']
      exact hi
    have hstep := step_lastCommand hpc
      (show ¬ s.i < commandCount s.machine.mem file by rwa [hcount])
    rw [hstep] at halloc hafter ⊢
    rw [step_lastCommand hpc' hi']
    obtain ⟨new', c, hplaced', -⟩ :=
      hplaced.mapNewPage hready .stack (n := stackNumber) (Or.inr rfl)
        (Or.inl (by decide)) hfile.stack halloc
    have hmap := mapNewPage_patch (b := b) hplaced.grown .stack hfile.stack 0x7
      halloc.fresh hafter
    have hentry : entryRva (s.machine.mapNewPage .stack stackPage 0x7).mem file =
        entryRva base.mem file := hplaced'.file_eq.entryRva_eq hfile.header
    have hentry' : entryRva ((s.machine.mapNewPage .stack stackPage 0x7).patch a b).mem file =
        entryRva base.mem file := (SameFile.trans hplaced'.file_eq
      (sameFile_patch (b := b) _ haligned hapart)).entryRva_eq hfile.header
    unfold enterUserMode
    dsimp only
    rw [show (s.patch a b).machine = s.machine.patch a b from rfl, hmap, hentry, hentry']
    rfl

theorem step_pages_patch (hplaced : Placed base slots file len new frames s.machine)
    (hin : InSegment base file len frames s) (hfile : Loadable base.mem slots file len)
    (hsame : SameFile base.mem (s.patch a b).machine.mem file len)
    (halloc : Allocates base slots file len (step file s).machine) (hpc : s.pc = .pages)
    (hafter : ∀ q ∈ paths slots, (step file s).machine.node q ≠ some (a / 4096)) :
    step file (s.patch a b) = (step file s).patch a b := by
  have hpc' : (s.patch a b).pc = .pages := hpc
  have hseg := hin.segmentCmd_eq hfile hplaced.file_eq
  have hseg' : segmentCmd (s.patch a b).machine.mem ((s.patch a b).cmd file) =
      segmentAt base.mem file s.i := hin.segmentCmd_eq hfile hsame
  have hcanonical := hfile.canonical s.i hin.i_lt hin.isSegment
  have hslots := hfile.inSlots s.i hin.i_lt hin.isSegment
  generalize segmentAt base.mem file s.i = seg at *
  by_cases hmore : s.offset < seg.memSize
  · have hhere := hcanonical s.offset hmore
    have haddr : (seg.rva + s.offset) % 2 ^ 64 = seg.rva + s.offset := by
      unfold Canonical at hhere
      exact Nat.mod_eq_of_lt (by omega)
    have hstep := step_nextPage hpc (show s.offset < _ by rw [hseg]; exact hmore)
    rw [hseg, mapSegmentPage, haddr] at hstep
    rw [hstep] at halloc hafter ⊢
    rw [step_nextPage hpc' (show s.offset < _ by rw [hseg']; exact hmore), hseg', mapSegmentPage,
      show (s.patch a b).offset = s.offset from rfl, haddr,
      show (s.patch a b).machine = s.machine.patch a b from rfl,
      mapNewPage_patch hplaced.grown .segment (hslots s.offset hmore) 0x7 halloc.fresh hafter]
    rfl
  · rw [step_pagesEnd hpc (by rwa [hseg]), step_pagesEnd hpc' (by rw [hseg']; exact hmore)]
    rfl

theorem step_fill_patch (hplaced : Placed base slots file len new frames s.machine)
    (hin : InSegment base file len frames s)
    (hall : AllPlaced frames (segmentAt base.mem file s.i).rva
      (segmentAt base.mem file s.i).memSize)
    (hfile : Loadable base.mem slots file len)
    (hinside : (segmentAt base.mem file s.i).fileOffset +
      (segmentAt base.mem file s.i).fileSize ≤ len)
    (hlog : FreshLog base slots ((role, a) :: new)) (hapart : Apart a file len)
    (hpc : s.pc = .fill) : step file (s.patch a b) = (step file s).patch a b := by
  have hpc' : (s.patch a b).pc = .fill := hpc
  have haligned := (hplaced.spare hlog hapart).aligned
  have hseg : ∀ mem, SameFile base.mem mem file len →
      segmentCmd mem (s.cmd file) = segmentAt base.mem file s.i :=
    fun mem hsame => hin.segmentCmd_eq hfile hsame
  have hfits := hfile.fits s.i hin.i_lt hin.isSegment
  obtain ⟨mem, hfill, hplaced', -⟩ := hplaced.fillSegment hseg hall hfits hfile.inMemory
  have hfill' := hplaced.fillSegment_patch (b := b) hlog hapart hseg hall hfits hinside
    hfile.inMemory
  rw [hfill, Option.map_some] at hfill'
  rw [step_filled hpc hfill, step_filled hpc' hfill']
  have hsame := SameFile.trans hplaced'.file_eq (sameFile_patch (b := b) _ haligned hapart)
  exact nextCommand_patch (s := { s with machine := s.machine.setMem mem }) hplaced'.file_eq hsame
    hfile hin.offset_eq hin.i_lt

/-! ## Runs -/

/-- The conditions under which the file is loaded from `base`, with no restriction
on where its segments are: as `Loads`, but a segment may have the stack page. -/
structure Admits (base : Machine) (slots : Set (Fin 512)) (file len : ℕ) : Prop where
  ready : Ready base slots file len
  loadable : Loadable base.mem slots file len
  magic : validMagic base.mem file = true
  inside : ∀ i < commandCount base.mem file, IsSegment base.mem file i →
    (segmentAt base.mem file i).fileOffset + (segmentAt base.mem file i).fileSize ≤ len
  log : base.granted = []
  memory : base.pmm.maxBlocks ≤ 2 ^ 40
  allocates : ∀ n, Allocates base slots file len (run file base n).machine

theorem step_patch (hadmits : Admits base slots file len)
    (hplaced : Placed base slots file len new frames s.machine) (hat : AtPc base file len frames s)
    (hlog : FreshLog base slots ((role, a) :: new)) (hapart : Apart a file len)
    (halloc : Allocates base slots file len (step file s).machine)
    (hafter : ∀ q ∈ paths slots, (step file s).machine.node q ≠ some (a / 4096)) :
    step file (s.patch a b) = (step file s).patch a b := by
  have hfile := hadmits.loadable
  have haligned := (hplaced.spare hlog hapart).aligned
  have hsame : SameFile base.mem (s.patch a b).machine.mem file len :=
    SameFile.trans hplaced.file_eq (sameFile_patch _ haligned hapart)
  unfold AtPc at hat
  cases hpc : s.pc <;> simp only [hpc] at hat
  case start => exact step_start_patch hplaced.file_eq hsame hfile hpc
  case commands =>
    exact step_commands_patch hadmits.ready hplaced hat hfile hsame haligned hapart halloc hpc
      hafter
  case pages => exact step_pages_patch hplaced hat.1 hfile hsame halloc hpc hafter
  case fill =>
    have hinside := hadmits.inside s.i hat.1.i_lt hat.1.isSegment
    exact step_fill_patch hplaced hat.1 hat.2 hfile hinside hlog hapart hpc
  all_goals
    have hhalted : Halted s := by
      unfold Halted
      rw [hpc]
      trivial
    rw [step_of_halted (s := s.patch a b) hhalted, step_of_halted hhalted]

/-- User mode is entered after the last command. -/
theorem step_userMode {entryPoint : ℕ} (hstep : (step file s).pc = .userMode entryPoint)
    (hbefore : s.pc ≠ .userMode entryPoint) : step file s = s.enterUserMode file := by
  unfold step stepWith at hstep
  cases hpc : s.pc <;> simp only [hpc] at hstep
  case start => split at hstep <;> cases hstep
  case commands =>
    split at hstep
    · split at hstep <;> cases hstep
    · next hi => exact step_lastCommand hpc hi
  case pages =>
    split at hstep
    · rw [mapSegmentPage, hpc] at hstep
      cases hstep
    · cases hstep
  case fill =>
    cases hfill : s.machine.fillSegment file (s.cmd file) with
    | none =>
        rw [hfill] at hstep
        cases hstep
    | some m =>
        rw [hfill] at hstep
        cases hstep
  case invalidMagic => cases hstep
  case pageFault => cases hstep
  case userMode e => exact absurd (hpc.trans hstep) hbefore

/-- Frame `f` is free. -/
def FreeFrame (p : Pmm) (f : ℕ) : Prop := f < p.maxBlocks ∧ p.isUsed (CInt.toI32 f) = false

instance (p : Pmm) (f : ℕ) : Decidable (FreeFrame p f) := inferInstanceAs (Decidable (_ ∧ _))

/-- The machines differ in the contents of free frames only. -/
structure SameButFree (m m' : Machine) : Prop where
  cr3_eq : m'.cr3 = m.cr3
  pmm_eq : m'.pmm = m.pmm
  granted_eq : m'.granted = m.granted
  mem_eq : ∀ x, ¬ FreeFrame m.pmm (x / 4096) → m'.mem x = m.mem x

/-- The byte is on a page that the loader maps for the user. -/
def UserByte (mem : Memory) (file virt : ℕ) : Prop :=
  virt / 4096 = stackNumber ∨ ∃ i < commandCount mem file, IsSegment mem file i ∧
    ∃ k < (segmentAt mem file i).memSize, virt / 4096 = ((segmentAt mem file i).rva + k) / 4096

/-- When user mode is entered, the user pages are the same as from any machine
that differs from `base` in free frames only. -/
def NoStale (base : Machine) (slots : Set (Fin 512)) (file len : ℕ) : Prop :=
  ∀ base', SameButFree base base' → Admits base' slots file len →
    ∀ n n' entryPoint entryPoint', (run file base n).pc = .userMode entryPoint →
      (run file base' n').pc = .userMode entryPoint' →
      ∀ virt, UserByte base.mem file virt →
        (run file base' n').machine.readByte virt = (run file base n).machine.readByte virt

theorem freshLog_sublist {more : List (FrameRole × ℕ)} (hlog : FreshLog base slots more)
    (hsub : List.Sublist new more) : FreshLog base slots new :=
  ⟨hlog.nodup.sublist (hsub.map _), fun g hg => hlog.fresh g (hsub.subset hg)⟩

/-- The step that enters user mode: the frame it grants for the stack is in no
earlier log, and becomes no table. -/
theorem enterUserMode_stack (hadmits : Admits base slots file len)
    (hplaced : Placed base slots file len new frames s.machine)
    (halloc : Allocates base slots file len (s.enterUserMode file).machine)
    (hphys : s.machine.pmm.pmmAllocBlock.1 = a) :
    FreshLog base slots ((.stack, a) :: new) ∧ Apart a file len ∧
      (.stack, a) ∈ (s.enterUserMode file).machine.granted ∧
      (s.enterUserMode file).machine.TreeOn slots ∧
      (∀ q ∈ paths slots, (s.enterUserMode file).machine.node q ≠ some (a / 4096)) ∧
      (s.enterUserMode file).machine.MapsTo stackPage a := by
  have hslot := hadmits.loadable.stack
  have hnext := hplaced.grown.allocBlock .stack
  have hmap : (s.enterUserMode file).machine =
      (s.machine.allocBlock .stack).2.vmmMapPage a stackPage 0x7 := by
    rw [← hphys]
    rfl
  rw [hphys] at hnext
  rw [hmap] at halloc ⊢
  obtain ⟨more, hgrown, hroles, hmaps⟩ := hnext.vmmMapPage hslot a 0x7 halloc.fresh
  have hfresh := halloc.fresh _ hgrown.granted
  have hgrant : (FrameRole.stack, a) ∈ more ++ (FrameRole.stack, a) :: new :=
    List.mem_append_right more List.mem_cons_self
  refine ⟨hfresh.of_append, halloc.apart _ hgrown.granted _ hgrant, ?_, hgrown.tree,
    fun q hq => hgrown.node_ne hfresh hgrant rfl hq, hmaps.mapsTo hslot⟩
  rw [hgrown.granted]
  exact List.mem_append_left _ hgrant

/-- Up to the entry to user mode, a run does not depend on the first byte of the
frame that is granted for the stack at the end. -/
theorem run_patch (hadmits : Admits base slots file len)
    (hlast : step file (run file base n) = (run file base n).enterUserMode file)
    (hphys : (run file base n).machine.pmm.pmmAllocBlock.1 = a) :
    ∀ j ≤ n + 1, run file (base.patch a b) j = (run file base j).patch a b := by
  have hinv := run_inv hadmits.ready hadmits.loadable hadmits.allocates
  obtain ⟨new, frames, hplaced, -, -⟩ := hinv n
  have hend := hadmits.allocates (n + 1)
  rw [run_succ, hlast] at hend
  obtain ⟨hlog, hapart, -, -, hafter, -⟩ := enterUserMode_stack hadmits hplaced hend hphys
  have hlogs : ∀ j ≤ n, ∀ new' frames', Placed base slots file len new' frames'
      (run file base j).machine → FreshLog base slots ((.stack, a) :: new') := by
    intro j hj new' frames' hplaced'
    obtain ⟨l, hl⟩ := (run_allocs file base hj).granted
    rw [hplaced.grown.granted, hplaced'.grown.granted, ← List.append_assoc] at hl
    rw [← List.append_cancel_right hl] at hlog
    exact freshLog_sublist hlog ((List.sublist_append_right l new').cons_cons _)
  intro j hj
  induction j with
  | zero => rfl
  | succ j ih =>
      obtain ⟨new', frames', hplaced', -, hat⟩ := hinv j
      have halloc := hadmits.allocates (j + 1)
      rw [run_succ] at halloc
      rw [run_succ, run_succ, ih (by omega)]
      apply step_patch hadmits hplaced' hat (hlogs j (by omega) _ _ hplaced') hapart halloc
      rcases Nat.lt_or_ge j n with hlt | hge
      · obtain ⟨new'', frames'', hplaced'', -, -⟩ := hinv (j + 1)
        rw [← run_succ]
        exact (hplaced''.spare (hlogs (j + 1) hlt _ _ hplaced'') hapart).node_ne
      · rw [show j = n by omega, hlast]
        exact hafter

/-- A machine with one byte of a spare free frame changed admits the same file. -/
theorem Admits.patch (hadmits : Admits base slots file len) (haligned : a % 4096 = 0)
    (hapart : Apart a file len) (hnode : ∀ q ∈ paths slots, base.node q ≠ some (a / 4096))
    (hhalted : Halted (run file base n))
    (hrun : run file (base.patch a b) n = (run file base n).patch a b) :
    Admits (base.patch a b) slots file len := by
  have hsame : SameFile base.mem (base.patch a b).mem file len :=
    sameFile_patch _ haligned hapart
  have htables : SameTables slots base (base.patch a b) := patch_sameTables hnode
  have hcommands := hadmits.loadable.toCommandsInside
  have hcount := hsame.commandCount_eq hcommands.header
  refine ⟨⟨htables.treeOn hadmits.ready.tree, fun q hq f hf => ?_⟩,
    hadmits.loadable.of_sameFile hsame, ?_, fun i hi hsegment => ?_, hadmits.log, hadmits.memory,
    allocates_of_halted (n := n) ?_ ?_⟩
  · rw [htables.node_eq hq] at hf
    exact hadmits.ready.apart q hq f hf
  · rw [hsame.validMagic_eq hcommands.header]
    exact hadmits.magic
  · rw [hcount] at hi
    have hold := (hsame.isSegment_iff hcommands hi).mp hsegment
    rw [hsame.segmentAt_eq hcommands hi hold]
    exact hadmits.inside i hi hold
  · rw [hrun]
    exact hhalted
  · obtain ⟨hfresh, happart⟩ := hadmits.allocates n
    rw [hrun]
    refine ⟨fun new hnew => ?_, happart⟩
    obtain ⟨hnodup, hframes⟩ := hfresh new hnew
    refine ⟨hnodup, fun g hg => ⟨(hframes g hg).1, fun q hq => ?_⟩⟩
    rw [htables.node_eq hq]
    exact (hframes g hg).2 q hq

/-- The load ends with the step that maps the stack and enters user mode. -/
theorem Admits.exists_last (hadmits : Admits base slots file len) : ∃ n entryPoint,
    step file (run file base n) = (run file base n).enterUserMode file ∧
      ((run file base n).enterUserMode file).pc = .userMode entryPoint := by
  have hexists := exists_userMode hadmits.ready hadmits.loadable hadmits.magic hadmits.allocates
  classical
  obtain ⟨entryPoint, hpc⟩ := Nat.find_spec hexists
  generalize hfind : Nat.find hexists = n at hpc
  cases n with
  | zero => cases hpc
  | succ n =>
      have hbefore : (run file base n).pc ≠ .userMode entryPoint := fun h =>
        Nat.find_min hexists (show n < _ by omega) ⟨entryPoint, h⟩
      rw [run_succ] at hpc
      have hlast := step_userMode hpc hbefore
      exact ⟨n, entryPoint, hlast, hlast ▸ hpc⟩

/-- The page mapped for the user stack always shows what its frame held before:
from some machine that differs only in a free frame, the load gives another page. -/
theorem not_noStale (hadmits : Admits base slots file len) : ¬ NoStale base slots file len := by
  intro hstale
  obtain ⟨n, entryPoint, hlast, hpc⟩ := hadmits.exists_last
  obtain ⟨new, frames, hplaced, -, -⟩ :=
    run_inv hadmits.ready hadmits.loadable hadmits.allocates n
  have hentered : run file base (n + 1) = (run file base n).enterUserMode file :=
    (run_succ file base n).trans hlast
  have hend := hadmits.allocates (n + 1)
  rw [hentered] at hend
  generalize hphys : (run file base n).machine.pmm.pmmAllocBlock.1 = a
  obtain ⟨hlog, hapart, hgrant, htree, hafter, hmaps⟩ :=
    enterUserMode_stack hadmits hplaced hend hphys
  obtain ⟨hframe, hunused⟩ := hlog.fresh _ List.mem_cons_self
  dsimp only at hframe hunused
  have hallocs := run_allocs file base (Nat.zero_le (n + 1))
  rw [hentered] at hallocs
  -- The frame of the stack was free before, so it may hold any byte there.
  obtain ⟨i, hi, haddr, hfree, -⟩ :=
    ((Ledger.refl hadmits.log).allocs hadmits.memory hallocs).marked _ hgrant hframe.1
  have hbytes : Nontrivial UInt8 := ⟨0, 1, by decide⟩
  obtain ⟨b, hb⟩ := exists_ne (((run file base n).enterUserMode file).machine.mem a)
  have hrun := run_patch (b := b) hadmits hlast hphys (n + 1) (le_refl _)
  have hhalted : Halted (run file base (n + 1)) := by
    rw [hentered]
    unfold Halted
    rw [hpc]
    trivial
  have hadmits' := hadmits.patch hframe.2.1 hapart hunused hhalted hrun
  have hsame : SameButFree base (base.patch a b) := by
    refine ⟨rfl, rfl, rfl, fun x hx => Function.update_of_ne ?_ _ _⟩
    rintro rfl
    dsimp only at haddr
    rw [haddr, Nat.mul_div_cancel_left _ (by decide)] at hx
    exact hx ⟨hi, hfree⟩
  have hpc' : (run file (base.patch a b) (n + 1)).pc = .userMode entryPoint := by
    rw [hrun, hentered]
    exact hpc
  have hread := hstale _ hsame hadmits' (n + 1) (n + 1) entryPoint entryPoint
    (hentered ▸ hpc) hpc' stackPage (Or.inl (by decide))
  rw [hrun, hentered] at hread
  have hslot := hadmits.loadable.stack
  have htranslate := hmaps.translate htree hslot (Or.inl (by decide)) hframe
  have htranslate' := (patch_sameTables (b := b) hafter).translate_eq htree hslot
  rw [htranslate, show stackPage % 4096 = 0 by decide, Nat.add_zero] at htranslate'
  rw [show stackPage % 4096 = 0 by decide, Nat.add_zero] at htranslate
  generalize (run file base n).enterUserMode file = last at *
  unfold readByte at hread
  rw [htranslate, show (last.patch a b).machine = last.machine.patch a b from rfl, htranslate',
    Option.map_some, Option.map_some] at hread
  have hbyte : (last.machine.patch a b).mem a = b := Function.update_self _ _ _
  rw [hbyte] at hread
  exact hb (Option.some_injective _ hread)

theorem apartPages_loads : Loads apartPages {0} 0x10000 186 := by
  obtain ⟨hcount, hfirst, hsecond⟩ := apartPages_segments
  have hsegs : ∀ i < commandCount apartPages.mem 0x10000, IsSegment apartPages.mem 0x10000 i →
      (i, segmentAt apartPages.mem 0x10000 i) ∈
        [(0, ⟨0, 0, 0x601000, 2, 184, 1, 0⟩), (1, ⟨0, 0, 0x602000, 1, 185, 1, 0⟩)] := by
    rw [hcount]
    intro i hi _
    interval_cases i
    · simp [hfirst]
    · simp [hsecond]
  exact lowTables_loads apartPages_byteDisjoint.toCommandsInside hsegs (by decide)
    (by decide) (by decide)

theorem apartPages_admits : Admits apartPages {0} 0x10000 186 :=
  ⟨apartPages_loads.ready, apartPages_loads.loadable, apartPages_loads.magic,
    apartPages_loads.inside, rfl, by decide, apartPages_loads.allocates⟩

theorem apartPages_not_noStale : ¬ NoStale apartPages {0} 0x10000 186 :=
  not_noStale apartPages_admits

/-- `apartPages` and the machine that has 0xFF at the start of the free frame 7
enter user mode with different bytes on the stack page. -/
theorem apartPages_staleStack :
    SameButFree apartPages (apartPages.patch 0x7000 0xFF) ∧
    Admits apartPages {0} 0x10000 186 ∧ Admits (apartPages.patch 0x7000 0xFF) {0} 0x10000 186 ∧
    (run 0x10000 apartPages 10).pc = .userMode 0x601000 ∧
    (run 0x10000 (apartPages.patch 0x7000 0xFF) 10).pc = .userMode 0x601000 ∧
    UserByte apartPages.mem 0x10000 0x7FF000 ∧
    (run 0x10000 apartPages 10).machine.readByte 0x7FF000 = some 0 ∧
    (run 0x10000 (apartPages.patch 0x7000 0xFF) 10).machine.readByte 0x7FF000 = some 0xFF := by
  have hcommands : (run 0x10000 apartPages 9).pc = .commands ∧
      ¬ (run 0x10000 apartPages 9).i < commandCount (run 0x10000 apartPages 9).machine.mem 0x10000 ∧
      (run 0x10000 apartPages 9).machine.pmm.pmmAllocBlock.1 = 0x7000 := by decide +kernel
  obtain ⟨hpc, hlast, hphys⟩ := hcommands
  have hend : (run 0x10000 apartPages 10).pc = .userMode 0x601000 := by decide +kernel
  have hrun := run_patch (b := 0xFF) apartPages_admits (step_lastCommand hpc hlast) hphys 10
    (le_refl _)
  have hhalted : Halted (run 0x10000 apartPages 10) := by
    unfold Halted
    rw [hend]
    trivial
  have hunused : ∀ q ∈ paths {0}, apartPages.node q ≠ some (0x7000 / 4096) := by
    intro q hq hnode
    exact absurd (lowTables_node_lt hnode) (by decide)
  refine ⟨⟨rfl, rfl, rfl, fun x hx => Function.update_of_ne ?_ _ _⟩, apartPages_admits,
    apartPages_admits.patch (by decide) (Or.inl (by decide)) hunused hhalted hrun, hend, ?_,
    Or.inl (by decide), by decide +kernel, by decide +kernel⟩
  · rintro rfl
    exact hx (by decide +kernel)
  · rw [hrun]
    exact hend

end Loader

end BadOS.Kernel
