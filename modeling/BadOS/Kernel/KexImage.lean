import BadOS.Foundation.Execution
import BadOS.Kernel.LoadedPages

/-! # The image built by the KEX loader

The loader walks the commands of a file, maps and fills the pages of each
segment and enters user mode with every segment in place.
-/

namespace BadOS.Kernel

open Kex Machine

/-- A file whose segments have whole, separate pages of the address space below
`slots`. -/
structure Loadable (mem : Memory) (slots : Set (Fin 512)) (file len : ℕ) : Prop extends
    CommandsInside mem file len where
  aligned : ∀ i < commandCount mem file, IsSegment mem file i →
    (segmentAt mem file i).rva % 4096 = 0
  fits : ∀ i < commandCount mem file, IsSegment mem file i →
    (segmentAt mem file i).fileSize ≤ (segmentAt mem file i).memSize
  canonical : ∀ i < commandCount mem file, IsSegment mem file i →
    ∀ k < (segmentAt mem file i).memSize, Canonical ((segmentAt mem file i).rva + k)
  inSlots : ∀ i < commandCount mem file, IsSegment mem file i →
    ∀ k < (segmentAt mem file i).memSize, slot ((segmentAt mem file i).rva + k) 39 ∈ slots
  disjoint : ∀ i < commandCount mem file, IsSegment mem file i →
    ∀ j < commandCount mem file, IsSegment mem file j → i ≠ j →
    ∀ k < (segmentAt mem file i).memSize, ∀ l < (segmentAt mem file j).memSize,
      ((segmentAt mem file i).rva + k) / 4096 ≠ ((segmentAt mem file j).rva + l) / 4096
  stack : slot Loader.stackPage 39 ∈ slots

theorem Loadable.mono {mem : Memory} {slots slots' : Set (Fin 512)} {file len : ℕ}
    (hsub : slots ⊆ slots')
    (hfile : Loadable mem slots file len) : Loadable mem slots' file len :=
  ⟨hfile.toCommandsInside, hfile.aligned, hfile.fits, hfile.canonical,
    fun i hi hsegment k hk => hsub (hfile.inSlots i hi hsegment k hk), hfile.disjoint,
    hsub hfile.stack⟩

/-- A file is loadable from every memory that holds it. -/
theorem Loadable.of_sameFile {mem mem' : Memory} {slots : Set (Fin 512)} {file len : ℕ}
    (hsame : SameFile mem mem' file len)
    (hfile : Loadable mem slots file len) : Loadable mem' slots file len := by
  have hcount := hsame.commandCount_eq hfile.header
  have hcommands := hfile.toCommandsInside
  have hsegment : ∀ i < commandCount mem' file, IsSegment mem' file i →
      i < commandCount mem file ∧ IsSegment mem file i ∧
        segmentAt mem' file i = segmentAt mem file i := by
    intro i hi hsegment
    rw [hcount] at hi
    have hold := (hsame.isSegment_iff hcommands hi).mp hsegment
    exact ⟨hi, hold, hsame.segmentAt_eq hcommands hi hold⟩
  refine ⟨hsame.commandsInside hcommands, ?_, ?_, ?_, ?_, ?_, hfile.stack⟩
  · intro i hi hs
    obtain ⟨hi, hs, heq⟩ := hsegment i hi hs
    rw [heq]
    exact hfile.aligned i hi hs
  · intro i hi hs
    obtain ⟨hi, hs, heq⟩ := hsegment i hi hs
    rw [heq]
    exact hfile.fits i hi hs
  · intro i hi hs
    obtain ⟨hi, hs, heq⟩ := hsegment i hi hs
    rw [heq]
    exact hfile.canonical i hi hs
  · intro i hi hs
    obtain ⟨hi, hs, heq⟩ := hsegment i hi hs
    rw [heq]
    exact hfile.inSlots i hi hs
  · intro i hi hs j hj hs' hne
    obtain ⟨hi, hs, heq⟩ := hsegment i hi hs
    obtain ⟨hj, hs', heq'⟩ := hsegment j hj hs'
    rw [heq, heq']
    exact hfile.disjoint i hi hs j hj hs' hne

namespace Loader

/-- The number of the page of the user stack. -/
def stackNumber : ℕ := 0x7FF

/-- The pages of segment `i` are placed and hold its declared bytes, as far as
the file has them and the stack is elsewhere. -/
def Loaded (base : Machine) (file len : ℕ) (frames : ℕ → Option ℕ) (m : Machine) (i : ℕ) : Prop :=
  let seg := segmentAt base.mem file i
  ∀ k < seg.memSize, ∃ a, frames ((seg.rva + k) / 4096) = some a ∧
    (seg.fileOffset + seg.fileSize ≤ len → (seg.rva + k) / 4096 ≠ stackNumber →
      m.mem (a + (seg.rva + k) % 4096) = imageByte base.mem file seg k)

/-- The loader has come to command `i`, with the segments before it loaded. -/
structure Walked (base : Machine) (file len : ℕ) (frames : ℕ → Option ℕ) (s : Loader) : Prop where
  i_le : s.i ≤ commandCount base.mem file
  offset_eq : s.currentOffset = commandOffset base.mem file s.i
  loaded : ∀ j < s.i, IsSegment base.mem file j → Loaded base file len frames s.machine j

/-- The loader works on segment `i`. -/
structure InSegment (base : Machine) (file len : ℕ) (frames : ℕ → Option ℕ) (s : Loader) :
    Prop extends Walked base file len frames s where
  i_lt : s.i < commandCount base.mem file
  isSegment : IsSegment base.mem file s.i

/-- What holds at each point of the source. -/
def AtPc (base : Machine) (file len : ℕ) (frames : ℕ → Option ℕ) (s : Loader) : Prop :=
  match s.pc with
  | .start => True
  | .commands => Walked base file len frames s
  | .pages => InSegment base file len frames s ∧ ∃ t, s.offset = 4096 * t ∧
      s.offset < (segmentAt base.mem file s.i).memSize + 4096 ∧
      ∀ p < t, (frames ((segmentAt base.mem file s.i).rva / 4096 + p)).isSome
  | .fill => InSegment base file len frames s ∧ AllPlaced frames
      (segmentAt base.mem file s.i).rva (segmentAt base.mem file s.i).memSize
  | .invalidMagic => validMagic base.mem file = false
  | .pageFault => False
  | .userMode entryPoint => entryPoint = entryRva base.mem file ∧
      (∀ j < commandCount base.mem file, IsSegment base.mem file j →
        Loaded base file len frames s.machine j) ∧
      (frames stackNumber).isSome

/-- Only the stack and pages of segments are placed. -/
def Declared (base : Machine) (file : ℕ) (frames : ℕ → Option ℕ) : Prop :=
  ∀ n a, frames n = some a → n = stackNumber ∨ ∃ i < commandCount base.mem file,
    IsSegment base.mem file i ∧ ∃ k < (segmentAt base.mem file i).memSize,
      n = ((segmentAt base.mem file i).rva + k) / 4096

def Inv (base : Machine) (slots : Set (Fin 512)) (file len : ℕ) (s : Loader) : Prop :=
  ∃ new frames, Placed base slots file len new frames s.machine ∧ Declared base file frames ∧
    AtPc base file len frames s

/-- The number of steps that can still be made, at most. -/
def remaining (base : Machine) (file : ℕ) (s : Loader) : ℕ :=
  match s.pc with
  | .start => (4 * commandCount base.mem file + 4) * 2 ^ 66
  | .commands => (4 * (commandCount base.mem file - s.i) + 3) * 2 ^ 66
  | .pages => (4 * (commandCount base.mem file - s.i) + 2) * 2 ^ 66 +
      ((segmentAt base.mem file s.i).memSize + 4096 - s.offset)
  | .fill => (4 * (commandCount base.mem file - s.i) + 1) * 2 ^ 66
  | .invalidMagic | .pageFault | .userMode _ => 0

variable {base m m' : Machine} {slots : Set (Fin 512)} {file len i j n a : ℕ} {s : Loader}
variable {frames frames' : ℕ → Option ℕ} {new : List (FrameRole × ℕ)}

/-! ## Segments already loaded -/

theorem Loaded.congr (hloaded : Loaded base file len frames m j)
    (hsame : ∀ k < (segmentAt base.mem file j).memSize, ∀ a,
      frames (((segmentAt base.mem file j).rva + k) / 4096) = some a →
      ∃ a', frames' (((segmentAt base.mem file j).rva + k) / 4096) = some a' ∧
        (((segmentAt base.mem file j).rva + k) / 4096 ≠ stackNumber → a' = a ∧
          m'.mem (a + ((segmentAt base.mem file j).rva + k) % 4096) =
            m.mem (a + ((segmentAt base.mem file j).rva + k) % 4096))) :
    Loaded base file len frames' m' j := by
  intro k hk
  obtain ⟨a, hframe, hbyte⟩ := hloaded k hk
  obtain ⟨a', hframe', hkept⟩ := hsame k hk a hframe
  refine ⟨a', hframe', fun hinside hstack => ?_⟩
  obtain ⟨rfl, hmem⟩ := hkept hstack
  rw [hmem]
  exact hbyte hinside hstack

/-- Placing another page, or the stack, keeps a loaded segment. -/
theorem Loaded.update (hloaded : Loaded base file len frames m j)
    (hpage : ∀ k < (segmentAt base.mem file j).memSize,
      ((segmentAt base.mem file j).rva + k) / 4096 ≠ n ∨ n = stackNumber)
    (hmem : ∀ p b, frames p = some b → ∀ k < 4096, m'.mem (b + k) = m.mem (b + k)) :
    Loaded base file len (Function.update frames n (some a)) m' j := by
  apply hloaded.congr
  intro k hk b hframe
  by_cases hn : ((segmentAt base.mem file j).rva + k) / 4096 = n
  · rw [hn, Function.update_self]
    refine ⟨a, rfl, fun hstack => ?_⟩
    exact absurd ((hpage k hk).resolve_left fun h => h hn) hstack
  · rw [Function.update_of_ne hn]
    exact ⟨b, hframe, fun _ => ⟨rfl, hmem _ b hframe _ (Nat.mod_lt _ (by decide))⟩⟩

/-- Filling another segment keeps a loaded segment. -/
theorem Loaded.fill (hloaded : Loaded base file len frames m j)
    (hplaced : Placed base slots file len new frames m)
    (hfile : Loadable base.mem slots file len) (hi : i < commandCount base.mem file)
    (hsegment : IsSegment base.mem file i) (hj : j < commandCount base.mem file)
    (hsegment' : IsSegment base.mem file j) (hne : i ≠ j)
    (hall : AllPlaced frames (segmentAt base.mem file i).rva (segmentAt base.mem file i).memSize)
    (hmem : ∀ x, (∀ k < (segmentAt base.mem file i).memSize,
      x ≠ phys frames ((segmentAt base.mem file i).rva + k)) → m'.mem x = m.mem x) :
    Loaded base file len frames m' j := by
  apply hloaded.congr
  intro l hl b hframe
  refine ⟨b, hframe, fun _ => ⟨rfl, hmem _ fun k hk hsame => ?_⟩⟩
  have haddr := hplaced.eq_of_phys_eq hframe hall hk hsame
  exact hfile.disjoint i hi hsegment j hj hsegment' hne k hk l hl (by rw [haddr])

theorem Declared.update (hdeclared : Declared base file frames)
    (hn : n = stackNumber ∨ ∃ i < commandCount base.mem file, IsSegment base.mem file i ∧
      ∃ k < (segmentAt base.mem file i).memSize,
        n = ((segmentAt base.mem file i).rva + k) / 4096) :
    Declared base file (Function.update frames n (some a)) := by
  intro p b hp
  rcases eq_or_ne_of_update hp with ⟨rfl, -⟩ | ⟨-, hold⟩
  · exact hn
  · exact hdeclared p b hold

/-! ## Steps -/

theorem Walked.headType_eq (hwalked : Walked base file len frames s)
    (hsame : SameFile base.mem s.machine.mem file len)
    (hfile : Loadable base.mem slots file len) (hi : s.i < commandCount base.mem file) :
    headType s.machine.mem (s.cmd file) = headType base.mem (commandAt base.mem file s.i) := by
  rw [← hsame.headType_eq hfile.toCommandsInside hi, cmd, hwalked.offset_eq]
  rfl

theorem InSegment.segmentCmd_eq (hin : InSegment base file len frames s)
    (hfile : Loadable base.mem slots file len) {mem : Memory}
    (hsame : SameFile base.mem mem file len) :
    segmentCmd mem (s.cmd file) = segmentAt base.mem file s.i := by
  rw [← hsame.segmentCmd_eq hfile.toCommandsInside hin.i_lt hin.isSegment, cmd, hin.offset_eq]
  rfl

/-- To the next command, when segment `i`, if it is one, is loaded. -/
theorem Walked.nextCommand (hwalked : Walked base file len frames s)
    (hsame : SameFile base.mem s.machine.mem file len)
    (hfile : Loadable base.mem slots file len) (hi : s.i < commandCount base.mem file)
    (hlast : IsSegment base.mem file s.i → Loaded base file len frames s.machine s.i) :
    Walked base file len frames (s.nextCommand file) ∧
      remaining base file (s.nextCommand file) + 2 ^ 68 =
        (4 * (commandCount base.mem file - s.i) + 3) * 2 ^ 66 := by
  refine ⟨⟨hi, ?_, ?_⟩, ?_⟩
  · rw [Loader.nextCommand, hwalked.offset_eq]
    exact hsame.nextOffset_eq hfile.toCommandsInside hi
  · intro j hj hsegment
    rcases Nat.lt_succ_iff_lt_or_eq.mp hj with hlt | rfl
    · exact hwalked.loaded j hlt hsegment
    · exact hlast hsegment
  · unfold remaining Loader.nextCommand
    dsimp only
    omega

/-- A step keeps the invariant and leaves fewer steps to be made. -/
def Advances (base : Machine) (slots : Set (Fin 512)) (file len : ℕ) (s : Loader) : Prop :=
  Inv base slots file len (step file s) ∧ remaining base file (step file s) < remaining base file s

theorem step_start (hplaced : Placed base slots file len new frames s.machine)
    (hdeclared : Declared base file frames) (hfile : Loadable base.mem slots file len)
    (hpc : s.pc = .start) :
    Advances base slots file len s := by
  have hmagic := hplaced.file_eq.validMagic_eq hfile.header
  unfold Advances step stepWith
  rw [hpc]
  dsimp only
  by_cases hvalid : validMagic s.machine.mem file = true
  · rw [if_pos hvalid]
    refine ⟨⟨new, frames, hplaced, hdeclared, ⟨Nat.zero_le _, ?_, ?_⟩⟩, ?_⟩
    · exact hplaced.file_eq.cmdOffset_eq hfile.header
    · exact fun j hj => absurd hj (Nat.not_lt_zero j)
    · unfold remaining
      rw [hpc]
      dsimp only
      omega
  · rw [if_neg hvalid]
    refine ⟨⟨new, frames, hplaced, hdeclared, ?_⟩, ?_⟩
    · exact hmagic.symm.trans (Bool.not_eq_true _ ▸ hvalid)
    · unfold remaining
      rw [hpc]
      dsimp only
      omega

theorem step_commands (hready : Ready base slots file len)
    (hplaced : Placed base slots file len new frames s.machine)
    (hdeclared : Declared base file frames) (hwalked : Walked base file len frames s)
    (hfile : Loadable base.mem slots file len)
    (halloc : Allocates base slots file len (step file s).machine) (hpc : s.pc = .commands) :
    Advances base slots file len s := by
  have hcount := hplaced.file_eq.commandCount_eq hfile.header
  have hbefore : remaining base file s =
      (4 * (commandCount base.mem file - s.i) + 3) * 2 ^ 66 := by
    unfold remaining
    rw [hpc]
  unfold Advances
  rw [hbefore]
  by_cases hi : s.i < commandCount base.mem file
  · by_cases htype : headType base.mem (commandAt base.mem file s.i) = cmdSegment
    · have hstep : step file s = { s with pc := .pages, offset := 0 } := by
        unfold step stepWith
        rw [hpc]
        dsimp only
        rw [hcount, if_pos hi, hwalked.headType_eq hplaced.file_eq hfile hi, if_pos htype]
      have hsize := Memory.load_lt base.mem (commandAt base.mem file s.i + 24) 8
      rw [hstep]
      refine ⟨⟨new, frames, hplaced, hdeclared,
        ⟨⟨⟨hwalked.i_le, hwalked.offset_eq, hwalked.loaded⟩, hi,
        htype⟩, 0, rfl, ?_, fun p hp => absurd hp (Nat.not_lt_zero p)⟩⟩, ?_⟩
      · exact Nat.lt_add_left _ (show 0 < 4096 by decide)
      · unfold remaining segmentAt segmentCmd
        dsimp only
        omega
    · have hstep : step file s = s.nextCommand file := by
        apply step_otherCommand hpc (hcount.symm ▸ hi)
        rwa [hwalked.headType_eq hplaced.file_eq hfile hi]
      obtain ⟨hnext, hless⟩ :=
        hwalked.nextCommand hplaced.file_eq hfile hi fun hsegment => absurd hsegment htype
      rw [hstep]
      exact ⟨⟨new, frames, hplaced, hdeclared, hnext⟩, by omega⟩
  · have hlast : s.i = commandCount base.mem file := by
      have := hwalked.i_le
      omega
    have hstep : step file s = s.enterUserMode file := by
      unfold step stepWith
      rw [hpc]
      dsimp only
      rw [hcount, if_neg hi]
    rw [hstep] at halloc ⊢
    obtain ⟨new', a, hplaced', hkept⟩ :=
      hplaced.mapNewPage hready .stack (n := stackNumber) (Or.inr rfl)
        (Or.inl (by decide)) hfile.stack halloc
    refine ⟨⟨new', _, hplaced', hdeclared.update (Or.inl rfl), ?_, ?_, ?_⟩, ?_⟩
    · exact hplaced'.file_eq.entryRva_eq hfile.header
    · intro j hj hsegment
      exact (hwalked.loaded j (hlast ▸ hj) hsegment).update (fun _ _ => Or.inr rfl) hkept
    · rw [Function.update_self]
      rfl
    · unfold remaining enterUserMode
      dsimp only
      omega

theorem step_pages (hready : Ready base slots file len)
    (hplaced : Placed base slots file len new frames s.machine)
    (hdeclared : Declared base file frames) (hin : InSegment base file len frames s)
    {t : ℕ} (hoffset : s.offset = 4096 * t)
    (hbound : s.offset < (segmentAt base.mem file s.i).memSize + 4096)
    (hpages : ∀ p < t, (frames ((segmentAt base.mem file s.i).rva / 4096 + p)).isSome)
    (hfile : Loadable base.mem slots file len)
    (halloc : Allocates base slots file len (step file s).machine) (hpc : s.pc = .pages) :
    Advances base slots file len s := by
  have hseg := hin.segmentCmd_eq hfile hplaced.file_eq
  have haligned := hfile.aligned s.i hin.i_lt hin.isSegment
  have hcanonical := hfile.canonical s.i hin.i_lt hin.isSegment
  have hslots := hfile.inSlots s.i hin.i_lt hin.isSegment
  have hbefore : remaining base file s = (4 * (commandCount base.mem file - s.i) + 2) * 2 ^ 66 +
      ((segmentAt base.mem file s.i).memSize + 4096 - s.offset) := by
    unfold remaining
    rw [hpc]
  have hdisjoint := hfile.disjoint s.i hin.i_lt hin.isSegment
  have hsegment := hin.isSegment
  unfold Advances
  rw [hbefore]
  generalize hdecl : segmentAt base.mem file s.i = seg at *
  -- Either one more page is mapped, or all are and the segment is filled next.
  by_cases hmore : s.offset < seg.memSize
  · have hstep : step file s = s.mapSegmentPage seg.rva := by
      unfold step stepWith
      rw [hpc]
      dsimp only
      rw [hseg, if_pos hmore]
    have hhere := hcanonical s.offset hmore
    have hsize := size_le_of_canonical hcanonical
    have hnext : (s.offset + 4096) % 2 ^ 64 = s.offset + 4096 := Nat.mod_eq_of_lt (by omega)
    have haddr : (seg.rva + s.offset) % 2 ^ 64 = 4096 * (seg.rva / 4096 + t) := by
      unfold Canonical at hhere
      rw [Nat.mod_eq_of_lt (by omega)]
      omega
    have hpage : seg.rva + s.offset = 4096 * (seg.rva / 4096 + t) := by omega
    rw [hstep, mapSegmentPage, haddr] at halloc
    rw [hstep, mapSegmentPage, haddr, hnext]
    have hslot := hslots s.offset hmore
    rw [hpage] at hhere hslot
    obtain ⟨new', a, hplaced', hkept⟩ :=
      hplaced.mapNewPage hready .segment (Or.inl rfl) hhere hslot halloc
    have hdeclared' : Declared base file
        (Function.update frames (seg.rva / 4096 + t) (some a)) := by
      refine hdeclared.update (Or.inr ⟨s.i, hin.i_lt, hsegment, s.offset, ?_, ?_⟩)
      · rwa [hdecl]
      · rw [hdecl, hpage, Nat.mul_div_cancel_left _ (by decide)]
    refine ⟨⟨new', _, hplaced', hdeclared', ?_⟩, ?_⟩
    · unfold AtPc
      dsimp only
      rw [hpc, hdecl]
      refine ⟨⟨⟨hin.i_le, hin.offset_eq, ?_⟩, hin.i_lt, hsegment⟩, t + 1, by omega, by omega, ?_⟩
      · intro j hj hother
        refine (hin.loaded j hj hother).update (fun k hk => Or.inl ?_) hkept
        have hne := hdisjoint j (lt_trans hj hin.i_lt) hother (Nat.ne_of_gt hj) s.offset hmore k hk
        rw [hpage] at hne
        omega
      intro p hp
      rcases Nat.lt_succ_iff_lt_or_eq.mp hp with hlt | rfl
      · rw [Function.update_of_ne (by omega)]
        exact hpages p hlt
      · rw [Function.update_self]
        rfl
    · unfold remaining
      dsimp only
      rw [hpc, hdecl]
      dsimp only
      omega
  · have hstep : step file s = { s with pc := .fill } := by
      unfold step stepWith
      rw [hpc]
      dsimp only
      rw [hseg, if_neg hmore]
    rw [hstep]
    refine ⟨⟨new, frames, hplaced, hdeclared,
      ⟨⟨hin.i_le, hin.offset_eq, hin.loaded⟩, hin.i_lt, hsegment⟩, ?_⟩, ?_⟩
    · intro k hk
      dsimp only at hk ⊢
      rw [hdecl] at hk ⊢
      have := hpages (k / 4096) (by omega)
      rwa [show (seg.rva + k) / 4096 = seg.rva / 4096 + k / 4096 by omega]
    · unfold remaining
      dsimp only
      omega

theorem step_fill (hplaced : Placed base slots file len new frames s.machine)
    (hdeclared : Declared base file frames) (hin : InSegment base file len frames s)
    (hall : AllPlaced frames (segmentAt base.mem file s.i).rva
      (segmentAt base.mem file s.i).memSize)
    (hfile : Loadable base.mem slots file len) (hpc : s.pc = .fill) :
    Advances base slots file len s := by
  obtain ⟨mem, hfill, hplaced', hbytes, hkept⟩ :=
    hplaced.fillSegment (fun mem hsame => hin.segmentCmd_eq hfile hsame) hall
      (hfile.fits s.i hin.i_lt hin.isSegment) hfile.inMemory
  have hstep : step file s = { s with machine := s.machine.setMem mem }.nextCommand file := by
    unfold step stepWith
    rw [hpc]
    dsimp only
    rw [hfill]
  have hloaded : ∀ j < s.i, IsSegment base.mem file j →
      Loaded base file len frames (s.machine.setMem mem) j := fun j hj hsegment =>
    (hin.loaded j hj hsegment).fill hplaced hfile hin.i_lt hin.isSegment (lt_trans hj hin.i_lt)
      hsegment (Nat.ne_of_gt hj) hall hkept
  have hthis : Loaded base file len frames (s.machine.setMem mem) s.i := by
    intro k hk
    obtain ⟨a, hframe⟩ := Option.isSome_iff_exists.mp (hall k hk)
    refine ⟨a, hframe, fun hinside _ => ?_⟩
    rw [← phys_eq hframe]
    exact hbytes hinside k hk
  have hwalked : Walked base file len frames { s with machine := s.machine.setMem mem } :=
    ⟨hin.i_le, hin.offset_eq, hloaded⟩
  obtain ⟨hnext, hless⟩ :=
    hwalked.nextCommand hplaced'.file_eq hfile hin.i_lt fun _ => hthis
  have hbefore : remaining base file s =
      (4 * (commandCount base.mem file - s.i) + 1) * 2 ^ 66 := by
    unfold remaining
    rw [hpc]
  unfold Advances
  rw [hstep, hbefore]
  refine ⟨⟨new, frames, hplaced', hdeclared, hnext⟩, ?_⟩
  have hi := hin.i_lt
  dsimp only at hless
  omega

/-- The loader has stopped. -/
def Halted (s : Loader) : Prop :=
  match s.pc with
  | .invalidMagic | .pageFault | .userMode _ => True
  | _ => False

theorem step_advances (hready : Ready base slots file len)
    (hfile : Loadable base.mem slots file len) (hinv : Inv base slots file len s)
    (halloc : Allocates base slots file len (step file s).machine) (hrunning : ¬ Halted s) :
    Advances base slots file len s := by
  obtain ⟨new, frames, hplaced, hdeclared, hat⟩ := hinv
  unfold AtPc at hat
  unfold Halted at hrunning
  cases hpc : s.pc <;> simp only [hpc, not_true, not_false_eq_true] at hat hrunning
  case start => exact step_start hplaced hdeclared hfile hpc
  case commands => exact step_commands hready hplaced hdeclared hat hfile halloc hpc
  case pages =>
    obtain ⟨hin, t, hoffset, hbound, hpages⟩ := hat
    exact step_pages hready hplaced hdeclared hin hoffset hbound hpages hfile halloc hpc
  case fill => exact step_fill hplaced hdeclared hat.1 hat.2 hfile hpc

theorem step_of_halted (hhalted : Halted s) : step file s = s := by
  unfold Halted at hhalted
  unfold step stepWith
  cases hpc : s.pc <;> simp only [hpc] at hhalted ⊢

theorem step_inv (hready : Ready base slots file len)
    (hfile : Loadable base.mem slots file len) (hinv : Inv base slots file len s)
    (halloc : Allocates base slots file len (step file s).machine) :
    Inv base slots file len (step file s) := by
  by_cases hhalted : Halted s
  · rw [step_of_halted hhalted]
    exact hinv
  · exact (step_advances hready hfile hinv halloc hhalted).1

/-! ## Runs -/

theorem run_succ (file : ℕ) (m : Machine) (n : ℕ) :
    run file m (n + 1) = step file (run file m n) := Function.iterate_succ_apply' _ _ _

/-- The invariant of the loader holds in every state of a run. -/
theorem run_inv (hready : Ready base slots file len) (hfile : Loadable base.mem slots file len)
    (halloc : ∀ n, Allocates base slots file len (run file base n).machine) (n : ℕ) :
    Inv base slots file len (run file base n) := by
  induction n with
  | zero => exact ⟨[], _, hready.placed, fun _ _ h => (nomatch h), trivial⟩
  | succ n ih =>
      have hnext := halloc (n + 1)
      rw [run_succ] at hnext ⊢
      exact step_inv hready hfile ih hnext

/-- The loader comes to an end. -/
theorem exists_halted (hready : Ready base slots file len)
    (hfile : Loadable base.mem slots file len)
    (halloc : ∀ n, Allocates base slots file len (run file base n).machine) :
    ∃ n, Halted (run file base n) := by
  have hinit : Inv base slots file len (call base) ∧
      ∀ n, Allocates base slots file len ((step file)^[n] (call base)).machine :=
    ⟨run_inv hready hfile halloc 0, halloc⟩
  obtain ⟨n, -, hhalted⟩ := Execution.exists_iterate
    (fun s => Inv base slots file len s ∧
      ∀ n, Allocates base slots file len ((step file)^[n] s).machine)
    (remaining base file) (fun s hs hrunning => by
      obtain ⟨hinv, hallocs⟩ := hs
      obtain ⟨hnext, hless⟩ := step_advances hready hfile hinv (hallocs 1) hrunning
      exact ⟨⟨hnext, fun n => hallocs (n + 1)⟩, hless⟩) hinit
  exact ⟨n, hhalted⟩

theorem storeBytes_allocs {virt size : ℕ} {byte : Memory → ℕ → UInt8}
    (hstore : m.storeBytes virt byte size = some m') : Allocs m m' := by
  induction size generalizing m' with
  | zero =>
      rw [← Option.some_injective _ hstore]
      exact .refl rfl rfl
  | succ size ih =>
      obtain ⟨middle, hmiddle, hlast⟩ := Option.bind_eq_some_iff.mp hstore
      obtain ⟨phys, -, rfl⟩ := Option.map_eq_some_iff.mp hlast
      exact (ih hmiddle).trans (.refl rfl rfl)

theorem fillSegment_allocs {cmd : ℕ} (hfill : m.fillSegment file cmd = some m') :
    Allocs m m' := by
  unfold fillSegment at hfill
  obtain ⟨middle, hmiddle, hlast⟩ := Option.bind_eq_some_iff.mp hfill
  have hcleared := storeBytes_allocs hmiddle
  dsimp only at hlast
  split at hlast
  · exact hcleared.trans (storeBytes_allocs hlast)
  · rwa [← Option.some_injective _ hlast]

/-- A step changes the allocator by allocations only. -/
theorem step_allocs (file : ℕ) (s : Loader) : Allocs s.machine (step file s).machine := by
  unfold step stepWith
  cases hpc : s.pc <;> dsimp only
  case start => split <;> exact .refl rfl rfl
  case commands =>
    split
    · split <;> exact .refl rfl rfl
    · exact mapNewPage_allocs _ _ _ _
  case pages =>
    split
    · exact mapNewPage_allocs _ _ _ _
    · exact .refl rfl rfl
  case fill =>
    cases hfill : s.machine.fillSegment file (s.cmd file) with
    | none => exact .refl rfl rfl
    | some m => exact fillSegment_allocs hfill
  all_goals exact .refl rfl rfl

theorem run_allocs (file : ℕ) (m : Machine) {n n' : ℕ} (h : n ≤ n') :
    Allocs (run file m n).machine (run file m n').machine := by
  induction n', h using Nat.le_induction with
  | base => exact .refl rfl rfl
  | succ n' hn ih =>
      rw [run_succ]
      exact ih.trans (step_allocs file _)

theorem run_of_halted {n n' : ℕ} (hhalted : Halted (run file m n)) (h : n ≤ n') :
    run file m n' = run file m n := by
  induction n', h using Nat.le_induction with
  | base => rfl
  | succ n' hn ih => rw [run_succ, ih, step_of_halted hhalted]

/-- All allocations of a run are in the log when it has stopped. -/
theorem allocates_of_halted {start : ℕ} (hhalted : Halted (run file base n))
    (halloc : Allocates base slots start len (run file base n).machine) (n' : ℕ) :
    Allocates base slots start len (run file base n').machine := by
  rcases Nat.le_total n n' with h | h
  · rw [run_of_halted hhalted h]
    exact halloc
  · exact halloc.of_allocs (run_allocs file base h)

/-- The conditions under which `base` loads the file: it has the magic number,
the data of its segments is inside it, no segment has the stack page, and the
allocator grants frames that are neither tables, granted before nor part of it. -/
structure Loads (base : Machine) (slots : Set (Fin 512)) (file len : ℕ) : Prop where
  ready : Ready base slots file len
  loadable : Loadable base.mem slots file len
  magic : validMagic base.mem file = true
  inside : ∀ i < commandCount base.mem file, IsSegment base.mem file i →
    (segmentAt base.mem file i).fileOffset + (segmentAt base.mem file i).fileSize ≤ len
  avoidsStack : ∀ i < commandCount base.mem file, IsSegment base.mem file i →
    ∀ k < (segmentAt base.mem file i).memSize,
      ((segmentAt base.mem file i).rva + k) / 4096 ≠ stackNumber
  allocates : ∀ n, Allocates base slots file len (run file base n).machine

/-- A file with the magic number is loaded to its end. -/
theorem exists_userMode (hready : Ready base slots file len)
    (hfile : Loadable base.mem slots file len) (hmagic : validMagic base.mem file = true)
    (halloc : ∀ n, Allocates base slots file len (run file base n).machine) :
    ∃ n entryPoint, (run file base n).pc = .userMode entryPoint := by
  obtain ⟨n, hhalted⟩ := exists_halted hready hfile halloc
  obtain ⟨new, frames, -, -, hat⟩ := run_inv hready hfile halloc n
  refine ⟨n, ?_⟩
  unfold AtPc at hat
  unfold Halted at hhalted
  cases hpc : (run file base n).pc <;> simp only [hpc] at hat hhalted
  case invalidMagic => exact absurd (hat.symm.trans hmagic) (by decide)
  case userMode entryPoint => exact ⟨entryPoint, rfl⟩

/-- At the jump to user mode every segment byte is the declared one. -/
theorem Loads.readByte_eq (hloads : Loads base slots file len) {n entryPoint : ℕ}
    (hpc : (run file base n).pc = .userMode entryPoint) (hi : i < commandCount base.mem file)
    (hsegment : IsSegment base.mem file i) {k : ℕ}
    (hk : k < (segmentAt base.mem file i).memSize) :
    (run file base n).machine.readByte ((segmentAt base.mem file i).rva + k) =
      some (imageByte base.mem file (segmentAt base.mem file i) k) := by
  obtain ⟨new, frames, hplaced, -, hat⟩ := run_inv hloads.ready hloads.loadable hloads.allocates n
  unfold AtPc at hat
  rw [hpc] at hat
  obtain ⟨-, hloaded, -⟩ := hat
  obtain ⟨a, hframe, hbyte⟩ := hloaded i hi hsegment k hk
  rw [readByte, hplaced.translate hframe, Option.map_some,
    hbyte (hloads.inside i hi hsegment) (hloads.avoidsStack i hi hsegment k hk)]

/-- Every segment byte is in a frame that was granted. -/
theorem Loads.exists_frame (hloads : Loads base slots file len) {n entryPoint : ℕ}
    (hpc : (run file base n).pc = .userMode entryPoint) (hi : i < commandCount base.mem file)
    (hsegment : IsSegment base.mem file i) {k : ℕ}
    (hk : k < (segmentAt base.mem file i).memSize) :
    ∃ g ∈ (run file base n).machine.granted,
      (run file base n).machine.translate ((segmentAt base.mem file i).rva + k) =
        some (g.2 + ((segmentAt base.mem file i).rva + k) % 4096) := by
  obtain ⟨new, frames, hplaced, -, hat⟩ := run_inv hloads.ready hloads.loadable hloads.allocates n
  unfold AtPc at hat
  rw [hpc] at hat
  obtain ⟨-, hloaded, -⟩ := hat
  obtain ⟨a, hframe, -⟩ := hloaded i hi hsegment k hk
  obtain ⟨role, -, hgrant⟩ := hplaced.role _ a hframe
  refine ⟨(role, a), ?_, hplaced.translate hframe⟩
  rw [hplaced.grown.granted]
  exact List.mem_append_left base.granted hgrant

theorem Loads.stack_mapped (hloads : Loads base slots file len) {n entryPoint : ℕ}
    (hpc : (run file base n).pc = .userMode entryPoint) :
    entryPoint = entryRva base.mem file ∧ ∃ a, (run file base n).machine.MapsTo stackPage a := by
  obtain ⟨new, frames, hplaced, -, hat⟩ := run_inv hloads.ready hloads.loadable hloads.allocates n
  unfold AtPc at hat
  rw [hpc] at hat
  obtain ⟨hentry, -, hstack⟩ := hat
  obtain ⟨a, hframe⟩ := Option.isSome_iff_exists.mp hstack
  have hpage : stackPage = 4096 * stackNumber := by decide
  rw [hpage]
  exact ⟨hentry, a, hplaced.mapsTo _ a hframe⟩

end Loader

end BadOS.Kernel
