import BadOS.Kernel.FrameLog
import BadOS.Kex.Format

/-! # The KEX loader

`load_kex_and_run` one loop test at a time. Fields of the file are read again
from memory wherever the source reads them.
-/

namespace BadOS.Kernel

open Kex

namespace Machine

/-- `vmm_map_page(pmm_alloc_block(), virt, flags)`. -/
def mapNewPage (m : Machine) (role : FrameRole) (virt flags : ℕ)
    (alloc : Allocator := allocBlock) : Machine :=
  let (phys, m) := alloc m role
  m.vmmMapPage phys virt flags alloc

theorem mapNewPage_allocs (m : Machine) (role : FrameRole) (virt flags : ℕ) :
    Allocs m (m.mapNewPage role virt flags) :=
  (allocBlock_allocs m role).trans (vmmMapPage_allocs _ _ virt flags)

/-- `memset` and `memcpy` of a segment; `none` when a store faults. -/
def fillSegment (m : Machine) (file cmd : ℕ) : Option Machine :=
  let seg := segmentCmd m.mem cmd
  (m.memset seg.rva 0 seg.memSize).bind fun m =>
    let seg := segmentCmd m.mem cmd
    if 0 < seg.fileSize then m.memcpy seg.rva (pointer file seg.fileOffset) seg.fileSize
    else some m

end Machine

/-- The points of `load_kex_and_run` between which a step runs. -/
inductive LoaderPc
  | start
  | commands
  | pages
  | fill
  | invalidMagic
  | pageFault
  | userMode (entryPoint : ℕ)
deriving DecidableEq

/-- The machine and the local variables: the loop counter `i`, `current_offset`
and the page loop's `offset`. -/
structure Loader where
  pc : LoaderPc
  machine : Machine
  i : ℕ
  currentOffset : ℕ
  offset : ℕ

namespace Loader

/-- `load_kex_and_run(file)` called. -/
def call (m : Machine) : Loader where
  pc := .start
  machine := m
  i := 0
  currentOffset := 0
  offset := 0

/-- The current command. -/
def cmd (s : Loader) (file : ℕ) : ℕ := pointer file s.currentOffset

/-- To the next command, by the size in its header. -/
def nextCommand (s : Loader) (file : ℕ) : Loader :=
  { s with
    pc := .commands, i := s.i + 1
    currentOffset := nextOffset s.machine.mem file s.currentOffset }

/-- The address of the page mapped for the user stack. -/
def stackPage : ℕ := 0x7FF000

/-- After the last command: the stack, then user mode. -/
def enterUserMode (s : Loader) (file : ℕ) (alloc : Machine.Allocator := Machine.allocBlock) :
    Loader :=
  let m := s.machine.mapNewPage .stack stackPage 0x7 alloc
  { s with pc := .userMode (entryRva m.mem file), machine := m }

/-- One iteration of the page loop. -/
def mapSegmentPage (s : Loader) (rva : ℕ) (alloc : Machine.Allocator := Machine.allocBlock) :
    Loader :=
  { s with
    machine := s.machine.mapNewPage .segment ((rva + s.offset) % 2 ^ 64) 0x7 alloc
    offset := (s.offset + 4096) % 2 ^ 64 }

def stepWith (alloc : Machine.Allocator) (file : ℕ) (s : Loader) : Loader :=
  match s.pc with
  | .start =>
      if validMagic s.machine.mem file then
        { s with pc := .commands, i := 0, currentOffset := cmdOffset s.machine.mem file }
      else { s with pc := .invalidMagic }
  | .commands =>
      if s.i < commandCount s.machine.mem file then
        if headType s.machine.mem (s.cmd file) = cmdSegment then
          { s with pc := .pages, offset := 0 }
        else s.nextCommand file
      else s.enterUserMode file alloc
  | .pages =>
      let seg := segmentCmd s.machine.mem (s.cmd file)
      if s.offset < seg.memSize then s.mapSegmentPage seg.rva alloc else { s with pc := .fill }
  | .fill =>
      match s.machine.fillSegment file (s.cmd file) with
      | some m => { s with machine := m }.nextCommand file
      | none => { s with pc := .pageFault }
  | .invalidMagic | .pageFault | .userMode _ => s

/-- A step with the allocator of the machine. -/
abbrev step (file : ℕ) (s : Loader) : Loader := stepWith Machine.allocBlock file s

/-- The state after `n` steps. -/
def run (file : ℕ) (m : Machine) (n : ℕ) (alloc : Machine.Allocator := Machine.allocBlock) :
    Loader :=
  (stepWith alloc file)^[n] (call m)

/-! ## The branches of a step -/

variable {s : Loader} {m : Machine} {file : ℕ} {alloc : Machine.Allocator}

theorem stepWith_otherCommand (hpc : s.pc = .commands)
    (hi : s.i < commandCount s.machine.mem file)
    (hother : headType s.machine.mem (s.cmd file) ≠ cmdSegment) :
    stepWith alloc file s = s.nextCommand file := by
  unfold stepWith
  rw [hpc]
  dsimp only
  rw [if_pos hi, if_neg hother]

theorem stepWith_segment (hpc : s.pc = .commands) (hi : s.i < commandCount s.machine.mem file)
    (hsegment : headType s.machine.mem (s.cmd file) = cmdSegment) :
    stepWith alloc file s = { s with pc := .pages, offset := 0 } := by
  unfold stepWith
  rw [hpc]
  dsimp only
  rw [if_pos hi, if_pos hsegment]

theorem stepWith_lastCommand (hpc : s.pc = .commands)
    (hi : ¬ s.i < commandCount s.machine.mem file) :
    stepWith alloc file s = s.enterUserMode file alloc := by
  unfold stepWith
  rw [hpc]
  dsimp only
  rw [if_neg hi]

theorem stepWith_nextPage (hpc : s.pc = .pages)
    (hmore : s.offset < (segmentCmd s.machine.mem (s.cmd file)).memSize) :
    stepWith alloc file s =
      s.mapSegmentPage (segmentCmd s.machine.mem (s.cmd file)).rva alloc := by
  unfold stepWith
  rw [hpc]
  dsimp only
  rw [if_pos hmore]

theorem stepWith_pagesEnd (hpc : s.pc = .pages)
    (hend : ¬ s.offset < (segmentCmd s.machine.mem (s.cmd file)).memSize) :
    stepWith alloc file s = { s with pc := .fill } := by
  unfold stepWith
  rw [hpc]
  dsimp only
  rw [if_neg hend]

theorem stepWith_filled (hpc : s.pc = .fill)
    (hfill : s.machine.fillSegment file (s.cmd file) = some m) :
    stepWith alloc file s = { s with machine := m }.nextCommand file := by
  unfold stepWith
  rw [hpc]
  dsimp only
  rw [hfill]

/-- A command that is not a segment changes only the position in the file. -/
theorem step_otherCommand (hpc : s.pc = .commands) (hi : s.i < commandCount s.machine.mem file)
    (hother : headType s.machine.mem (s.cmd file) ≠ cmdSegment) :
    step file s = s.nextCommand file := stepWith_otherCommand hpc hi hother

theorem step_segment (hpc : s.pc = .commands) (hi : s.i < commandCount s.machine.mem file)
    (hsegment : headType s.machine.mem (s.cmd file) = cmdSegment) :
    step file s = { s with pc := .pages, offset := 0 } := stepWith_segment hpc hi hsegment

theorem step_lastCommand (hpc : s.pc = .commands)
    (hi : ¬ s.i < commandCount s.machine.mem file) : step file s = s.enterUserMode file :=
  stepWith_lastCommand hpc hi

theorem step_nextPage (hpc : s.pc = .pages)
    (hmore : s.offset < (segmentCmd s.machine.mem (s.cmd file)).memSize) :
    step file s = s.mapSegmentPage (segmentCmd s.machine.mem (s.cmd file)).rva :=
  stepWith_nextPage hpc hmore

theorem step_pagesEnd (hpc : s.pc = .pages)
    (hend : ¬ s.offset < (segmentCmd s.machine.mem (s.cmd file)).memSize) :
    step file s = { s with pc := .fill } := stepWith_pagesEnd hpc hend

theorem step_filled (hpc : s.pc = .fill)
    (hfill : s.machine.fillSegment file (s.cmd file) = some m) :
    step file s = { s with machine := m }.nextCommand file := stepWith_filled hpc hfill

end Loader

end BadOS.Kernel
