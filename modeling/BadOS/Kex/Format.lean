import BadOS.Foundation.ByteMemory

/-! # The KEX format

The packed structures of `kex.h`, read at an address. A file is a header and a
sequence of commands, each of which gives its own size.
-/

namespace BadOS.Kex

/-- `sizeof(kex_header)`. -/
def headerSize : ℕ := 56

/-- `sizeof(kex_segment_cmd)`. -/
def segmentCmdSize : ℕ := 64

/-- `sizeof(kex_integrity_cmd)`. -/
def integrityCmdSize : ℕ := 40

/-- `KEX_CMD_SEGMENT`. -/
def cmdSegment : ℕ := 1

/-- `KEX_CMD_INTEGRITY`. -/
def cmdIntegrity : ℕ := 6

/-! ## Header -/

/-- `hdr->magic` is `KEX\0`. -/
def validMagic (mem : Memory) (hdr : ℕ) : Bool :=
  mem hdr = 75 && mem (hdr + 1) = 69 && mem (hdr + 2) = 88 && mem (hdr + 3) = 0

def commandCount (mem : Memory) (hdr : ℕ) : ℕ := mem.load (hdr + 8) 4

def entryRva (mem : Memory) (hdr : ℕ) : ℕ := mem.load (hdr + 16) 8

def cmdOffset (mem : Memory) (hdr : ℕ) : ℕ := mem.load (hdr + 24) 8

def cmdSize (mem : Memory) (hdr : ℕ) : ℕ := mem.load (hdr + 32) 8

/-! ## Commands -/

def headType (mem : Memory) (cmd : ℕ) : ℕ := mem.load cmd 4

def headSize (mem : Memory) (cmd : ℕ) : ℕ := mem.load (cmd + 4) 4

structure SegmentCmd where
  segmentIndex : ℕ
  flags : ℕ
  rva : ℕ
  memSize : ℕ
  fileOffset : ℕ
  fileSize : ℕ
  alignment : ℕ
deriving DecidableEq

def segmentCmd (mem : Memory) (cmd : ℕ) : SegmentCmd where
  segmentIndex := mem.load (cmd + 8) 4
  flags := mem.load (cmd + 12) 4
  rva := mem.load (cmd + 16) 8
  memSize := mem.load (cmd + 24) 8
  fileOffset := mem.load (cmd + 32) 8
  fileSize := mem.load (cmd + 40) 8
  alignment := mem.load (cmd + 48) 8

/-- A pointer into the file, computed in 64 bits. -/
def pointer (file offset : ℕ) : ℕ := (file + offset) % 2 ^ 64

/-- `current_offset` after a command. -/
def nextOffset (mem : Memory) (file offset : ℕ) : ℕ :=
  (offset + headSize mem (pointer file offset)) % 2 ^ 64

/-- `current_offset` at command `i`. -/
def commandOffset (mem : Memory) (file : ℕ) : ℕ → ℕ
  | 0 => cmdOffset mem file
  | i + 1 => nextOffset mem file (commandOffset mem file i)

def commandAt (mem : Memory) (file i : ℕ) : ℕ := pointer file (commandOffset mem file i)

def IsSegment (mem : Memory) (file i : ℕ) : Prop :=
  headType mem (commandAt mem file i) = cmdSegment

instance (mem : Memory) (file i : ℕ) : Decidable (IsSegment mem file i) :=
  inferInstanceAs (Decidable (_ = _))

/-- The segment described by command `i`. -/
def segmentAt (mem : Memory) (file i : ℕ) : SegmentCmd := segmentCmd mem (commandAt mem file i)

/-- The header and the commands lie inside the `len` bytes of the file. -/
structure CommandsInside (mem : Memory) (file len : ℕ) : Prop where
  inMemory : file + len ≤ 2 ^ 64
  header : headerSize ≤ len
  command : ∀ i < commandCount mem file, commandOffset mem file i + 8 ≤ len
  segment : ∀ i < commandCount mem file, IsSegment mem file i →
    commandOffset mem file i + segmentCmdSize ≤ len

variable {mem mem' : Memory} {file len i cmd : ℕ}

/-! ## Memories that agree on the file -/

/-- The bytes of the file are the same. -/
def SameFile (mem mem' : Memory) (file len : ℕ) : Prop :=
  ∀ x, file ≤ x → x < file + len → mem' x = mem x

theorem SameFile.load_eq (hsame : SameFile mem mem' file len) {a n : ℕ} (hlo : file ≤ a)
    (hhi : a + n ≤ file + len) : mem'.load a n = mem.load a n := by
  apply Memory.load_congr
  intro k hk
  exact hsame (a + k) (by omega) (by omega)

theorem SameFile.validMagic_eq (hsame : SameFile mem mem' file len) (hlen : headerSize ≤ len) :
    validMagic mem' file = validMagic mem file := by
  unfold headerSize at hlen
  have hbyte : ∀ k < 4, mem' (file + k) = mem (file + k) :=
    fun k hk => hsame (file + k) (by omega) (by omega)
  have hfirst : mem' file = mem file := hbyte 0 (by decide)
  unfold validMagic
  rw [hfirst, hbyte 1 (by decide), hbyte 2 (by decide), hbyte 3 (by decide)]

theorem SameFile.commandCount_eq (hsame : SameFile mem mem' file len) (hlen : headerSize ≤ len) :
    commandCount mem' file = commandCount mem file := by
  unfold headerSize at hlen
  exact hsame.load_eq (by omega) (by omega)

theorem SameFile.entryRva_eq (hsame : SameFile mem mem' file len) (hlen : headerSize ≤ len) :
    entryRva mem' file = entryRva mem file := by
  unfold headerSize at hlen
  exact hsame.load_eq (by omega) (by omega)

theorem SameFile.cmdOffset_eq (hsame : SameFile mem mem' file len) (hlen : headerSize ≤ len) :
    cmdOffset mem' file = cmdOffset mem file := by
  unfold headerSize at hlen
  exact hsame.load_eq (by omega) (by omega)

/-- Inside the file a pointer does not wrap. -/
theorem CommandsInside.commandAt_eq (hfile : CommandsInside mem file len)
    (hi : i < commandCount mem file) :
    commandAt mem file i = file + commandOffset mem file i := by
  have hmemory := hfile.inMemory
  have hcommand := hfile.command i hi
  unfold commandAt pointer
  exact Nat.mod_eq_of_lt (by omega)

theorem SameFile.headType_eq (hsame : SameFile mem mem' file len)
    (hfile : CommandsInside mem file len) (hi : i < commandCount mem file) :
    headType mem' (commandAt mem file i) = headType mem (commandAt mem file i) := by
  have hcommand := hfile.command i hi
  rw [hfile.commandAt_eq hi]
  exact hsame.load_eq (by omega) (by omega)

theorem SameFile.nextOffset_eq (hsame : SameFile mem mem' file len)
    (hfile : CommandsInside mem file len) (hi : i < commandCount mem file) :
    nextOffset mem' file (commandOffset mem file i) = commandOffset mem file (i + 1) := by
  have hcommand := hfile.command i hi
  have hat := hfile.commandAt_eq hi
  unfold commandAt at hat
  rw [commandOffset, nextOffset, nextOffset, hat]
  unfold headSize
  rw [hsame.load_eq (by omega) (by omega)]

/-- A command is read from its own bytes. -/
theorem segmentCmd_congr {mem mem' : Memory} {cmd : ℕ}
    (hsame : SameFile mem mem' cmd segmentCmdSize) : segmentCmd mem' cmd = segmentCmd mem cmd := by
  have hload : ∀ k n, k + n ≤ 64 → mem'.load (cmd + k) n = mem.load (cmd + k) n := by
    intro k n hkn
    apply hsame.load_eq (by omega)
    unfold segmentCmdSize
    omega
  unfold segmentCmd
  rw [hload 8 4 (by decide), hload 12 4 (by decide), hload 16 8 (by decide),
    hload 24 8 (by decide), hload 32 8 (by decide), hload 40 8 (by decide),
    hload 48 8 (by decide)]

theorem SameFile.segmentCmd_eq (hsame : SameFile mem mem' file len)
    (hfile : CommandsInside mem file len) (hi : i < commandCount mem file)
    (hsegment : IsSegment mem file i) :
    segmentCmd mem' (commandAt mem file i) = segmentAt mem file i := by
  have hcommand := hfile.segment i hi hsegment
  rw [segmentAt, hfile.commandAt_eq hi]
  exact segmentCmd_congr fun x hlo hhi => hsame x (by omega) (by omega)

theorem SameFile.commandOffset_eq (hsame : SameFile mem mem' file len)
    (hfile : CommandsInside mem file len) (hi : i ≤ commandCount mem file) :
    commandOffset mem' file i = commandOffset mem file i := by
  induction i with
  | zero => exact hsame.cmdOffset_eq hfile.header
  | succ i ih => rw [commandOffset, ih (by omega), hsame.nextOffset_eq hfile hi]

theorem SameFile.commandAt_eq (hsame : SameFile mem mem' file len)
    (hfile : CommandsInside mem file len) (hi : i < commandCount mem file) :
    commandAt mem' file i = commandAt mem file i := by
  unfold commandAt
  rw [hsame.commandOffset_eq hfile (by omega)]

theorem SameFile.isSegment_iff (hsame : SameFile mem mem' file len)
    (hfile : CommandsInside mem file len) (hi : i < commandCount mem file) :
    IsSegment mem' file i ↔ IsSegment mem file i := by
  unfold IsSegment
  rw [hsame.commandAt_eq hfile hi, hsame.headType_eq hfile hi]

theorem SameFile.segmentAt_eq (hsame : SameFile mem mem' file len)
    (hfile : CommandsInside mem file len) (hi : i < commandCount mem file)
    (hsegment : IsSegment mem file i) : segmentAt mem' file i = segmentAt mem file i := by
  rw [segmentAt, hsame.commandAt_eq hfile hi, hsame.segmentCmd_eq hfile hi hsegment]

theorem SameFile.commandsInside (hsame : SameFile mem mem' file len)
    (hfile : CommandsInside mem file len) : CommandsInside mem' file len := by
  have hcount := hsame.commandCount_eq hfile.header
  refine ⟨hfile.inMemory, hfile.header, fun i hi => ?_, fun i hi hsegment => ?_⟩ <;>
    rw [hcount] at hi <;> rw [hsame.commandOffset_eq hfile hi.le]
  · exact hfile.command i hi
  · exact hfile.segment i hi ((hsame.isSegment_iff hfile hi).mp hsegment)

end BadOS.Kex
