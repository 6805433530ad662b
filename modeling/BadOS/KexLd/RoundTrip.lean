import BadOS.KexLd.Linker
import Mathlib.Data.Nat.Bitwise

/-! # From ELF to KEX and back

The file that `kex-ld` writes, as the kernel's loader reads it, has the segments of
the ELF file, their data and the hash.
-/

namespace BadOS.KexLd

open Kex Memory

variable {input : List UInt8} {sha256 : List UInt8 → Vector UInt8 32} {uninit : ℕ → ℕ → UInt8}

/-! ## The parts of the output -/

/-- The segments to load, as the linker keeps them. -/
def segments (input : List UInt8) : List TempSeg := (Elf.loads input).map Phdr.tempSeg

/-- `hdr.cmd_size`. -/
def commandsSize (input : List UInt8) : ℕ :=
  (Elf.loads input).length * segmentCmdSize + integrityCmdSize

def commands (input : List UInt8) : List SegmentCmd :=
  prepareCommands 0 (alignUp (headerSize + commandsSize input)) (segments input)

/-- What precedes the integrity command. -/
def front (input : List UInt8) : List UInt8 :=
  kexHeader (kexArch (Elf.header input).machine) ((Elf.loads input).length + 1)
      (Elf.header input).entry headerSize (commandsSize input) ++
    (commands input).flatMap kexSegmentCmd

/-- The headers, the commands and the data, rounded up to pages, have sizes that do not
wrap in 64 bits. -/
def Fits (input : List UInt8) : Prop :=
  pageExtent (headerSize + commandsSize input) + dataExtent (segments input) < 2 ^ 64

theorem segments_length : (segments input).length = (Elf.loads input).length := List.length_map _

theorem commands_length : (commands input).length = (Elf.loads input).length :=
  prepareCommands_length.trans segments_length

theorem cmdSizeOf_segments : cmdSizeOf (segments input) = commandsSize input := by
  rw [cmdSizeOf, segments_length, commandsSize]

theorem commandsOf_segments : commandsOf (segments input) = commands input := by
  rw [commandsOf, cmdSizeOf_segments, commands]

theorem frontOf_segments : frontOf (Elf.header input) (segments input) = front input := by
  rw [frontOf, segments_length, cmdSizeOf_segments, commandsOf_segments, front]

theorem Fits.fitsOf (hfits : Fits input) : FitsOf (segments input) := by
  unfold FitsOf
  rwa [cmdSizeOf_segments]

theorem front_length :
    (front input).length = headerSize + (Elf.loads input).length * segmentCmdSize := by
  rw [← frontOf_segments, frontOf_length, segments_length]

theorem Elf.Valid.inside (hvalid : Elf.Valid input) : Inside input (segments input) := by
  intro seg hseg hsize
  obtain ⟨ph, hph, rfl⟩ := List.mem_map.mp hseg
  exact hvalid.loads_le ph hph hsize

/-- The data of a valid file is written. -/
theorem written_segments (hvalid : Elf.Valid input) :
    written input true ((segments input).zip (commands input)) =
      dataBlocks input ((segments input).zip (commands input)) := by
  refine written_eq_dataBlocks fun pair hpair hsize => ?_
  rw [← commandsOf_segments] at hpair
  obtain ⟨hseg, hfile⟩ := pair_eq hpair
  rw [hfile] at hsize ⊢
  exact hvalid.inside _ hseg hsize

/-- The data is placed behind the commands. -/
theorem commands_placed (hvalid : Elf.Valid input) (hfits : Fits input) :
    Placement.Ascending (headerSize + commandsSize input)
        (dataBlocks input ((segments input).zip (commands input))) ∧
      ∀ pair ∈ (segments input).zip (commands input),
        4096 ∣ pair.2.fileOffset ∧ pair.2.fileOffset < 2 ^ 64 := by
  have hplaced := commandsOf_placed hfits.fitsOf input true
  rwa [cmdSizeOf_segments, commandsOf_segments, written_segments hvalid] at hplaced

/-- The output, and the data in it. -/
theorem link_eq (sha256 : List UInt8 → Vector UInt8 32) (uninit : ℕ → ℕ → UInt8)
    (hvalid : Elf.Valid input) (hfits : Fits input) :
    ∃ rest, link sha256 uninit input =
        front input ++ kexIntegrityCmd (sha256 (front input)).toList ++ rest ∧
      ∀ block ∈ dataBlocks input ((segments input).zip (commands input)),
        ((link sha256 uninit input).drop block.1).take block.2.length = block.2 := by
  obtain ⟨elf, readable, hread, hreads, hsome⟩ := readElf_eq hvalid uninit
  obtain ⟨rest, -, hlink⟩ := link_eq_of_readElf sha256 hvalid.length_lt hread hreads
  rw [← segments, frontOf_segments] at hlink
  refine ⟨rest, hlink, fun block hblock => ?_⟩
  refine link_written sha256 hvalid.length_lt hread hreads hfits.fitsOf ?_
  rw [← segments, commandsOf_segments]
  have hloads : Elf.loads input ≠ [] := by
    intro hnone
    rw [segments, hnone] at hblock
    exact absurd hblock List.not_mem_nil
  rw [hsome hloads, written_segments hvalid]
  exact hblock

/-! ## What the loader reads -/

variable {mem : Memory} {file a : ℕ}

theorem kexHeader_read {arch count entry off size : ℕ}
    (h : mem.Holds file (kexHeader arch count entry off size)) (hcount : count < 2 ^ 32)
    (hoff : off < 2 ^ 64) (hsize : size < 2 ^ 64) :
    validMagic mem file = true ∧ commandCount mem file = count ∧ cmdOffset mem file = off ∧
      cmdSize mem file = size := by
  simp only [kexHeader, holds_append, List.length_append, length_encode, List.length_cons,
    List.length_nil, Nat.reduceAdd] at h
  obtain ⟨⟨⟨⟨⟨⟨⟨⟨hmagic, -⟩, -⟩, hcount'⟩, -⟩, -⟩, hoff'⟩, hsize'⟩, -⟩ := h
  refine ⟨?_, hcount'.load_encode hcount, hoff'.load_encode hoff, hsize'.load_encode hsize⟩
  have h₀ := hmagic 0 (by decide)
  have h₁ := hmagic 1 (by decide)
  have h₂ := hmagic 2 (by decide)
  have h₃ := hmagic 3 (by decide)
  rw [Nat.add_zero] at h₀
  simp [validMagic, h₀, h₁, h₂, h₃]

/-- The fields of a command fit. -/
structure FieldsFit (ks : SegmentCmd) : Prop where
  segmentIndex_lt : ks.segmentIndex < 2 ^ 32
  flags_lt : ks.flags < 2 ^ 32
  rva_lt : ks.rva < 2 ^ 64
  memSize_lt : ks.memSize < 2 ^ 64
  fileOffset_lt : ks.fileOffset < 2 ^ 64
  fileSize_lt : ks.fileSize < 2 ^ 64
  alignment_lt : ks.alignment < 2 ^ 64

theorem kexSegmentCmd_read {ks : SegmentCmd} (h : mem.Holds a (kexSegmentCmd ks))
    (hfit : FieldsFit ks) :
    headType mem a = cmdSegment ∧ headSize mem a = segmentCmdSize ∧ segmentCmd mem a = ks := by
  simp only [kexSegmentCmd, holds_append, List.length_append, length_encode,
    Nat.reduceAdd] at h
  obtain ⟨⟨⟨⟨⟨⟨⟨⟨⟨htype, hsize⟩, hindex⟩, hflags⟩, hrva⟩, hmemSize⟩, hfileOffset⟩, hfileSize⟩,
    halignment⟩, -⟩ := h
  refine ⟨htype.load_encode (by decide), hsize.load_encode (by decide), ?_⟩
  unfold segmentCmd
  rw [hindex.load_encode hfit.segmentIndex_lt, hflags.load_encode hfit.flags_lt,
    hrva.load_encode hfit.rva_lt, hmemSize.load_encode hfit.memSize_lt,
    hfileOffset.load_encode hfit.fileOffset_lt, hfileSize.load_encode hfit.fileSize_lt,
    halignment.load_encode hfit.alignment_lt]

theorem kexIntegrityCmd_read {hash : List UInt8} (h : mem.Holds a (kexIntegrityCmd hash)) :
    headType mem a = cmdIntegrity ∧ headSize mem a = integrityCmdSize ∧
      mem.bytes (a + 8) hash.length = hash := by
  simp only [kexIntegrityCmd, holds_append, List.length_append, length_encode,
    Nat.reduceAdd] at h
  obtain ⟨⟨htype, hsize⟩, hhash⟩ := h
  exact ⟨htype.load_encode (by decide), hsize.load_encode (by decide), hhash.bytes_eq⟩

/-! ## The commands -/

theorem kexFlags_testBit (flags : ℕ) :
    (kexFlags flags).testBit 0 = flags.testBit 2 ∧ (kexFlags flags).testBit 1 = flags.testBit 1 ∧
      (kexFlags flags).testBit 2 = flags.testBit 0 ∧ kexFlags flags < 8 := by
  have h₄ := Nat.and_two_pow flags 2
  have h₂ := Nat.and_two_pow flags 1
  have h₁ := Nat.and_two_pow flags 0
  simp only [Nat.reducePow] at h₄ h₂ h₁
  unfold kexFlags
  rw [h₄, h₂, h₁]
  cases flags.testBit 0 <;> cases flags.testBit 1 <;> cases flags.testBit 2 <;> decide

/-- The command of segment `i`, the data of which is at `off`. -/
def placedCommand (ph : Phdr) (i off : ℕ) : SegmentCmd :=
  { ph.tempSeg.command i with fileOffset := off }

theorem commandsOf_getElem? {segs : List TempSeg} (hfits : FitsOf segs)
    (hcount : segs.length < 2 ^ 16) {i : ℕ} {ph : Phdr} (hseg : segs[i]? = some ph.tempSeg)
    (hph : ph.vaddr < 2 ^ 64 ∧ ph.memsz < 2 ^ 64 ∧ ph.filesz < 2 ^ 64) :
    ∃ off, 4096 ∣ off ∧ FieldsFit (placedCommand ph i off) ∧
      (segs.zip (commandsOf segs))[i]? = some (ph.tempSeg, placedCommand ph i off) ∧
      (commandsOf segs)[i]? = some (placedCommand ph i off) := by
  obtain ⟨hi, hget⟩ := List.getElem?_eq_some_iff.mp hseg
  obtain ⟨off, hcommand⟩ := @prepareCommands_getElem? segs 0
    (alignUp (headerSize + cmdSizeOf segs)) i hi
  rw [hget, Nat.zero_add] at hcommand
  have hzip : (segs.zip (commandsOf segs))[i]? = some (ph.tempSeg, placedCommand ph i off) :=
    List.getElem?_zip_eq_some.mpr ⟨hseg, hcommand⟩
  obtain ⟨hdvd, hlt⟩ := (commandsOf_placed hfits [] true).2 _ (List.mem_of_getElem? hzip)
  obtain ⟨hvaddr, hmemsz, hfilesz⟩ := hph
  refine ⟨off, hdvd, ⟨?_, ?_, hvaddr, hmemsz, hlt, hfilesz, ?_⟩, hzip, hcommand⟩
  · exact (hi.trans hcount).trans (by decide)
  · exact (kexFlags_testBit _).2.2.2.trans (by decide)
  · exact (by decide : 4096 < 2 ^ 64)

theorem commands_getElem? (hfits : Fits input) {i : ℕ} (hi : i < (Elf.loads input).length) :
    ∃ off, 4096 ∣ off ∧ FieldsFit (placedCommand (Elf.loads input)[i] i off) ∧
      ((segments input).zip (commands input))[i]? =
        some ((Elf.loads input)[i].tempSeg, placedCommand (Elf.loads input)[i] i off) ∧
      (commands input)[i]? = some (placedCommand (Elf.loads input)[i] i off) := by
  have hsegment : (segments input)[i]? = some (Elf.loads input)[i].tempSeg := by
    rw [segments, List.getElem?_map, List.getElem?_eq_getElem hi]
    rfl
  rw [← commandsOf_segments]
  exact commandsOf_getElem? hfits.fitsOf (segments_length ▸ Elf.loads_length_lt input) hsegment
    (Elf.lt_of_mem_loads (List.getElem_mem hi))

/-! ## The walk over the commands -/

/-- What stands where in a memory that holds the header and the segment commands. -/
theorem holds_frontOf {ehdr : Ehdr} {segs : List TempSeg}
    (hfront : mem.Holds file (frontOf ehdr segs)) :
    mem.Holds file (kexHeader (kexArch ehdr.machine) (segs.length + 1) ehdr.entry headerSize
        (cmdSizeOf segs)) ∧
      ∀ i (hi : i < (commandsOf segs).length),
        mem.Holds (file + (headerSize + segmentCmdSize * i))
          (kexSegmentCmd (commandsOf segs)[i]) := by
  rw [frontOf, holds_append, kexHeader_length] at hfront
  refine ⟨hfront.1, fun i hi => ?_⟩
  rw [← Nat.add_assoc]
  exact hfront.2.flatMap (fun ks _ => kexSegmentCmd_length ks) hi

/-- What stands where in a memory that holds the output. -/
theorem holds_link (hvalid : Elf.Valid input) (hfits : Fits input)
    (hfile : mem.Holds file (link sha256 uninit input)) :
    mem.Holds file (kexHeader (kexArch (Elf.header input).machine) ((Elf.loads input).length + 1)
        (Elf.header input).entry headerSize (commandsSize input)) ∧
      (∀ i (hi : i < (commands input).length),
        mem.Holds (file + (headerSize + segmentCmdSize * i)) (kexSegmentCmd (commands input)[i])) ∧
      mem.Holds (file + (headerSize + segmentCmdSize * (Elf.loads input).length))
        (kexIntegrityCmd (sha256 (front input)).toList) ∧
      headerSize + commandsSize input ≤ (link sha256 uninit input).length ∧
      (link sha256 uninit input).take (front input).length = front input := by
  obtain ⟨rest, hlink, -⟩ := link_eq sha256 uninit hvalid hfits
  have hlength := @front_length input
  have htake : (link sha256 uninit input).take (front input).length = front input := by
    rw [hlink, List.append_assoc, List.take_left]
  have hle : headerSize + commandsSize input ≤ (link sha256 uninit input).length := by
    rw [hlink, List.length_append, List.length_append,
      kexIntegrityCmd_length Vector.length_toList, hlength, commandsSize]
    omega
  rw [hlink, holds_append, holds_append, hlength] at hfile
  obtain ⟨⟨hfront, hintegrity⟩, -⟩ := hfile
  rw [← frontOf_segments] at hfront
  obtain ⟨hheader, hcommands⟩ := holds_frontOf hfront
  rw [segments_length, cmdSizeOf_segments] at hheader
  simp only [commandsOf_segments] at hcommands
  refine ⟨hheader, hcommands, ?_, hle, htake⟩
  rw [Nat.mul_comm segmentCmdSize]
  exact hintegrity

theorem command_read (hvalid : Elf.Valid input) (hfits : Fits input)
    (hfile : mem.Holds file (link sha256 uninit input)) {i : ℕ}
    (hi : i < (Elf.loads input).length) :
    ∃ off, 4096 ∣ off ∧
      ((segments input).zip (commands input))[i]? =
        some ((Elf.loads input)[i].tempSeg, placedCommand (Elf.loads input)[i] i off) ∧
      headType mem (file + (headerSize + segmentCmdSize * i)) = cmdSegment ∧
      headSize mem (file + (headerSize + segmentCmdSize * i)) = segmentCmdSize ∧
      segmentCmd mem (file + (headerSize + segmentCmdSize * i)) =
        placedCommand (Elf.loads input)[i] i off := by
  obtain ⟨off, hdvd, hfit, hzip, hcommand⟩ := commands_getElem? hfits hi
  have hi' : i < (commands input).length := commands_length.symm ▸ hi
  have hholds := (holds_link hvalid hfits hfile).2.1 i hi'
  rw [(List.getElem_eq_iff hi').mpr hcommand] at hholds
  exact ⟨off, hdvd, hzip, kexSegmentCmd_read hholds hfit⟩

theorem header_read (hvalid : Elf.Valid input) (hfits : Fits input)
    (hfile : mem.Holds file (link sha256 uninit input)) :
    validMagic mem file = true ∧ commandCount mem file = (Elf.loads input).length + 1 ∧
      cmdOffset mem file = headerSize ∧ cmdSize mem file = commandsSize input := by
  have hcount := Elf.loads_length_lt input
  refine kexHeader_read (holds_link hvalid hfits hfile).1 (by omega) (by decide) ?_
  unfold commandsSize segmentCmdSize integrityCmdSize
  omega

/-- The commands are inside the memory. -/
theorem command_lt (hvalid : Elf.Valid input) (hfits : Fits input)
    (hfile : mem.Holds file (link sha256 uninit input))
    (hmemory : file + (link sha256 uninit input).length ≤ 2 ^ 64) {i : ℕ}
    (hi : i ≤ (Elf.loads input).length) :
    file + (headerSize + segmentCmdSize * i) < 2 ^ 64 := by
  obtain ⟨-, -, -, hle, -⟩ := holds_link hvalid hfits hfile
  unfold commandsSize segmentCmdSize integrityCmdSize at hle
  unfold segmentCmdSize
  omega

theorem commandOffset_eq (hvalid : Elf.Valid input) (hfits : Fits input)
    (hfile : mem.Holds file (link sha256 uninit input))
    (hmemory : file + (link sha256 uninit input).length ≤ 2 ^ 64) {i : ℕ}
    (hi : i ≤ (Elf.loads input).length) :
    commandOffset mem file i = headerSize + segmentCmdSize * i := by
  induction i with
  | zero => exact (header_read hvalid hfits hfile).2.2.1
  | succ i ih =>
      have hlt := command_lt hvalid hfits hfile hmemory hi
      have hpointer := Nat.mod_eq_of_lt
        (command_lt hvalid hfits hfile hmemory (Nat.le_of_succ_le hi))
      obtain ⟨-, -, -, -, hsize, -⟩ := command_read hvalid hfits hfile hi
      rw [commandOffset, ih (Nat.le_of_succ_le hi), nextOffset, pointer, hpointer, hsize,
        Nat.add_assoc, ← Nat.mul_succ]
      exact Nat.mod_eq_of_lt ((Nat.le_add_left _ _).trans_lt hlt)

/-- Where the loader finds command `i`. -/
theorem commandAt_eq (hvalid : Elf.Valid input) (hfits : Fits input)
    (hfile : mem.Holds file (link sha256 uninit input))
    (hmemory : file + (link sha256 uninit input).length ≤ 2 ^ 64) {i : ℕ}
    (hi : i ≤ (Elf.loads input).length) :
    commandAt mem file i = file + (headerSize + segmentCmdSize * i) := by
  rw [commandAt, commandOffset_eq hvalid hfits hfile hmemory hi]
  exact Nat.mod_eq_of_lt (command_lt hvalid hfits hfile hmemory hi)

/-! ## The round trip -/

/-- The address, the sizes and the permissions of a program header: R, W and X are the
bits 2, 1 and 0 there, and the bits 0, 1 and 2 of a command's flags. -/
structure SegmentOf (ph : Phdr) (seg : SegmentCmd) : Prop where
  rva_eq : seg.rva = ph.vaddr
  memSize_eq : seg.memSize = ph.memsz
  fileSize_eq : seg.fileSize = ph.filesz
  read_eq : seg.flags.testBit 0 = ph.flags.testBit 2
  write_eq : seg.flags.testBit 1 = ph.flags.testBit 1
  execute_eq : seg.flags.testBit 2 = ph.flags.testBit 0
  flags_lt : seg.flags < 8

/-- The data of a segment is that of the ELF file, on a page boundary behind the
commands. -/
structure DataOf (input output : List UInt8) (ph : Phdr) (seg : SegmentCmd) (start : ℕ) :
    Prop where
  aligned : 4096 ∣ seg.fileOffset
  start_le : start ≤ seg.fileOffset
  inside : seg.fileOffset + seg.fileSize ≤ output.length
  data_eq : (output.drop seg.fileOffset).take seg.fileSize =
    (input.drop ph.offset).take ph.filesz

/-- A file in memory, as the loader walks over its commands, is the one for an ELF
file: one segment for each `PT_LOAD` header, then the integrity command. -/
structure LinkedFrom (sha256 : List UInt8 → Vector UInt8 32) (input output : List UInt8)
    (mem : Memory) (file : ℕ) : Prop where
  magic : validMagic mem file = true
  count : commandCount mem file = (Elf.loads input).length + 1
  segment : ∀ i (hi : i < (Elf.loads input).length),
    IsSegment mem file i ∧ SegmentOf (Elf.loads input)[i] (segmentAt mem file i)
  integrity : headType mem (commandAt mem file (Elf.loads input).length) = cmdIntegrity
  header_le : headerSize ≤ cmdOffset mem file
  ending : commandOffset mem file (commandCount mem file) =
    cmdOffset mem file + cmdSize mem file
  data : ∀ i (hi : i < (Elf.loads input).length), 0 < (segmentAt mem file i).fileSize →
    DataOf input output (Elf.loads input)[i] (segmentAt mem file i)
      (cmdOffset mem file + cmdSize mem file)
  disjoint : ∀ i j, i < j → j < (Elf.loads input).length →
    0 < (segmentAt mem file i).fileSize → 0 < (segmentAt mem file j).fileSize →
    (segmentAt mem file i).fileOffset + (segmentAt mem file i).fileSize ≤
      (segmentAt mem file j).fileOffset
  hash : mem.bytes (commandAt mem file (Elf.loads input).length + 8) 32 =
    (sha256 (output.take (commandOffset mem file (Elf.loads input).length))).toList

theorem segmentOf_placedCommand (ph : Phdr) (i off : ℕ) : SegmentOf ph (placedCommand ph i off) :=
  let ⟨hread, hwrite, hexecute, hlt⟩ := kexFlags_testBit ph.flags
  ⟨rfl, rfl, rfl, hread, hwrite, hexecute, hlt⟩

/-- Planned segments follow one another. -/
theorem placedCommand_le (hvalid : Elf.Valid input) (hfits : Fits input) {i j : ℕ} (hij : i < j)
    {ks ks' : SegmentCmd} {seg seg' : TempSeg}
    (hi : ((segments input).zip (commands input))[i]? = some (seg, ks))
    (hj : ((segments input).zip (commands input))[j]? = some (seg', ks'))
    (hsize : 0 < ks.fileSize) (hsize' : 0 < ks'.fileSize) :
    ks.fileOffset + ((input.drop seg.off).take ks.fileSize).length ≤ ks'.fileOffset := by
  have hpairwise := (commands_placed hvalid hfits).1.pairwise
  unfold dataBlocks at hpairwise
  rw [List.pairwise_filterMap, List.pairwise_iff_getElem] at hpairwise
  obtain ⟨hi', hi⟩ := List.getElem?_eq_some_iff.mp hi
  obtain ⟨hj', hj⟩ := List.getElem?_eq_some_iff.mp hj
  have hordered := hpairwise i j hi' hj' hij
  rw [hi, hj] at hordered
  exact hordered _ (if_pos hsize) _ (if_pos hsize')

/-- What the loader reads as segment `i`. -/
theorem segmentAt_eq (hvalid : Elf.Valid input) (hfits : Fits input)
    (hfile : mem.Holds file (link sha256 uninit input))
    (hmemory : file + (link sha256 uninit input).length ≤ 2 ^ 64) {i : ℕ}
    (hi : i < (Elf.loads input).length) :
    ∃ off, 4096 ∣ off ∧ IsSegment mem file i ∧
      segmentAt mem file i = placedCommand (Elf.loads input)[i] i off ∧
      ((segments input).zip (commands input))[i]? =
        some ((Elf.loads input)[i].tempSeg, placedCommand (Elf.loads input)[i] i off) := by
  obtain ⟨off, hdvd, hzip, htype, -, hsegment⟩ := command_read hvalid hfits hfile hi
  have hat := commandAt_eq hvalid hfits hfile hmemory hi.le
  refine ⟨off, hdvd, ?_, ?_, hzip⟩
  · rw [IsSegment, hat]
    exact htype
  · rw [segmentAt, hat]
    exact hsegment

theorem length_data (hvalid : Elf.Valid input) {ph : Phdr} (hph : ph ∈ Elf.loads input)
    (hsize : 0 < ph.filesz) : ((input.drop ph.offset).take ph.filesz).length = ph.filesz := by
  have hle := hvalid.loads_le ph hph hsize
  rw [List.length_take, List.length_drop]
  omega

/-- The data of a planned segment in the output. -/
theorem placedCommand_data (hvalid : Elf.Valid input) (hfits : Fits input) {ph : Phdr} {i off : ℕ}
    (hph : ph ∈ Elf.loads input) (hdvd : 4096 ∣ off)
    (hpair : (ph.tempSeg, placedCommand ph i off) ∈ (segments input).zip (commands input))
    (hsize : 0 < ph.filesz) :
    DataOf input (link sha256 uninit input) ph (placedCommand ph i off)
      (headerSize + commandsSize input) := by
  obtain ⟨-, -, hblocks⟩ := link_eq sha256 uninit hvalid hfits
  have hblock : (off, (input.drop ph.offset).take ph.filesz) ∈
      dataBlocks input ((segments input).zip (commands input)) :=
    List.mem_filterMap.mpr ⟨_, hpair, if_pos hsize⟩
  have hdata := hblocks _ hblock
  dsimp only at hdata
  have hlength := congrArg List.length hdata
  rw [length_data hvalid hph hsize] at hdata hlength
  rw [List.length_take, List.length_drop] at hlength
  refine ⟨hdvd, (commands_placed hvalid hfits).1.le_of_mem hblock, ?_, hdata⟩
  change off + ph.filesz ≤ _
  omega

/-- `kex-ld` writes, for every valid ELF file, a file in which the loader finds exactly
the segments, their data and the hash. -/
theorem link_linkedFrom (hvalid : Elf.Valid input) (hfits : Fits input)
    (hfile : mem.Holds file (link sha256 uninit input))
    (hmemory : file + (link sha256 uninit input).length ≤ 2 ^ 64) :
    LinkedFrom sha256 input (link sha256 uninit input) mem file := by
  obtain ⟨hmagic, hcount, hoffset, hsize⟩ := header_read hvalid hfits hfile
  obtain ⟨-, -, hintegrity, -, htake⟩ := holds_link hvalid hfits hfile
  obtain ⟨htype, hlast, hhash⟩ := kexIntegrityCmd_read hintegrity
  rw [Vector.length_toList] at hhash
  have hat := commandAt_eq hvalid hfits hfile hmemory le_rfl
  have hwalk := commandOffset_eq hvalid hfits hfile hmemory le_rfl
  refine ⟨hmagic, hcount, fun i hi => ?_, ?_, hoffset.ge, ?_, fun i hi hpositive => ?_,
    fun i j hij hj hpositive hpositive' => ?_, ?_⟩
  · obtain ⟨off, -, hsegment, heq, -⟩ := segmentAt_eq hvalid hfits hfile hmemory hi
    exact ⟨hsegment, heq ▸ segmentOf_placedCommand _ i off⟩
  · rw [hat]
    exact htype
  · have hpointer : pointer file (headerSize + segmentCmdSize * (Elf.loads input).length) =
        file + (headerSize + segmentCmdSize * (Elf.loads input).length) :=
      Nat.mod_eq_of_lt (command_lt hvalid hfits hfile hmemory le_rfl)
    have hloads := Elf.loads_length_lt input
    rw [hcount, hoffset, hsize, commandOffset, nextOffset, hwalk, hpointer, hlast]
    unfold commandsSize headerSize segmentCmdSize integrityCmdSize
    omega
  · obtain ⟨off, hdvd, -, heq, hzip⟩ := segmentAt_eq hvalid hfits hfile hmemory hi
    rw [heq] at hpositive ⊢
    rw [hoffset, hsize]
    exact placedCommand_data hvalid hfits (List.getElem_mem hi) hdvd (List.mem_of_getElem? hzip)
      hpositive
  · obtain ⟨off, -, -, heq, hzip⟩ := segmentAt_eq hvalid hfits hfile hmemory (hij.trans hj)
    obtain ⟨off', -, -, heq', hzip'⟩ := segmentAt_eq hvalid hfits hfile hmemory hj
    rw [heq] at hpositive ⊢
    rw [heq'] at hpositive' ⊢
    have hle := placedCommand_le hvalid hfits hij hzip hzip' hpositive hpositive'
    have hlength := length_data hvalid (List.getElem_mem (hij.trans hj)) hpositive
    exact (congrArg (off + ·) hlength).symm.trans_le hle
  · rw [hwalk, hat, Nat.mul_comm segmentCmdSize, ← front_length, htake]
    rw [front_length, Nat.mul_comm _ segmentCmdSize]
    exact hhash

/-- A 64-bit ELF file with three bytes of code and a segment without data. -/
def tinyElf : List UInt8 :=
  [0x7F, 0x45, 0x4C, 0x46, 2, 1, 1, 0] ++ List.replicate 8 0 ++ encode 2 2 ++ encode 2 62 ++
    encode 4 1 ++ encode 8 0x400000 ++ encode 8 64 ++ encode 8 0 ++ encode 4 0 ++ encode 2 64 ++
    encode 2 56 ++ encode 2 2 ++ encode 6 0 ++
    (encode 4 1 ++ encode 4 5 ++ encode 8 176 ++ encode 8 0x400000 ++ encode 8 0 ++ encode 8 3 ++
      encode 8 0x2000 ++ encode 8 0x1000) ++
    (encode 4 1 ++ encode 4 6 ++ encode 8 0 ++ encode 8 0x402000 ++ encode 8 0 ++ encode 8 0 ++
      encode 8 0x1000 ++ encode 8 0x1000) ++ [0x31, 0xC0, 0xC3]

/-- The SHA-256 digest of the header and the segment commands for `tinyElf`. -/
def tinyDigest : Vector UInt8 32 :=
  #v[0xa1, 0x40, 0xbe, 0xdf, 0xef, 0xf1, 0x28, 0x29, 0xcc, 0x1c, 0x36, 0x39, 0xbc, 0x57, 0xcb,
    0x6c, 0x6a, 0xad, 0x16, 0x2e, 0xbe, 0x78, 0xa5, 0x36, 0x7f, 0xc1, 0x37, 0x68, 0x9f, 0x52,
    0x97, 0xe5]

theorem tinyElf_valid : Elf.Valid tinyElf where
  length_lt := by decide +kernel
  header_le := by decide +kernel
  phentsize_eq := by decide
  table_le := by decide +kernel
  loads_le := by decide +kernel

theorem tinyElf_fits : Fits tinyElf := by
  unfold Fits
  decide

theorem tinyElf_linkedFrom :
    LinkedFrom (fun _ => tinyDigest) tinyElf
      (link (fun _ => tinyDigest) (fun _ _ => 0) tinyElf)
      (Memory.ofList (link (fun _ => tinyDigest) (fun _ _ => 0) tinyElf)) 0 :=
  link_linkedFrom tinyElf_valid tinyElf_fits (Memory.holds_ofList _) (by decide +kernel)

end BadOS.KexLd
