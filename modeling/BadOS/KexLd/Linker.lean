import BadOS.Foundation.Placement
import BadOS.Kex.Format
import BadOS.KexLd.Elf

/-! # The KEX linker

The second half of `kex-ld`: it plans where the data of every segment goes, writes the
header, the commands and the data, hashes what precedes the integrity command and
patches the hash in.
-/

namespace BadOS.KexLd

open Kex Memory

/-! ## Planning -/

/-- `(x + 4095) & ~4095` in 64 bits. -/
def alignUp (x : ℕ) : ℕ := (x + 4095) % 2 ^ 64 - (x + 4095) % 2 ^ 64 % 4096

/-- `hdr.arch` for `EM_X86_64`, `EM_386` and the others. -/
def kexArch (machine : ℕ) : ℕ :=
  if machine = 62 then 1 else if machine = 3 then 0x8001 else 0xFFFF

/-- From `PF_R`, `PF_W` and `PF_X` to R=1, W=2, X=4. -/
def kexFlags (flags : ℕ) : ℕ :=
  (if flags &&& 4 ≠ 0 then 0x1 else 0) ||| (if flags &&& 2 ≠ 0 then 0x2 else 0) |||
    (if flags &&& 1 ≠ 0 then 0x4 else 0)

/-- The command of segment `i`, without a place in the file. -/
def TempSeg.command (seg : TempSeg) (i : ℕ) : SegmentCmd where
  segmentIndex := i
  flags := kexFlags seg.flags
  rva := seg.vaddr
  memSize := seg.memsz
  fileOffset := 0
  fileSize := seg.filesz
  alignment := 4096

/-- The loop that prepares the commands; `pos` is `current_file_pos`. -/
def prepareCommands (i pos : ℕ) : List TempSeg → List SegmentCmd
  | [] => []
  | seg :: segs =>
      if 0 < seg.filesz then
        { seg.command i with fileOffset := pos } ::
          prepareCommands (i + 1) (alignUp (pos + seg.filesz)) segs
      else seg.command i :: prepareCommands (i + 1) pos segs

/-! ## Writing -/

/-- The bytes of a `kex_header`. -/
def kexHeader (arch commandCount entryRva cmdOffset cmdSize : ℕ) : List UInt8 :=
  [75, 69, 88, 0] ++ [1, 0] ++ encode 2 arch ++ encode 4 commandCount ++ encode 4 4096 ++
    encode 8 entryRva ++ encode 8 cmdOffset ++ encode 8 cmdSize ++ List.replicate 16 0

/-- The bytes of a `kex_segment_cmd`. -/
def kexSegmentCmd (ks : SegmentCmd) : List UInt8 :=
  encode 4 cmdSegment ++ encode 4 segmentCmdSize ++ encode 4 ks.segmentIndex ++
    encode 4 ks.flags ++ encode 8 ks.rva ++ encode 8 ks.memSize ++ encode 8 ks.fileOffset ++
    encode 8 ks.fileSize ++ encode 8 ks.alignment ++ List.replicate 8 0

/-- The bytes of a `kex_integrity_cmd`. -/
def kexIntegrityCmd (hash : List UInt8) : List UInt8 :=
  encode 4 cmdIntegrity ++ encode 4 integrityCmdSize ++ hash

def writePadding (out : List UInt8) (target : ℕ) : List UInt8 :=
  if out.length < target then out ++ List.replicate (target - out.length) 0 else out

/-- Write the data of a segment, read from the ELF file. -/
def writeSegment (state : List UInt8 × IFStream) (pair : TempSeg × SegmentCmd) :
    List UInt8 × IFStream :=
  let (out, elf) := state
  let (seg, ks) := pair
  if 0 < ks.fileSize then
    let out := writePadding out ks.fileOffset
    let (buffer, elf) := (elf.seekg seg.off).read ks.fileSize (List.replicate ks.fileSize 0)
    (out ++ buffer, elf)
  else (out, elf)

/-- Write over the bytes of a file from `pos` on. -/
def patch (file : List UInt8) (pos : ℕ) (bytes : List UInt8) : List UInt8 :=
  file.take pos ++ bytes ++ file.drop (pos + bytes.length)

/-- The file that `kex-ld` leaves for the ELF file `input`. -/
def link (sha256 : List UInt8 → Vector UInt8 32) (uninit : ℕ → ℕ → UInt8) (input : List UInt8) :
    List UInt8 :=
  let (ehdr, elfSegments, elf) := readElf uninit input
  let cmdOffset := headerSize
  let cmdSize := elfSegments.length * segmentCmdSize + integrityCmdSize
  let hdr := kexHeader (kexArch ehdr.machine) (elfSegments.length + 1) ehdr.entry cmdOffset cmdSize
  let kexSegs := prepareCommands 0 (alignUp (cmdOffset + cmdSize)) elfSegments
  let out := hdr ++ kexSegs.flatMap kexSegmentCmd
  let integrityPos := out.length
  let out := out ++ kexIntegrityCmd (List.replicate 32 0)
  let (out, _) := (elfSegments.zip kexSegs).foldl writeSegment (out, elf)
  patch out integrityPos (kexIntegrityCmd (sha256 (out.take integrityPos)).toList)

variable {segs : List TempSeg} {input out : List UInt8} {i pos start n : ℕ}

/-! ## The plan -/

/-- The pages that `n` bytes of data take up. -/
def pageExtent (n : ℕ) : ℕ := (n + 4095) / 4096 * 4096

/-- What the data of the segments takes up in the file. -/
def dataExtent (segs : List TempSeg) : ℕ := (segs.map fun seg => pageExtent seg.filesz).sum

theorem alignUp_eq (hpos : 4096 ∣ pos) (hfits : pos + pageExtent n < 2 ^ 64) :
    alignUp (pos + n) = pos + pageExtent n := by
  unfold pageExtent at hfits ⊢
  unfold alignUp
  rw [Nat.mod_eq_of_lt (by omega)]
  omega

theorem pageExtent_dvd (n : ℕ) : 4096 ∣ pageExtent n := Dvd.intro_left _ rfl

theorem le_pageExtent (n : ℕ) : n ≤ pageExtent n := by
  unfold pageExtent
  omega

theorem prepareCommands_length : (prepareCommands i pos segs).length = segs.length := by
  induction segs generalizing i pos with
  | nil => rfl
  | cons seg segs ih =>
      unfold prepareCommands
      split <;> rw [List.length_cons, List.length_cons, ih]

/-- Every command is that of its segment, except for the place in the file. -/
theorem prepareCommands_getElem? {k : ℕ} (hk : k < segs.length) :
    ∃ off, (prepareCommands i pos segs)[k]? =
      some { segs[k].command (i + k) with fileOffset := off } := by
  induction segs generalizing i pos k with
  | nil => exact absurd hk (Nat.not_lt_zero k)
  | cons seg segs ih =>
      cases k with
      | zero =>
          unfold prepareCommands
          split
          · exact ⟨pos, rfl⟩
          · exact ⟨0, rfl⟩
      | succ k =>
          rw [List.length_cons, Nat.add_lt_add_iff_right] at hk
          rw [List.getElem_cons_succ, ← Nat.add_assoc, Nat.add_right_comm]
          unfold prepareCommands
          split
          · exact ih hk
          · exact ih hk

/-- What is written for the segments, each with its place in the file; `readable` says
that no read has fallen short so far. -/
def written (input : List UInt8) : Bool → List (TempSeg × SegmentCmd) → List (ℕ × List UInt8)
  | _, [] => []
  | readable, (seg, ks) :: pairs =>
      if 0 < ks.fileSize then
        (ks.fileOffset, delivered input readable seg.off ks.fileSize) ::
          written input (readable && decide (seg.off + ks.fileSize ≤ input.length)) pairs
      else written input readable pairs

theorem written_cons {readable : Bool} {seg : TempSeg} {ks : SegmentCmd} (hsize : 0 < ks.fileSize)
    (pairs : List (TempSeg × SegmentCmd)) :
    written input readable ((seg, ks) :: pairs) =
      (ks.fileOffset, delivered input readable seg.off ks.fileSize) ::
        written input (readable && decide (seg.off + ks.fileSize ≤ input.length)) pairs := by
  rw [written, if_pos hsize]

theorem written_cons_empty {readable : Bool} {seg : TempSeg} {ks : SegmentCmd}
    (hsize : ¬ 0 < ks.fileSize) (pairs : List (TempSeg × SegmentCmd)) :
    written input readable ((seg, ks) :: pairs) = written input readable pairs := by
  rw [written, if_neg hsize]

/-- What is written for a segment: its data, unless a read before it has fallen short. -/
theorem mem_written (input : List UInt8) (readable : Bool)
    {pairs : List (TempSeg × SegmentCmd)} {k : ℕ} {seg : TempSeg} {ks : SegmentCmd}
    (hk : pairs[k]? = some (seg, ks)) (hsize : 0 < ks.fileSize) :
    ∃ sound, (ks.fileOffset, delivered input sound seg.off ks.fileSize) ∈
        written input readable pairs ∧
      (sound = true ↔ readable = true ∧ ∀ pair ∈ pairs.take k, 0 < pair.2.fileSize →
        pair.1.off + pair.2.fileSize ≤ input.length) := by
  induction pairs generalizing k readable with
  | nil => cases hk
  | cons first pairs ih =>
      obtain ⟨seg', ks'⟩ := first
      cases k with
      | zero =>
          obtain ⟨rfl, rfl⟩ := Prod.mk.inj (Option.some.inj hk)
          rw [written_cons hsize]
          exact ⟨readable, List.mem_cons_self, by simp⟩
      | succ k =>
          rw [List.take_succ_cons, List.forall_mem_cons]
          by_cases hsize' : 0 < ks'.fileSize
          · obtain ⟨sound, hmem, hsound⟩ := ih
              (readable && decide (seg'.off + ks'.fileSize ≤ input.length)) hk
            rw [written_cons hsize']
            refine ⟨sound, List.mem_cons_of_mem _ hmem, hsound.trans ?_⟩
            rw [Bool.and_eq_true, decide_eq_true_eq, and_assoc]
            simp only [hsize', forall_const]
          · obtain ⟨sound, hmem, hsound⟩ := ih readable hk
            rw [written_cons_empty hsize']
            refine ⟨sound, hmem, hsound.trans ?_⟩
            simp only [hsize', false_implies, true_and]

theorem dataExtent_cons (seg : TempSeg) (segs : List TempSeg) :
    dataExtent (seg :: segs) = pageExtent seg.filesz + dataExtent segs := by
  simp [dataExtent]

/-- The places are page-aligned and follow one another. -/
theorem prepareCommands_ascending {readable : Bool} (hpos : 4096 ∣ pos)
    (hfits : pos + dataExtent segs < 2 ^ 64) (hstart : start ≤ pos) :
    Placement.Ascending start (written input readable (segs.zip (prepareCommands i pos segs))) ∧
      ∀ pair ∈ segs.zip (prepareCommands i pos segs),
        4096 ∣ pair.2.fileOffset ∧ pair.2.fileOffset < 2 ^ 64 := by
  induction segs generalizing i pos start readable with
  | nil => exact ⟨trivial, fun pair hpair => absurd hpair List.not_mem_nil⟩
  | cons seg segs ih =>
      rw [dataExtent_cons] at hfits
      unfold prepareCommands
      split
      next hsize =>
        have hnext := alignUp_eq (n := seg.filesz) hpos (by omega)
        have hle := le_pageExtent seg.filesz
        obtain ⟨hascending, haligned⟩ := @ih (i + 1) (alignUp (pos + seg.filesz))
          (pos + seg.filesz) (readable && decide (seg.off + seg.filesz ≤ input.length))
          (hnext ▸ hpos.add (pageExtent_dvd _)) (by omega) (by omega)
        rw [List.zip_cons_cons]
        refine ⟨?_, fun pair hpair => ?_⟩
        · rw [written_cons (show 0 < _ from hsize)]
          refine ⟨hstart, ?_⟩
          change Placement.Ascending (pos + (delivered input readable seg.off seg.filesz).length) _
          rw [length_delivered]
          exact hascending
        · rcases List.mem_cons.mp hpair with rfl | hpair
          · exact ⟨hpos, (Nat.le_add_right _ _).trans_lt hfits⟩
          · exact haligned pair hpair
      next hsize =>
        obtain ⟨hascending, haligned⟩ := @ih (i + 1) pos start readable hpos (by omega) hstart
        rw [List.zip_cons_cons]
        refine ⟨?_, fun pair hpair => ?_⟩
        · rw [written_cons_empty (show ¬ 0 < _ from hsize)]
          exact hascending
        · rcases List.mem_cons.mp hpair with rfl | hpair
          · exact ⟨dvd_zero 4096, Nat.two_pow_pos 64⟩
          · exact haligned pair hpair

/-- The data of the segments, each with its place in the file. -/
def dataBlocks (input : List UInt8) (pairs : List (TempSeg × SegmentCmd)) :
    List (ℕ × List UInt8) :=
  pairs.filterMap fun (seg, ks) =>
    if 0 < ks.fileSize then some (ks.fileOffset, (input.drop seg.off).take ks.fileSize) else none

/-- The data is inside the ELF file. -/
def Inside (input : List UInt8) (segs : List TempSeg) : Prop :=
  ∀ seg ∈ segs, 0 < seg.filesz → seg.off + seg.filesz ≤ input.length

/-- If all of it is in the ELF file, the data is written. -/
theorem written_eq_dataBlocks {pairs : List (TempSeg × SegmentCmd)}
    (hinside : ∀ pair ∈ pairs, 0 < pair.2.fileSize →
      pair.1.off + pair.2.fileSize ≤ input.length) :
    written input true pairs = dataBlocks input pairs := by
  induction pairs with
  | nil => rfl
  | cons pair pairs ih =>
      obtain ⟨seg, ks⟩ := pair
      have hpairs := ih fun pair hpair => hinside pair (List.mem_cons_of_mem _ hpair)
      unfold written
      split
      next hsize =>
        have hle : seg.off + ks.fileSize ≤ input.length :=
          hinside (seg, ks) List.mem_cons_self hsize
        rw [decide_eq_true hle, Bool.and_true, hpairs, delivered_true hle]
        simp [dataBlocks, hsize]
      next hsize =>
        rw [hpairs]
        simp [dataBlocks, Nat.eq_zero_of_not_pos hsize]

/-! ## The output -/

theorem writePadding_eq (out : List UInt8) (target : ℕ) :
    writePadding out target = Placement.padTo 0 out target := by
  unfold writePadding Placement.padTo
  split
  next => rfl
  next h => rw [Nat.sub_eq_zero_of_le (Nat.le_of_not_lt h), List.replicate_zero, List.append_nil]

/-- The second loop writes to the places that the first one planned. -/
theorem foldl_writeSegment (hlength : input.length < 2 ^ 63) {elf : IFStream} {readable : Bool}
    (hreads : elf.Reads input readable) (pairs : List (TempSeg × SegmentCmd))
    (out : List UInt8) :
    (pairs.foldl writeSegment (out, elf)).1 =
      Placement.emit 0 out (written input readable pairs) := by
  induction pairs generalizing out elf readable with
  | nil => rfl
  | cons pair pairs ih =>
      obtain ⟨seg, ks⟩ := pair
      rw [List.foldl_cons, writeSegment, written]
      dsimp only
      split
      next hsize =>
        obtain ⟨hdata, hreads'⟩ := hreads.read_seekg seg.off hlength hsize
        rw [hdata, writePadding_eq]
        exact ih hreads' _
      next hsize => exact ih hreads _

/-! ## The parts of the output -/

/-- `hdr.cmd_size`. -/
def cmdSizeOf (segs : List TempSeg) : ℕ := segs.length * segmentCmdSize + integrityCmdSize

def commandsOf (segs : List TempSeg) : List SegmentCmd :=
  prepareCommands 0 (alignUp (headerSize + cmdSizeOf segs)) segs

/-- What precedes the integrity command. -/
def frontOf (ehdr : Ehdr) (segs : List TempSeg) : List UInt8 :=
  kexHeader (kexArch ehdr.machine) (segs.length + 1) ehdr.entry headerSize (cmdSizeOf segs) ++
    (commandsOf segs).flatMap kexSegmentCmd

/-- The headers, the commands and the data, rounded up to pages, have sizes that do not
wrap in 64 bits. -/
def FitsOf (segs : List TempSeg) : Prop :=
  pageExtent (headerSize + cmdSizeOf segs) + dataExtent segs < 2 ^ 64

theorem commandsOf_length (segs : List TempSeg) : (commandsOf segs).length = segs.length :=
  prepareCommands_length

/-- A segment and its command. -/
theorem pair_eq {pair : TempSeg × SegmentCmd} (hpair : pair ∈ segs.zip (commandsOf segs)) :
    pair.1 ∈ segs ∧ pair.2.fileSize = pair.1.filesz := by
  obtain ⟨k, hk, rfl⟩ := List.getElem_of_mem hpair
  rw [List.length_zip, lt_min_iff] at hk
  rw [List.getElem_zip]
  obtain ⟨off, hcommand⟩ := @prepareCommands_getElem? segs 0
    (alignUp (headerSize + cmdSizeOf segs)) k hk.1
  have hget := (List.getElem_eq_iff hk.2).mpr hcommand
  exact ⟨List.getElem_mem hk.1, congrArg SegmentCmd.fileSize hget⟩

theorem inside_take {k : ℕ} :
    (∀ pair ∈ (segs.zip (commandsOf segs)).take k, 0 < pair.2.fileSize →
      pair.1.off + pair.2.fileSize ≤ input.length) ↔ Inside input (segs.take k) := by
  have hfst : ((segs.zip (commandsOf segs)).take k).map Prod.fst = segs.take k := by
    rw [List.map_take, List.map_fst_zip (commandsOf_length segs).ge]
  rw [← hfst]
  unfold Inside
  rw [List.forall_mem_map]
  refine forall₂_congr fun pair hpair => ?_
  rw [(pair_eq (List.mem_of_mem_take hpair)).2]

theorem kexHeader_length (arch commandCount entryRva cmdOffset cmdSize : ℕ) :
    (kexHeader arch commandCount entryRva cmdOffset cmdSize).length = headerSize := by
  simp [kexHeader, headerSize]

theorem kexSegmentCmd_length (ks : SegmentCmd) : (kexSegmentCmd ks).length = segmentCmdSize := by
  simp [kexSegmentCmd, segmentCmdSize]

theorem kexIntegrityCmd_length {hash : List UInt8} (h : hash.length = 32) :
    (kexIntegrityCmd hash).length = integrityCmdSize := by
  simp [kexIntegrityCmd, integrityCmdSize, h]

theorem frontOf_length (ehdr : Ehdr) (segs : List TempSeg) :
    (frontOf ehdr segs).length = headerSize + segs.length * segmentCmdSize := by
  rw [frontOf, List.length_append, kexHeader_length, List.length_flatMap,
    List.map_congr_left fun ks _ => kexSegmentCmd_length ks, List.map_const', List.sum_replicate,
    commandsOf_length, smul_eq_mul]

theorem patch_middle {front old new rest : List UInt8} (h : old.length = new.length) :
    patch (front ++ old ++ rest) front.length new = front ++ new ++ rest := by
  unfold patch
  rw [← h, ← List.length_append, List.drop_left, List.append_assoc front old rest, List.take_left]

theorem drop_replaced {old new rest : List UInt8} (h : old.length = new.length) {off : ℕ}
    (hoff : old.length ≤ off) : (new ++ rest).drop off = (old ++ rest).drop off := by
  rw [List.drop_append, List.drop_append, List.drop_eq_nil_of_le hoff,
    List.drop_eq_nil_of_le (h ▸ hoff), h]

/-- The data begins on the page behind the commands. -/
theorem alignUp_cmdSizeOf (hfits : pageExtent (headerSize + cmdSizeOf segs) < 2 ^ 64) :
    alignUp (headerSize + cmdSizeOf segs) = pageExtent (headerSize + cmdSizeOf segs) := by
  have haligned := alignUp_eq (n := headerSize + cmdSizeOf segs) (Nat.dvd_zero 4096)
    ((Nat.zero_add _).trans_lt hfits)
  rwa [Nat.zero_add, Nat.zero_add] at haligned

/-- What is written is placed behind the commands. -/
theorem commandsOf_placed (hfits : FitsOf segs) (input : List UInt8) (readable : Bool) :
    Placement.Ascending (headerSize + cmdSizeOf segs)
        (written input readable (segs.zip (commandsOf segs))) ∧
      ∀ pair ∈ segs.zip (commandsOf segs),
        4096 ∣ pair.2.fileOffset ∧ pair.2.fileOffset < 2 ^ 64 := by
  have hpages := alignUp_cmdSizeOf (Nat.lt_of_add_right_lt hfits)
  have hle := (le_pageExtent (headerSize + cmdSizeOf segs)).trans_eq hpages.symm
  have hend := (congrArg (· + dataExtent segs) hpages).trans_lt hfits
  exact prepareCommands_ascending (hpages ▸ pageExtent_dvd _) hend hle

/-- The output before the hash is patched in. -/
def unpatched (ehdr : Ehdr) (segs : List TempSeg) (input : List UInt8) (readable : Bool) :
    List UInt8 :=
  Placement.emit 0 (frontOf ehdr segs ++ kexIntegrityCmd (List.replicate 32 0))
    (written input readable (segs.zip (commandsOf segs)))

variable {sha256 : List UInt8 → Vector UInt8 32} {uninit : ℕ → ℕ → UInt8} {ehdr : Ehdr}
  {elf : IFStream} {readable : Bool}

/-- The output: the hash replaces the placeholder. -/
theorem link_eq_of_readElf (sha256 : List UInt8 → Vector UInt8 32)
    (hlength : input.length < 2 ^ 63) (hread : readElf uninit input = (ehdr, segs, elf))
    (hreads : elf.Reads input readable) :
    ∃ rest, unpatched ehdr segs input readable =
        frontOf ehdr segs ++ kexIntegrityCmd (List.replicate 32 0) ++ rest ∧
      link sha256 uninit input =
        frontOf ehdr segs ++ kexIntegrityCmd (sha256 (frontOf ehdr segs)).toList ++ rest := by
  have hold : (kexIntegrityCmd (List.replicate 32 0)).length = integrityCmdSize :=
    kexIntegrityCmd_length List.length_replicate
  have hnew : (kexIntegrityCmd (sha256 (frontOf ehdr segs)).toList).length = integrityCmdSize :=
    kexIntegrityCmd_length Vector.length_toList
  obtain ⟨rest, hrest⟩ := Placement.emit_eq_append 0
    (frontOf ehdr segs ++ kexIntegrityCmd (List.replicate 32 0))
    (written input readable (segs.zip (commandsOf segs)))
  have hout := foldl_writeSegment hlength hreads (segs.zip (commandsOf segs))
    (frontOf ehdr segs ++ kexIntegrityCmd (List.replicate 32 0))
  rw [hrest] at hout
  refine ⟨rest, hrest, ?_⟩
  have hlink : link sha256 uninit input = patch
      ((segs.zip (commandsOf segs)).foldl writeSegment
        (frontOf ehdr segs ++ kexIntegrityCmd (List.replicate 32 0), elf)).1
      (frontOf ehdr segs).length
      (kexIntegrityCmd (sha256 (((segs.zip (commandsOf segs)).foldl writeSegment
        (frontOf ehdr segs ++ kexIntegrityCmd (List.replicate 32 0), elf)).1.take
          (frontOf ehdr segs).length)).toList) := by
    unfold link
    rw [hread]
    rfl
  rw [hlink, hout, List.append_assoc, List.take_left, ← List.append_assoc,
    patch_middle (hold.trans hnew.symm)]

theorem link_length (sha256 : List UInt8 → Vector UInt8 32) (hlength : input.length < 2 ^ 63)
    (hread : readElf uninit input = (ehdr, segs, elf)) (hreads : elf.Reads input readable) :
    (link sha256 uninit input).length = (unpatched ehdr segs input readable).length := by
  obtain ⟨rest, hrest, hlink⟩ := link_eq_of_readElf sha256 hlength hread hreads
  rw [hlink, hrest]
  simp only [List.length_append, kexIntegrityCmd_length Vector.length_toList,
    kexIntegrityCmd_length List.length_replicate]

/-- Everything that is written stands at its place. -/
theorem link_written (sha256 : List UInt8 → Vector UInt8 32) (hlength : input.length < 2 ^ 63)
    (hread : readElf uninit input = (ehdr, segs, elf)) (hreads : elf.Reads input readable)
    (hfits : FitsOf segs) {block : ℕ × List UInt8}
    (hblock : block ∈ written input readable (segs.zip (commandsOf segs))) :
    ((link sha256 uninit input).drop block.1).take block.2.length = block.2 := by
  have hold : (kexIntegrityCmd (List.replicate 32 0)).length = integrityCmdSize :=
    kexIntegrityCmd_length List.length_replicate
  have hnew : (kexIntegrityCmd (sha256 (frontOf ehdr segs)).toList).length = integrityCmdSize :=
    kexIntegrityCmd_length Vector.length_toList
  have hfront : (frontOf ehdr segs ++ kexIntegrityCmd (List.replicate 32 0)).length =
      headerSize + cmdSizeOf segs := by
    rw [List.length_append, frontOf_length, hold, Nat.add_assoc, cmdSizeOf]
  obtain ⟨rest, hrest, hlink⟩ := link_eq_of_readElf sha256 hlength hread hreads
  obtain ⟨hascending, -⟩ := commandsOf_placed hfits input readable
  -- The hash has the length of the placeholder, so no block moves.
  have hreplaced : (frontOf ehdr segs ++ kexIntegrityCmd (List.replicate 32 0)).length =
      (frontOf ehdr segs ++ kexIntegrityCmd (sha256 (frontOf ehdr segs)).toList).length := by
    rw [List.length_append, List.length_append, hold, hnew]
  have hoff := hfront.trans_le (hascending.le_of_mem hblock)
  rw [hlink, drop_replaced hreplaced hoff, ← hrest]
  refine Placement.emit_block ?_ hblock
  rw [hfront]
  exact hascending

end BadOS.KexLd
