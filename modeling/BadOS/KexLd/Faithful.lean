import BadOS.KexLd.RoundTrip

/-! # Files cut short

`kex-ld` checks none of its reads, and after one that falls short the stream has an
error for good. It still ends with status 0: this module says which segments of such a
file are in the output all the same.
-/

namespace BadOS.KexLd

open Kex Memory

/-! ## The run -/

/-- How a run ends: with a status and, if one is written, an output file, or by an
exception. -/
inductive Outcome
  | exit (status : ℕ) (output : Option (List UInt8))
  | aborted
deriving DecidableEq

/-- `main`; `input` is the content of the first file, if it can be opened. A vector of
more than `maxSize` bytes cannot be built, and none is longer than `full_file`, which
holds the whole output. -/
def main (maxSize : ℕ) (sha256 : List UInt8 → Vector UInt8 32) (uninit : ℕ → ℕ → UInt8)
    (argc : ℕ) (input : Option (List UInt8)) : Outcome :=
  if argc < 3 then .exit 1 none
  else
    match input with
    | none => .exit 1 none
    | some input =>
        let fullFile := link sha256 uninit input
        if fullFile.length ≤ maxSize then .exit 0 (some fullFile) else .aborted

/-! ## Faithful files -/

/-- Segment command `k` of a file that `kex-ld` has written. -/
def outputCommand (output : List UInt8) (k : ℕ) : SegmentCmd :=
  segmentCmd (Memory.ofList output) (headerSize + segmentCmdSize * k)

/-- The bytes of the segment are in the ELF file, and stand in the output where command
`k` says. -/
structure Copied (input output : List UInt8) (ph : Phdr) (k : ℕ) : Prop where
  inside : 0 < ph.filesz → ph.offset + ph.filesz ≤ input.length
  fileSize_eq : (outputCommand output k).fileSize = ph.filesz
  data_eq : (output.drop (outputCommand output k).fileOffset).take ph.filesz =
    (input.drop ph.offset).take ph.filesz

/-- Every declared segment is copied. -/
def Faithful (input output : List UInt8) : Prop :=
  ∀ k (hk : k < (Elf.declared input).length), Copied input output (Elf.declared input)[k] k

/-- The bytes of the segment are zeros. -/
def Zeros (input : List UInt8) (ph : Phdr) : Prop :=
  (input.drop ph.offset).take ph.filesz = List.replicate ph.filesz 0

/-- The table and the data of the segments before `k` are in the file. -/
structure WholeBefore (input : List UInt8) (k : ℕ) : Prop where
  table : ∀ i < (Elf.header input).phnum, Elf.HeaderInside input i
  data : ∀ ph ∈ (Elf.declared input).take k, 0 < ph.filesz →
    ph.offset + ph.filesz ≤ input.length

/-- The program headers are where `kex-ld` reads them, the declared segments have their
data in the file, and so is the table, unless all of that data is zeros. -/
structure Intact (input : List UInt8) : Prop where
  entries : Elf.StandardEntries input
  data : ∀ ph ∈ Elf.declared input, 0 < ph.filesz → ph.offset + ph.filesz ≤ input.length
  table : (∀ i < (Elf.header input).phnum, Elf.HeaderInside input i) ∨
    ∀ ph ∈ Elf.declared input, Zeros input ph

variable {input output out : List UInt8} {sha256 : List UInt8 → Vector UInt8 32}
  {uninit : ℕ → ℕ → UInt8} {maxSize argc i k pos : ℕ} {segs : List TempSeg} {ehdr : Ehdr}
  {elf : IFStream} {readable : Bool}

/-! ## The size of the output -/

theorem main_zero (hexit : main maxSize sha256 uninit argc (some input) = .exit 0 (some output)) :
    output = link sha256 uninit input ∧ output.length ≤ maxSize := by
  unfold main at hexit
  dsimp only at hexit
  split at hexit
  next => simp at hexit
  next =>
    split at hexit
    next hsize =>
      obtain ⟨-, houtput⟩ := Outcome.exit.inj hexit
      rw [← Option.some.inj houtput]
      exact ⟨rfl, hsize⟩
    next => simp at hexit

theorem length_le_emit (out : List UInt8) (blocks : List (ℕ × List UInt8)) :
    out.length ≤ (Placement.emit 0 out blocks).length := by
  obtain ⟨rest, hrest⟩ := Placement.emit_eq_append 0 out blocks
  rw [hrest, List.length_append]
  exact Nat.le_add_right _ _

/-- The plan reaches less than a page behind what is written. -/
theorem dataExtent_lt (hpos : 4096 ∣ pos) (hout : out.length ≤ pos) (hlt : pos < 2 ^ 63 + 4096)
    (hlength : (Placement.emit 0 out
      (written input readable (segs.zip (prepareCommands i pos segs)))).length < 2 ^ 63) :
    pos + dataExtent segs < 2 ^ 63 + 4096 := by
  induction segs generalizing i pos out readable with
  | nil => exact hlt
  | cons seg segs ih =>
      rw [dataExtent_cons]
      unfold prepareCommands at hlength
      split at hlength
      next hsize =>
        rw [List.zip_cons_cons, written_cons (show 0 < _ from hsize), Placement.emit,
          List.foldl_cons] at hlength
        change (Placement.emit 0 (Placement.padTo 0 out pos ++
          delivered input readable seg.off seg.filesz) _).length < _ at hlength
        have hnow : (Placement.padTo 0 out pos ++
            delivered input readable seg.off seg.filesz).length = pos + seg.filesz := by
          rw [List.length_append, Placement.length_padTo 0 hout, length_delivered]
        have hle := (length_le_emit _ _).trans_lt hlength
        rw [hnow] at hle
        have hextent : pageExtent seg.filesz < seg.filesz + 4096 := by
          unfold pageExtent
          omega
        have hnext := alignUp_eq (n := seg.filesz) hpos (by omega)
        have hcovers := le_pageExtent seg.filesz
        have hrest := ih (hnext ▸ hpos.add (pageExtent_dvd _)) (by omega) (by omega) hlength
        omega
      next hsize =>
        rw [List.zip_cons_cons, written_cons_empty (show ¬ 0 < _ from hsize)] at hlength
        have hnone : pageExtent seg.filesz = 0 := by
          rw [Nat.eq_zero_of_not_pos hsize]
          rfl
        rw [hnone, Nat.zero_add]
        exact ih hpos hout hlt hlength

/-- An output that a vector can hold was planned without overflow. -/
theorem fitsOf_of_length (hcount : segs.length < 2 ^ 16)
    (hlength : (unpatched ehdr segs input readable).length < 2 ^ 63) : FitsOf segs := by
  have hextent : pageExtent (headerSize + cmdSizeOf segs) < 2 ^ 63 := by
    unfold pageExtent headerSize cmdSizeOf segmentCmdSize integrityCmdSize
    omega
  have hpages := alignUp_cmdSizeOf (hextent.trans (by decide))
  have hfront : (frontOf ehdr segs ++ kexIntegrityCmd (List.replicate 32 0)).length =
      headerSize + cmdSizeOf segs := by
    rw [List.length_append, frontOf_length, kexIntegrityCmd_length List.length_replicate,
      Nat.add_assoc, cmdSizeOf]
  have hplanned := dataExtent_lt (hpages ▸ pageExtent_dvd _)
    (hfront.trans_le ((le_pageExtent _).trans_eq hpages.symm)) (by omega) hlength
  unfold FitsOf
  omega

/-! ## The segments of the output -/

theorem TableRead.reads (htable : TableRead input (Elf.header input).phnum (segs, elf)) :
    ∃ readable, elf.Reads input readable ∧
      (readable = true ↔ Elf.Sound input (Elf.header input).phnum) := by
  by_cases hsound : Elf.Sound input (Elf.header input).phnum
  · have hwhole := congrArg Prod.snd (htable.whole hsound)
    exact ⟨true, ⟨_, hwhole⟩, iff_of_true rfl hsound⟩
  · exact ⟨false, htable.short hsound, iff_of_false Bool.false_ne_true hsound⟩

theorem Elf.declared_eq (hheader : (Elf.fileClass input).ehdrSize ≤ input.length) :
    declared input = loadsInside input (header input).phnum := if_pos hheader

theorem Elf.header_le_of_declared (hk : k < (declared input).length) :
    (fileClass input).ehdrSize ≤ input.length := by
  by_contra hheader
  unfold declared at hk
  rw [if_neg hheader] at hk
  exact absurd hk (Nat.not_lt_zero k)

theorem Elf.lt_of_mem_declared {ph : Phdr} (hph : ph ∈ declared input) :
    (ph.vaddr < 2 ^ 64 ∧ ph.memsz < 2 ^ 64 ∧ ph.filesz < 2 ^ 64) ∧
      ∃ i < (header input).phnum, HeaderInside input i := by
  obtain ⟨k, hk, -⟩ := List.getElem_of_mem hph
  rw [declared_eq (header_le_of_declared hk)] at hph
  obtain ⟨i, hi, rfl⟩ := List.mem_map.mp (List.mem_filter.mp hph).1
  obtain ⟨hi, hinside⟩ := List.mem_filter.mp hi
  exact ⟨ElfClass.phdr_lt _ _, i, List.mem_range.mp hi, of_decide_eq_true hinside⟩

/-- With a declared segment, the table is read without error exactly if it is in the file. -/
theorem Elf.sound_iff (hlength : input.length < 2 ^ 63) (hk : k < (declared input).length) :
    Sound input (header input).phnum ↔ ∀ i < (header input).phnum, HeaderInside input i := by
  refine ⟨And.right, fun htable => ⟨?_, htable⟩⟩
  obtain ⟨-, i, -, hinside⟩ := lt_of_mem_declared (List.getElem_mem hk)
  unfold HeaderInside at hinside
  omega

theorem wholeBefore_iff : WholeBefore input k ↔
    (∀ i < (Elf.header input).phnum, Elf.HeaderInside input i) ∧
      Inside input (((Elf.declared input).map Phdr.tempSeg).take k) := by
  have hinside : Inside input (((Elf.declared input).map Phdr.tempSeg).take k) ↔
      ∀ ph ∈ (Elf.declared input).take k, 0 < ph.filesz →
        ph.offset + ph.filesz ≤ input.length := by
    rw [← List.map_take]
    exact List.forall_mem_map
  rw [hinside]
  exact ⟨fun h => ⟨h.table, h.data⟩, fun h => ⟨h.1, h.2⟩⟩

theorem outputCommand_eq {rest : List UInt8} {hash : List UInt8} {ks : SegmentCmd}
    (houtput : output = frontOf ehdr segs ++ hash ++ rest)
    (hcommand : (commandsOf segs)[k]? = some ks) (hfit : FieldsFit ks) :
    outputCommand output k = ks := by
  obtain ⟨hk, rfl⟩ := List.getElem?_eq_some_iff.mp hcommand
  have hholds := Memory.holds_ofList output
  rw [houtput, holds_append, holds_append, ← houtput] at hholds
  have hread := (holds_frontOf hholds.1.1).2 k hk
  rw [Nat.zero_add] at hread
  exact (kexSegmentCmd_read hread hfit).2.2

/-- What the output has for a declared segment: its command, and, at the place it gives,
the data if the file is whole up to it, else zeros. -/
theorem link_segment (hmax : maxSize < 2 ^ 63) (hlength : input.length < 2 ^ 63)
    (hentries : Elf.StandardEntries input)
    (hexit : main maxSize sha256 uninit argc (some input) = .exit 0 (some output))
    (hk : k < (Elf.declared input).length) :
    ∃ off sound, outputCommand output k = placedCommand (Elf.declared input)[k] k off ∧
      (0 < (Elf.declared input)[k].filesz →
        (output.drop off).take (Elf.declared input)[k].filesz =
          delivered input sound (Elf.declared input)[k].offset (Elf.declared input)[k].filesz) ∧
      (sound = true ↔ WholeBefore input k) := by
  obtain ⟨⟨segs, elf⟩, hread, htable⟩ :=
    readElf_tableRead hlength (Elf.header_le_of_declared hk) hentries uninit
  obtain ⟨readable, hreads, hreadable⟩ := htable.reads
  obtain ⟨rest, hunpatched, hlink⟩ := link_eq_of_readElf sha256 hlength hread hreads
  obtain ⟨rfl, hsize⟩ := main_zero hexit
  have hdeclared := Elf.declared_eq (Elf.header_le_of_declared hk)
  have hcount : segs.length < 2 ^ 16 :=
    htable.length_le.trans_lt (ElfClass.ehdr_lt _ _).2
  -- The output has at most `maxSize` bytes, so no offset in it wraps.
  have hshort : (unpatched (Elf.header input) segs input readable).length < 2 ^ 63 := by
    rw [← link_length sha256 hlength hread hreads]
    exact hsize.trans_lt hmax
  have hfits := fitsOf_of_length hcount hshort
  have hsegs : segs[k]? = some (Elf.declared input)[k].tempSeg := by
    have hbefore := htable.isPrefix
    rw [← hdeclared] at hbefore
    have hk' : k < ((Elf.declared input).map Phdr.tempSeg).length := by rwa [List.length_map]
    rw [List.getElem?_eq_getElem (hk'.trans_le hbefore.length_le), ← hbefore.getElem hk',
      List.getElem_map]
  obtain ⟨off, -, hfit, hzip, hcommand⟩ := commandsOf_getElem? hfits hcount hsegs
    (Elf.lt_of_mem_declared (List.getElem_mem hk)).1
  have houtput := outputCommand_eq hlink hcommand hfit
  by_cases hpositive : 0 < (Elf.declared input)[k].filesz
  · obtain ⟨sound, hmem, hsound⟩ := mem_written input readable hzip hpositive
    have hdata := link_written sha256 hlength hread hreads hfits hmem
    rw [length_delivered] at hdata
    refine ⟨off, sound, houtput, fun _ => hdata, hsound.trans ?_⟩
    rw [inside_take, hreadable, Elf.sound_iff hlength hk, wholeBefore_iff]
    refine and_congr_right fun htable' => ?_
    have hwhole : segs = (Elf.loadsInside input (Elf.header input).phnum).map Phdr.tempSeg :=
      congrArg Prod.fst (htable.whole ((Elf.sound_iff hlength hk).mpr htable'))
    rw [hwhole, ← hdeclared]
  · by_cases hwhole : WholeBefore input k
    · exact ⟨off, true, houtput, fun h => absurd h hpositive, iff_of_true rfl hwhole⟩
    · exact ⟨off, false, houtput, fun h => absurd h hpositive,
        iff_of_false Bool.false_ne_true hwhole⟩

/-- A declared segment is copied exactly if its data is in the file and no read before it
falls short; or the data is zeros, which is what is written after such a read. -/
theorem copied_iff (hmax : maxSize < 2 ^ 63) (hlength : input.length < 2 ^ 63)
    (hentries : Elf.StandardEntries input)
    (hexit : main maxSize sha256 uninit argc (some input) = .exit 0 (some output))
    (hk : k < (Elf.declared input).length) :
    Copied input output (Elf.declared input)[k] k ↔
      (0 < (Elf.declared input)[k].filesz →
        (Elf.declared input)[k].offset + (Elf.declared input)[k].filesz ≤ input.length ∧
          (WholeBefore input k ∨ Zeros input (Elf.declared input)[k])) := by
  obtain ⟨off, sound, hcommand, hdata, hsound⟩ :=
    link_segment hmax hlength hentries hexit hk
  have hoffset : (outputCommand output k).fileOffset = off := by rw [hcommand]; rfl
  constructor
  · intro hcopied hpositive
    have hinside := hcopied.inside hpositive
    have heq := hcopied.data_eq
    rw [hoffset, hdata hpositive] at heq
    refine ⟨hinside, ?_⟩
    cases sound with
    | true => exact Or.inl (hsound.mp rfl)
    | false => exact Or.inr heq.symm
  · intro hwhole
    refine ⟨fun hpositive => (hwhole hpositive).1, ?_, ?_⟩
    · rw [hcommand]
      rfl
    · rw [hoffset]
      rcases Nat.eq_zero_or_pos (Elf.declared input)[k].filesz with hnone | hpositive
      · rw [hnone, List.take_zero, List.take_zero]
      · obtain ⟨hinside, hcase⟩ := hwhole hpositive
        rw [hdata hpositive]
        cases sound with
        | true => exact delivered_true hinside
        | false =>
            rcases hcase with hbefore | hzeros
            · exact absurd (hsound.mpr hbefore) Bool.false_ne_true
            · exact hzeros.symm

theorem Zeros.of_empty {ph : Phdr} (hnone : ph.filesz = 0) : Zeros input ph := by
  unfold Zeros
  rw [hnone, List.take_zero, List.replicate_zero]

/-- A run with status 0 has copied every declared segment if the file is intact, and, as
far as the program headers are where `kex-ld` reads them, only then. -/
theorem faithful_iff_intact (hmax : maxSize < 2 ^ 63) (hlength : input.length < 2 ^ 63)
    (hexit : main maxSize sha256 uninit argc (some input) = .exit 0 (some output)) :
    (Intact input → Faithful input output) ∧
      (Elf.StandardEntries input → Faithful input output → Intact input) := by
  constructor
  · intro hintact k hk
    have hmem := List.getElem_mem hk
    refine (copied_iff hmax hlength hintact.entries hexit hk).mpr fun hpositive => ?_
    refine ⟨hintact.data _ hmem hpositive, hintact.table.imp (fun htable => ?_) fun hzeros => ?_⟩
    · exact ⟨htable, fun ph hph => hintact.data ph (List.mem_of_mem_take hph)⟩
    · exact hzeros _ hmem
  · intro hentries hfaithful
    refine ⟨hentries, fun ph hph => ?_, or_iff_not_imp_left.mpr fun htable ph hph => ?_⟩
    · obtain ⟨k, hk, rfl⟩ := List.getElem_of_mem hph
      exact (hfaithful k hk).inside
    · obtain ⟨k, hk, rfl⟩ := List.getElem_of_mem hph
      rcases Nat.eq_zero_or_pos (Elf.declared input)[k].filesz with hnone | hpositive
      · exact Zeros.of_empty hnone
      · have hcopied := (copied_iff hmax hlength hentries hexit hk).mp (hfaithful k hk) hpositive
        exact hcopied.2.resolve_left fun hbefore => htable hbefore.table

theorem tinyElf_faithful :
    Faithful tinyElf (link (fun _ => tinyDigest) (fun _ _ => 0) tinyElf) := by
  have hexit : main (2 ^ 63 - 1) (fun _ => tinyDigest) (fun _ _ => 0) 3 (some tinyElf) =
      .exit 0 (some (link (fun _ => tinyDigest) (fun _ _ => 0) tinyElf)) :=
    (if_neg (by decide)).trans (if_pos (by decide +kernel))
  have hintact : Intact tinyElf := ⟨tinyElf_valid.standardEntries, by decide +kernel,
    Or.inl fun _ hi => tinyElf_valid.headerInside hi⟩
  exact (faithful_iff_intact (by decide) tinyElf_valid.length_lt hexit).1 hintact

/-- A 64-bit ELF file cut short: the eight bytes of its first segment are missing, the
three of the second are there. -/
def cutElf : List UInt8 :=
  [0x7F, 0x45, 0x4C, 0x46, 2, 1, 1, 0] ++ List.replicate 8 0 ++ encode 2 2 ++ encode 2 62 ++
    encode 4 1 ++ encode 8 0x400000 ++ encode 8 64 ++ encode 8 0 ++ encode 4 0 ++ encode 2 64 ++
    encode 2 56 ++ encode 2 2 ++ encode 6 0 ++
    (encode 4 1 ++ encode 4 5 ++ encode 8 179 ++ encode 8 0x400000 ++ encode 8 0 ++ encode 8 8 ++
      encode 8 0x1000 ++ encode 8 0x1000) ++
    (encode 4 1 ++ encode 4 6 ++ encode 8 176 ++ encode 8 0x402000 ++ encode 8 0 ++ encode 8 3 ++
      encode 8 0x1000 ++ encode 8 0x1000) ++ [0x31, 0xC0, 0xC3]

/-- The SHA-256 digest of the header and the segment commands for `cutElf`. -/
def cutDigest : Vector UInt8 32 :=
  #v[0x8a, 0x28, 0x04, 0x1b, 0x68, 0x2d, 0x2c, 0x53, 0x7c, 0x7a, 0xd2, 0xa9, 0x3a, 0xf2, 0x16,
    0x21, 0x1c, 0x8d, 0x21, 0x63, 0x78, 0x94, 0x4d, 0x66, 0x42, 0x93, 0x8f, 0xcb, 0x31, 0xf5,
    0x0d, 0x35]

/-- The run ends with status 0, but the second segment, all of which can be read, is zeros
in the output. -/
theorem cutElf_not_faithful :
    let output := link (fun _ => cutDigest) (fun _ _ => 0) cutElf
    main (2 ^ 63 - 1) (fun _ => cutDigest) (fun _ _ => 0) 3 (some cutElf) =
        .exit 0 (some output) ∧
      (Elf.declared cutElf)[1]? = some ⟨1, 6, 176, 0x402000, 3, 0x1000⟩ ∧
      (cutElf.drop 176).take 3 = [0x31, 0xC0, 0xC3] ∧
      (output.drop (outputCommand output 1).fileOffset).take 3 = [0, 0, 0] ∧
      ¬ Faithful cutElf output := by
  have hdata : (cutElf.drop 176).take 3 = [0x31, 0xC0, 0xC3] := by decide
  have hheader : (Elf.declared cutElf)[1]? = some ⟨1, 6, 176, 0x402000, 3, 0x1000⟩ := by
    decide +kernel
  have hzeros : ((link (fun _ => cutDigest) (fun _ _ => 0) cutElf).drop
      (outputCommand (link (fun _ => cutDigest) (fun _ _ => 0) cutElf) 1).fileOffset).take 3 =
      [0, 0, 0] := by decide +kernel
  refine ⟨(if_neg (by decide)).trans (if_pos (by decide +kernel)), hheader, hdata, hzeros, ?_⟩
  intro hfaithful
  obtain ⟨hcount, hget⟩ := List.getElem?_eq_some_iff.mp hheader
  have hcopied := (hfaithful 1 hcount).data_eq
  rw [hget] at hcopied
  exact absurd ((hzeros.symm.trans hcopied).trans hdata) (by decide)

end BadOS.KexLd
