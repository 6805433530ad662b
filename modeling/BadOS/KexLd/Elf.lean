import BadOS.Foundation.LittleEndian
import BadOS.Foundation.Loop

/-! # Reading an ELF file

The first half of `kex-ld`: through a `std::ifstream` it reads the ELF header of
either class and the program headers, and keeps those of type `PT_LOAD`.
-/

namespace BadOS.KexLd

/-- A `std::ifstream` that was opened successfully. -/
structure IFStream where
  file : List UInt8
  pos : ℕ
  eof : Bool
  fail : Bool

namespace IFStream

def openFile (file : List UInt8) : IFStream := ⟨file, 0, false, false⟩

/-- `seekg`, which clears `eofbit`; a position that is negative as a `std::streamoff`
is an error. -/
def seekg (f : IFStream) (off : ℕ) : IFStream :=
  if f.fail then { f with eof := false }
  else if off < 2 ^ 63 then { f with eof := false, pos := off }
  else { f with eof := false, fail := true }

/-- `read` of `n` bytes into a buffer. On a stream with an error it reads nothing; at
the end of the file it reads what is left and sets both error bits. -/
def read (f : IFStream) (n : ℕ) (buffer : List UInt8) : List UInt8 × IFStream :=
  if f.eof || f.fail then (buffer, { f with fail := true })
  else
    let got := (f.file.drop f.pos).take n
    let short := decide (got.length < n)
    (got ++ buffer.drop got.length,
      { f with pos := f.pos + got.length, eof := short, fail := short })

end IFStream

/-- `EI_CLASS`. -/
inductive ElfClass
  | elf32 | elf64
deriving DecidableEq

/-- The fields of an ELF header. -/
structure Ehdr where
  machine : ℕ
  entry : ℕ
  phoff : ℕ
  phentsize : ℕ
  phnum : ℕ
deriving DecidableEq

/-- The fields of a program header. -/
structure Phdr where
  type : ℕ
  flags : ℕ
  offset : ℕ
  vaddr : ℕ
  filesz : ℕ
  memsz : ℕ
deriving DecidableEq

namespace ElfClass

/-- `sizeof(Elf32_Ehdr)` and `sizeof(Elf64_Ehdr)`. -/
def ehdrSize : ElfClass → ℕ
  | elf32 => 52
  | elf64 => 64

/-- `sizeof(Elf32_Phdr)` and `sizeof(Elf64_Phdr)`. -/
def phdrSize : ElfClass → ℕ
  | elf32 => 32
  | elf64 => 56

def ehdr (elfClass : ElfClass) (bytes : List UInt8) : Ehdr :=
  let load := (Memory.ofList bytes).load
  match elfClass with
  | elf32 => ⟨load 18 2, load 24 4, load 28 4, load 42 2, load 44 2⟩
  | elf64 => ⟨load 18 2, load 24 8, load 32 8, load 54 2, load 56 2⟩

def phdr (elfClass : ElfClass) (bytes : List UInt8) : Phdr :=
  let load := (Memory.ofList bytes).load
  match elfClass with
  | elf32 => ⟨load 0 4, load 24 4, load 4 4, load 8 4, load 16 4, load 20 4⟩
  | elf64 => ⟨load 0 4, load 4 4, load 8 8, load 16 8, load 32 8, load 40 8⟩

end ElfClass

/-- `PT_LOAD`. -/
def ptLoad : ℕ := 1

/-- `e_ident[EI_CLASS] == ELFCLASS32`. -/
def identClass (e_ident : List UInt8) : ElfClass :=
  if e_ident[4]? = some 1 then .elf32 else .elf64

structure TempSeg where
  flags : ℕ
  vaddr : ℕ
  memsz : ℕ
  off : ℕ
  filesz : ℕ
deriving DecidableEq

def Phdr.tempSeg (ph : Phdr) : TempSeg := ⟨ph.flags, ph.vaddr, ph.memsz, ph.offset, ph.filesz⟩

/-- The contents of a local variable of `n` bytes before anything is read into it;
`uninit` gives them for each variable. -/
def uninitialized (uninit : ℕ → ℕ → UInt8) (var n : ℕ) : List UInt8 :=
  (List.range n).map (uninit var)

/-- An iteration of the loop over the program headers. -/
def readPhdr (elfClass : ElfClass) (uninit : ℕ → ℕ → UInt8) (i : ℕ)
    (state : List TempSeg × IFStream) : List TempSeg × IFStream :=
  let (elfSegments, elf) := state
  let (bytes, elf) := elf.read elfClass.phdrSize (uninitialized uninit (i + 2) elfClass.phdrSize)
  let ph := elfClass.phdr bytes
  if ph.type = ptLoad then (elfSegments ++ [ph.tempSeg], elf) else (elfSegments, elf)

/-- The ELF header, the segments to load and the stream behind them. -/
def readElf (uninit : ℕ → ℕ → UInt8) (input : List UInt8) : Ehdr × List TempSeg × IFStream :=
  let elf := IFStream.openFile input
  let (e_ident, elf) := elf.read 16 (uninitialized uninit 0 16)
  let elf := elf.seekg 0
  let elfClass := identClass e_ident
  let (bytes, elf) := elf.read elfClass.ehdrSize (uninitialized uninit 1 elfClass.ehdrSize)
  let ehdr := elfClass.ehdr bytes
  let elf := elf.seekg ehdr.phoff
  (ehdr, Loop.times ehdr.phnum (readPhdr elfClass uninit) ([], elf))

/-! ## ELF files -/

namespace Elf

/-- The class of a file. -/
def fileClass (input : List UInt8) : ElfClass := identClass (input.take 16)

def header (input : List UInt8) : Ehdr := (fileClass input).ehdr input

/-- Program header `i`, where the ELF header says it is. -/
def programHeader (input : List UInt8) (i : ℕ) : Phdr :=
  (fileClass input).phdr (input.drop ((header input).phoff + i * (header input).phentsize))

/-- The `PT_LOAD` headers of a file, in order. -/
def loads (input : List UInt8) : List Phdr :=
  ((List.range (header input).phnum).map (programHeader input)).filter (·.type = ptLoad)

/-- Program header `i` is in the file. -/
def HeaderInside (input : List UInt8) (i : ℕ) : Prop :=
  (header input).phoff + i * (header input).phentsize + (fileClass input).phdrSize ≤ input.length

instance (input : List UInt8) : DecidablePred (HeaderInside input) :=
  fun _ => inferInstanceAs (Decidable (_ ≤ _))

/-- The entries of the table have the size of a program header. -/
def StandardEntries (input : List UInt8) : Prop :=
  1 < (header input).phnum → (header input).phentsize = (fileClass input).phdrSize

/-- The segments among the first `k` program headers, of those in the file. -/
def loadsInside (input : List UInt8) (k : ℕ) : List Phdr :=
  (((List.range k).filter (HeaderInside input ·)).map (programHeader input)).filter
    (·.type = ptLoad)

/-- The `PT_LOAD` headers of a file that may be cut short, in order. -/
def declared (input : List UInt8) : List Phdr :=
  if (fileClass input).ehdrSize ≤ input.length then loadsInside input (header input).phnum else []

/-- The headers and what is to be loaded lie inside the file, and program headers have
the standard size. -/
structure Valid (input : List UInt8) : Prop where
  length_lt : input.length < 2 ^ 63
  header_le : (fileClass input).ehdrSize ≤ input.length
  phentsize_eq : (header input).phentsize = (fileClass input).phdrSize
  table_le : ∀ i < (header input).phnum,
    (header input).phoff + (i + 1) * (header input).phentsize ≤ input.length
  loads_le : ∀ ph ∈ loads input, 0 < ph.filesz → ph.offset + ph.filesz ≤ input.length

end Elf

/-! ## Reading inside the file -/

/-- A stream without errors. -/
def IFStream.reading (file : List UInt8) (pos : ℕ) : IFStream := ⟨file, pos, false, false⟩

variable {file input buffer : List UInt8} {pos off n : ℕ} {uninit : ℕ → ℕ → UInt8}

theorem IFStream.seekg_reading (h : off < 2 ^ 63) :
    (reading file pos).seekg off = reading file off := by
  unfold reading seekg
  rw [if_neg Bool.false_ne_true, if_pos h]

theorem IFStream.read_reading (h : pos + n ≤ file.length) (hbuffer : buffer.length = n) :
    (reading file pos).read n buffer = ((file.drop pos).take n, reading file (pos + n)) := by
  have hgot : ((file.drop pos).take n).length = n := by
    rw [List.length_take, List.length_drop]
    omega
  have hshort : decide (((file.drop pos).take n).length < n) = false :=
    decide_eq_false (Nat.not_lt.mpr hgot.ge)
  have hrest : buffer.drop ((file.drop pos).take n).length = [] :=
    List.drop_eq_nil_of_le (hbuffer.trans hgot.symm).le
  unfold reading read
  dsimp only
  rw [hshort, hrest, hgot, List.append_nil]
  rfl

/-- A stream with an error keeps it. -/
theorem IFStream.seekg_fail {f : IFStream} (hfail : f.fail = true) : (f.seekg off).fail = true := by
  unfold seekg
  rw [if_pos hfail]
  exact hfail

theorem IFStream.read_fail {f : IFStream} (n : ℕ) (buffer : List UInt8) (hfail : f.fail = true) :
    (f.read n buffer).1 = buffer ∧ (f.read n buffer).2.fail = true := by
  unfold read
  rw [hfail, Bool.or_true, if_pos rfl]
  exact ⟨rfl, rfl⟩

/-- A read that falls short. -/
theorem IFStream.read_short (buffer : List UInt8) (hpositive : 0 < n) (h : file.length < pos + n) :
    ((reading file pos).read n buffer).1 =
        file.drop pos ++ buffer.drop (file.length - pos) ∧
      ((reading file pos).read n buffer).2.fail = true := by
  have hgot : (file.drop pos).take n = file.drop pos := by
    refine List.take_of_length_le ?_
    rw [List.length_drop]
    omega
  have hshort : (file.drop pos).length < n := by
    rw [List.length_drop]
    omega
  unfold reading read
  dsimp only
  rw [hgot, decide_eq_true hshort, List.length_drop]
  exact ⟨rfl, rfl⟩

/-- What a read of `n` bytes at `off` leaves in a buffer of zeros: without an error, what the
file has there. -/
def delivered (file : List UInt8) (readable : Bool) (off n : ℕ) : List UInt8 :=
  let got := if readable then (file.drop off).take n else []
  got ++ List.replicate (n - got.length) 0

/-- The stream can be read, or it has an error. -/
def IFStream.Reads (f : IFStream) (file : List UInt8) : Bool → Prop
  | true => ∃ pos, f = reading file pos
  | false => f.fail = true

theorem length_delivered (file : List UInt8) (readable : Bool) (off n : ℕ) :
    (delivered file readable off n).length = n := by
  have hle : (if readable then (file.drop off).take n else []).length ≤ n := by
    cases readable with
    | false => exact Nat.zero_le n
    | true => exact List.length_take_le n _
  unfold delivered
  rw [List.length_append, List.length_replicate]
  omega

theorem delivered_true (h : off + n ≤ file.length) :
    delivered file true off n = (file.drop off).take n := by
  have hgot : ((file.drop off).take n).length = n := by
    rw [List.length_take, List.length_drop]
    omega
  unfold delivered
  dsimp only
  rw [if_pos rfl, hgot, Nat.sub_self, List.replicate_zero, List.append_nil]

/-- From the first read that falls short on, nothing can be read. -/
theorem IFStream.Reads.read_seekg (off : ℕ) (hlength : file.length < 2 ^ 63) (hpositive : 0 < n)
    {readable : Bool} {f : IFStream} (hreads : f.Reads file readable) :
    ((f.seekg off).read n (List.replicate n 0)).1 = delivered file readable off n ∧
      ((f.seekg off).read n (List.replicate n 0)).2.Reads file
        (readable && decide (off + n ≤ file.length)) := by
  cases readable with
  | false => exact read_fail n _ (seekg_fail hreads)
  | true =>
      obtain ⟨pos, rfl⟩ := hreads
      by_cases hinside : off + n ≤ file.length
      · rw [seekg_reading (by omega), read_reading hinside List.length_replicate,
          delivered_true hinside, decide_eq_true hinside]
        exact ⟨rfl, off + n, rfl⟩
      · rw [decide_eq_false hinside]
        by_cases hoff : off < 2 ^ 63
        · obtain ⟨hdata, hfail⟩ := read_short (List.replicate n 0) hpositive
            (Nat.not_le.mp hinside)
          have hgot : (file.drop off).take n = file.drop off := by
            refine List.take_of_length_le ?_
            rw [List.length_drop]
            omega
          rw [seekg_reading hoff, hdata]
          refine ⟨?_, hfail⟩
          unfold delivered
          dsimp only
          rw [if_pos rfl, hgot, List.drop_replicate, List.length_drop]
        · have hfail : ((reading file pos).seekg off).fail = true := by
            unfold reading seekg
            rw [if_neg Bool.false_ne_true, if_neg hoff]
          obtain ⟨hdata, hfail⟩ := read_fail n (List.replicate n 0) hfail
          refine ⟨hdata.trans ?_, hfail⟩
          unfold delivered
          rw [if_pos rfl, List.drop_eq_nil_of_le (by omega), List.take_nil]
          rfl

@[simp] theorem length_uninitialized (uninit : ℕ → ℕ → UInt8) (var n : ℕ) :
    (uninitialized uninit var n).length = n := by
  simp [uninitialized]

/-- The fields of a program header are in its first bytes. -/
theorem ElfClass.phdr_take (elfClass : ElfClass) (bytes : List UInt8) :
    elfClass.phdr (bytes.take elfClass.phdrSize) = elfClass.phdr bytes := by
  cases elfClass <;>
    simp only [phdr, phdrSize, Memory.load_take, Nat.reduceAdd, Nat.reduceLeDiff]

theorem ElfClass.ehdr_take (elfClass : ElfClass) (bytes : List UInt8) :
    elfClass.ehdr (bytes.take elfClass.ehdrSize) = elfClass.ehdr bytes := by
  cases elfClass <;>
    simp only [ehdr, ehdrSize, Memory.load_take, Nat.reduceAdd, Nat.reduceLeDiff]

theorem ElfClass.phdr_lt (elfClass : ElfClass) (bytes : List UInt8) :
    (elfClass.phdr bytes).vaddr < 2 ^ 64 ∧ (elfClass.phdr bytes).memsz < 2 ^ 64 ∧
      (elfClass.phdr bytes).filesz < 2 ^ 64 := by
  have hload : ∀ a, (Memory.ofList bytes).load a 4 < 2 ^ 64 :=
    fun a => (Memory.load_lt _ a 4).trans (by decide)
  cases elfClass with
  | elf32 => exact ⟨hload 8, hload 20, hload 16⟩
  | elf64 => exact ⟨Memory.load_lt _ 16 8, Memory.load_lt _ 40 8, Memory.load_lt _ 32 8⟩

theorem ElfClass.ehdr_lt (elfClass : ElfClass) (bytes : List UInt8) :
    (elfClass.ehdr bytes).entry < 2 ^ 64 ∧ (elfClass.ehdr bytes).phnum < 2 ^ 16 := by
  cases elfClass with
  | elf32 => exact ⟨(Memory.load_lt _ 24 4).trans (by decide), Memory.load_lt _ 44 2⟩
  | elf64 => exact ⟨Memory.load_lt _ 24 8, Memory.load_lt _ 56 2⟩

theorem Elf.loads_length_lt (input : List UInt8) : (loads input).length < 2 ^ 16 := by
  refine (List.length_filter_le _ _).trans_lt ?_
  rw [List.length_map, List.length_range]
  exact (ElfClass.ehdr_lt _ _).2

theorem Elf.lt_of_mem_loads {ph : Phdr} (hph : ph ∈ loads input) :
    ph.vaddr < 2 ^ 64 ∧ ph.memsz < 2 ^ 64 ∧ ph.filesz < 2 ^ 64 := by
  obtain ⟨i, -, rfl⟩ := List.mem_map.mp (List.mem_filter.mp hph).1
  exact ElfClass.phdr_lt _ _

/-! ## The table -/

theorem ElfClass.phdrSize_pos (elfClass : ElfClass) : 0 < elfClass.phdrSize := by
  cases elfClass <;> decide

theorem Elf.HeaderInside.mono {i j : ℕ} (hinside : HeaderInside input j) (hij : i ≤ j) :
    HeaderInside input i := by
  have hle := Nat.mul_le_mul_right (header input).phentsize hij
  unfold HeaderInside at hinside ⊢
  omega

/-- Where `kex-ld` reads header `i`. -/
theorem Elf.StandardEntries.offset_eq (hentries : StandardEntries input) {i : ℕ}
    (hi : i < (header input).phnum) :
    i * (header input).phentsize = i * (fileClass input).phdrSize := by
  rcases Nat.eq_zero_or_pos i with rfl | hpositive
  · rw [Nat.zero_mul, Nat.zero_mul]
  · rw [hentries (Nat.lt_of_le_of_lt hpositive hi)]

theorem Elf.loadsInside_succ (input : List UInt8) (i : ℕ) :
    loadsInside input (i + 1) = loadsInside input i ++
      if HeaderInside input i ∧ (programHeader input i).type = ptLoad then
        [programHeader input i] else [] := by
  unfold loadsInside
  rw [List.range_succ, List.filter_append, List.map_append, List.filter_append,
    List.filter_singleton]
  by_cases hinside : HeaderInside input i
  · simp [hinside, List.filter_singleton]
  · simp [hinside]

/-- The segments among the first `k` program headers. -/
def Elf.firstLoads (input : List UInt8) (k : ℕ) : List Phdr :=
  ((List.range k).map (programHeader input)).filter (·.type = ptLoad)

theorem Elf.loadsInside_eq {k : ℕ} (hinside : ∀ i < k, HeaderInside input i) :
    loadsInside input k = firstLoads input k := by
  unfold loadsInside firstLoads
  rw [List.filter_eq_self.mpr fun i hi => decide_eq_true (hinside i (List.mem_range.mp hi))]

/-- No read has fallen short before header `k`. -/
def Elf.Sound (input : List UInt8) (k : ℕ) : Prop :=
  (header input).phoff < 2 ^ 63 ∧ ∀ i < k, HeaderInside input i

theorem Elf.sound_succ {k : ℕ} : Sound input (k + 1) ↔ Sound input k ∧ HeaderInside input k := by
  unfold Sound
  rw [Nat.forall_lt_succ_right, and_assoc]

theorem Elf.not_inside_of_not_sound (hlength : input.length < 2 ^ 63) {k : ℕ}
    (hsound : ¬ Sound input k) : ¬ HeaderInside input k := by
  intro hinside
  refine hsound ⟨?_, fun i hi => hinside.mono hi.le⟩
  unfold HeaderInside at hinside
  omega

/-- What the loop has read after `k` program headers: those in the file, and nothing else
as long as no read has fallen short. -/
structure TableRead (input : List UInt8) (k : ℕ) (state : List TempSeg × IFStream) : Prop where
  length_le : state.1.length ≤ k
  isPrefix : (Elf.loadsInside input k).map Phdr.tempSeg <+: state.1
  whole : Elf.Sound input k → state = ((Elf.loadsInside input k).map Phdr.tempSeg,
    .reading input ((Elf.header input).phoff + k * (Elf.fileClass input).phdrSize))
  short : ¬ Elf.Sound input k → state.2.fail = true

theorem readPhdr_fst (elfClass : ElfClass) (uninit : ℕ → ℕ → UInt8) (i : ℕ)
    (state : List TempSeg × IFStream) :
    state.1 <+: (readPhdr elfClass uninit i state).1 ∧
      (readPhdr elfClass uninit i state).1.length ≤ state.1.length + 1 := by
  unfold readPhdr
  dsimp only
  split
  · exact ⟨List.prefix_append _ _, by simp⟩
  · exact ⟨List.prefix_rfl, Nat.le_add_right _ _⟩

theorem readPhdr_snd (elfClass : ElfClass) (uninit : ℕ → ℕ → UInt8) (i : ℕ)
    (state : List TempSeg × IFStream) :
    (readPhdr elfClass uninit i state).2 = (state.2.read elfClass.phdrSize
      (uninitialized uninit (i + 2) elfClass.phdrSize)).2 := by
  unfold readPhdr
  dsimp only
  split <;> rfl

theorem readPhdr_eq (uninit : ℕ → ℕ → UInt8) (hentries : Elf.StandardEntries input) {i : ℕ}
    (hi : i < (Elf.header input).phnum) (hinside : Elf.HeaderInside input i) :
    readPhdr (Elf.fileClass input) uninit i ((Elf.loadsInside input i).map Phdr.tempSeg,
        .reading input ((Elf.header input).phoff + i * (Elf.fileClass input).phdrSize)) =
      ((Elf.loadsInside input (i + 1)).map Phdr.tempSeg,
        .reading input ((Elf.header input).phoff + (i + 1) * (Elf.fileClass input).phdrSize)) := by
  have hoffset := hentries.offset_eq hi
  have hle := hinside
  unfold Elf.HeaderInside at hle
  rw [hoffset] at hle
  have hheader : (Elf.fileClass input).phdr
      (input.drop ((Elf.header input).phoff + i * (Elf.fileClass input).phdrSize)) =
      Elf.programHeader input i := by
    rw [Elf.programHeader, hoffset]
  unfold readPhdr
  dsimp only
  rw [IFStream.read_reading hle (length_uninitialized _ _ _), ElfClass.phdr_take, hheader,
    Elf.loadsInside_succ, Nat.add_one_mul, ← Nat.add_assoc]
  split
  next hload => rw [if_pos ⟨hinside, hload⟩, List.map_append, List.map_singleton]
  next hload => rw [if_neg fun h => hload h.2, List.append_nil]

/-- The header that is not in the file. -/
theorem readPhdr_short (hentries : Elf.StandardEntries input) {i : ℕ}
    (hi : i < (Elf.header input).phnum) (hinside : ¬ Elf.HeaderInside input i)
    (segs : List TempSeg) :
    (readPhdr (Elf.fileClass input) uninit i (segs,
      .reading input ((Elf.header input).phoff + i * (Elf.fileClass input).phdrSize))).2.fail =
        true := by
  unfold Elf.HeaderInside at hinside
  rw [hentries.offset_eq hi, Nat.not_le] at hinside
  rw [readPhdr_snd]
  exact (IFStream.read_short _ (ElfClass.phdrSize_pos _) hinside).2

theorem TableRead.readPhdr (hlength : input.length < 2 ^ 63)
    (hentries : Elf.StandardEntries input) {i : ℕ} (hi : i < (Elf.header input).phnum)
    {state : List TempSeg × IFStream} (hread : TableRead input i state) :
    TableRead input (i + 1) (readPhdr (Elf.fileClass input) uninit i state) := by
  obtain ⟨hbefore, hsize⟩ := readPhdr_fst (Elf.fileClass input) uninit i state
  have hlength_le := hsize.trans (Nat.add_le_add_right hread.length_le 1)
  by_cases hinside : Elf.HeaderInside input i
  · have hsound : Elf.Sound input i :=
      by_contra fun h => Elf.not_inside_of_not_sound hlength h hinside
    have hnext := readPhdr_eq uninit hentries hi hinside
    rw [← hread.whole hsound] at hnext
    refine ⟨hlength_le, ?_, fun _ => hnext, fun h => ?_⟩
    · rw [hnext]
    · exact absurd (Elf.sound_succ.mpr ⟨hsound, hinside⟩) h
  · have hloads : Elf.loadsInside input (i + 1) = Elf.loadsInside input i := by
      rw [Elf.loadsInside_succ, if_neg fun h => hinside h.1, List.append_nil]
    refine ⟨hlength_le, hloads ▸ hread.isPrefix.trans hbefore,
      fun h => absurd (Elf.sound_succ.mp h).2 hinside, fun _ => ?_⟩
    by_cases hsound : Elf.Sound input i
    · rw [hread.whole hsound]
      exact readPhdr_short hentries hi hinside _
    · rw [readPhdr_snd]
      exact (IFStream.read_fail _ _ (hread.short hsound)).2

/-- What is read from a file in which the ELF header is complete. -/
theorem readElf_tableRead (hlength : input.length < 2 ^ 63)
    (hheader : (Elf.fileClass input).ehdrSize ≤ input.length)
    (hentries : Elf.StandardEntries input) (uninit : ℕ → ℕ → UInt8) :
    ∃ state, readElf uninit input = (Elf.header input, state) ∧
      TableRead input (Elf.header input).phnum state := by
  have hident : 0 + 16 ≤ input.length := by
    refine le_trans ?_ hheader
    cases Elf.fileClass input <;> decide
  have hopen : IFStream.openFile input = .reading input 0 := rfl
  have hclass : identClass ((input.drop 0).take 16) = Elf.fileClass input := rfl
  have hehdr : (Elf.fileClass input).ehdr input = Elf.header input := rfl
  unfold readElf
  rw [hopen]
  dsimp only
  rw [IFStream.read_reading hident (length_uninitialized _ _ _)]
  dsimp only
  rw [IFStream.seekg_reading (by decide), hclass, IFStream.read_reading (by omega)
    (length_uninitialized _ _ _)]
  dsimp only
  rw [List.drop_zero, ElfClass.ehdr_take, hehdr]
  refine ⟨_, rfl, Loop.times_invariant (TableRead input) _ _ _ ?_
    fun i hi state hstate => hstate.readPhdr hlength hentries hi⟩
  refine ⟨le_rfl, List.nil_prefix, fun hsound => ?_, fun hsound => ?_⟩
  · rw [IFStream.seekg_reading hsound.1, Nat.zero_mul, Nat.add_zero]
    rfl
  · have hphoff : ¬ (Elf.header input).phoff < 2 ^ 63 :=
      fun h => hsound ⟨h, fun i hi => absurd hi (Nat.not_lt_zero i)⟩
    unfold IFStream.reading IFStream.seekg
    rw [if_neg Bool.false_ne_true]
    exact if_neg hphoff ▸ rfl

/-! ## Valid files -/

theorem Elf.Valid.standardEntries (hvalid : Elf.Valid input) : Elf.StandardEntries input :=
  fun _ => hvalid.phentsize_eq

theorem Elf.Valid.headerInside (hvalid : Elf.Valid input) {i : ℕ}
    (hi : i < (Elf.header input).phnum) : Elf.HeaderInside input i := by
  have hinside := hvalid.table_le i hi
  rw [Nat.add_one_mul, ← Nat.add_assoc] at hinside
  unfold HeaderInside
  rwa [← hvalid.phentsize_eq]

/-- What is read from a valid file; the stream has no error as long as a segment is to
be read. -/
theorem readElf_eq (hvalid : Elf.Valid input) (uninit : ℕ → ℕ → UInt8) :
    ∃ elf readable, readElf uninit input =
        (Elf.header input, (Elf.loads input).map Phdr.tempSeg, elf) ∧
      elf.Reads input readable ∧ (Elf.loads input ≠ [] → readable = true) := by
  obtain ⟨⟨segs, elf⟩, hread, htable⟩ :=
    readElf_tableRead hvalid.length_lt hvalid.header_le hvalid.standardEntries uninit
  have hinside : ∀ i < (Elf.header input).phnum, Elf.HeaderInside input i :=
    fun i hi => hvalid.headerInside hi
  have hloads : Elf.loadsInside input (Elf.header input).phnum = Elf.loads input :=
    Elf.loadsInside_eq hinside
  by_cases hsound : Elf.Sound input (Elf.header input).phnum
  · rw [hread, htable.whole hsound, hloads]
    exact ⟨_, true, rfl, ⟨_, rfl⟩, fun _ => rfl⟩
  · have hnone : (Elf.header input).phnum = 0 := by
      by_contra hsome
      have hle := hvalid.table_le 0 (Nat.pos_of_ne_zero hsome)
      exact hsound ⟨(Nat.le_of_add_right_le hle).trans_lt hvalid.length_lt, hinside⟩
    have hempty : Elf.loads input = [] := by
      rw [Elf.loads, hnone]
      rfl
    have hsegs : segs = [] :=
      List.eq_nil_of_length_eq_zero (Nat.le_zero.mp (hnone ▸ htable.length_le))
    rw [hread, hsegs, hempty]
    exact ⟨elf, false, rfl, htable.short hsound, fun h => absurd rfl h⟩

end BadOS.KexLd
