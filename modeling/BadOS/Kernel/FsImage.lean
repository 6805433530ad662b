import BadOS.Kernel.FsWalk
import BadOS.Libc.Format
import BadOS.Foundation.LittleEndian

/-! # Images of files

An archive is written from a list of files. What the kernel reads from the image are the
names, the sizes and the contents of these files.
-/

namespace BadOS.Kernel.Fs

open Libc Memory

/-- A file, with the bytes of its header that the kernel does not look at. -/
structure File where
  name : List UInt8
  content : List UInt8
  owner : List UInt8
  rest : List UInt8
  name_length : 1 ≤ name.length ∧ name.length ≤ 99
  noNul : 0 ∉ name
  content_length : content.length ≤ 2 ^ 32 - 1024
  owner_length : owner.length = 24
  rest_length : rest.length = 377

/-- Eleven digits, the highest first. -/
def octal (n : ℕ) : List UInt8 :=
  (List.range 11).map fun i => UInt8.ofNat (48 + n / 8 ^ (10 - i) % 8)

namespace File

def header (f : File) : List UInt8 :=
  f.name ++ (List.replicate (100 - f.name.length) 0 ++
    (f.owner ++ (octal f.content.length ++ f.rest)))

def padding (f : File) : List UInt8 :=
  List.replicate ((f.content.length + 511) / 512 * 512 - f.content.length) 0

def blocks (f : File) : List UInt8 := f.header ++ (f.content ++ f.padding)

def entry (f : File) : TarEntry := ⟨f.name, f.content.length⟩

/-- The line that `fs_init` prints. -/
def line (f : File) : List UInt8 :=
  ascii "  Found file: " ++ (f.name ++ (ascii " (" ++
    (Printf.decimal (CInt.toI32 f.content.length) ++ ascii " bytes)\n")))

/-- A file whose owner is zero. -/
def plain (name content : List UInt8) (name_length : 1 ≤ name.length ∧ name.length ≤ 99)
    (noNul : 0 ∉ name) (content_length : content.length ≤ 2 ^ 32 - 1024) : File where
  name := name
  content := content
  owner := List.replicate 24 48
  rest := List.replicate 377 0
  name_length := name_length
  noNul := noNul
  content_length := content_length
  owner_length := List.length_replicate
  rest_length := List.length_replicate

end File

/-- The two empty blocks at the end of an archive. -/
def trailer : List UInt8 := List.replicate 1024 0

/-- The archive of the files. -/
def image : List File → List UInt8
  | [] => trailer
  | f :: files => f.blocks ++ image files

variable {m : Memory} {a n filename fuel : ℕ} {f : File} {files before behind : List File}
variable {name : List UInt8}

/-! ## Headers -/

theorem ofDigits_range (n k : ℕ) :
    Nat.ofDigits 8 ((List.range k).map fun i => n / 8 ^ i % 8) = n % 8 ^ k := by
  induction k with
  | zero => simp [Nat.mod_one]
  | succ k ih =>
      rw [List.range_succ, List.map_append, Nat.ofDigits_append, ih, List.length_map,
        List.length_range, List.map_singleton, Nat.ofDigits_singleton, ← Nat.mod_mul, ← pow_succ]

theorem octalField_of_holds (hheld : m.Holds a (octal n)) (hn : n < 8 ^ 11) : OctalField m a n := by
  refine ⟨(List.range 11).map fun i => n / 8 ^ i % 8, by simp, ?_, fun i hi => ?_, ?_⟩
  · intro d hd
    obtain ⟨i, -, rfl⟩ := List.mem_map.mp hd
    exact Nat.mod_lt _ (by decide)
  · rw [hheld (10 - i) (by simp [octal]; omega)]
    have hback : 10 - (10 - i) = i := by omega
    simp [octal, hback, hi]
  · rw [ofDigits_range, Nat.mod_eq_of_lt hn]

theorem File.header_length (f : File) : f.header.length = 512 := by
  have hname := f.name_length.2
  simp only [header, List.length_append, List.length_replicate, octal, List.length_map,
    List.length_range, f.owner_length, f.rest_length]
  omega

theorem File.blocks_length (f : File) : f.blocks.length = f.entry.span := by
  have hround : f.content.length ≤ (f.content.length + 511) / 512 * 512 := by omega
  rw [blocks, List.length_append, f.header_length, List.length_append, padding,
    List.length_replicate, Nat.add_sub_cancel' hround]
  rfl

theorem image_length (files : List File) :
    (image files).length = ((files.map File.entry).map TarEntry.span).sum + 1024 := by
  induction files with
  | nil => exact List.length_replicate.trans (Nat.zero_add _).symm
  | cons f files ih =>
      rw [image, List.length_append, f.blocks_length, ih, List.map_cons, List.map_cons,
        List.sum_cons, Nat.add_assoc]

/-- The header of a file is behind the blocks of the files before it. -/
theorem headerAddr_blocks (a : ℕ) (before : List File) :
    headerAddr a (before.map File.entry) = a + (before.flatMap File.blocks).length := by
  induction before generalizing a with
  | nil => rfl
  | cons f before ih =>
      rw [List.map_cons, headerAddr_cons, ih, List.flatMap_cons, List.length_append,
        f.blocks_length, Nat.add_assoc]

/-- The first bytes of a file are its header. -/
theorem File.headerAt (f : File) (hheld : m.Holds a f.header) : HeaderAt m a f.entry := by
  have hlength := f.name_length.2
  have hsize := f.content_length
  simp only [header, holds_append, List.length_replicate, f.owner_length] at hheld
  obtain ⟨hname, hzeros, -, hoctal, -⟩ := hheld
  have hnul := hzeros 0 (by rw [List.length_replicate]; omega)
  rw [List.getElem_replicate] at hnul
  refine ⟨isString_iff.mpr ⟨hname.bytes_eq, f.noNul, hnul⟩, f.name_length,
    octalField_of_holds ?_ ?_, f.content_length⟩
  · rwa [show a + f.name.length + (100 - f.name.length) + 24 = a + sizeOffset by
      unfold sizeOffset; omega] at hoctal
  · change f.content.length < 8 ^ 11
    omega

/-! ## The archive -/

theorem archive_of_holds (hheld : m.Holds a (image files))
    (hrange : a + (image files).length ≤ 2 ^ 64) : Archive m a (files.map File.entry) := by
  induction files generalizing a with
  | nil =>
      have hpos : 0 < trailer.length := List.length_replicate.symm ▸ Nat.succ_pos 1023
      exact (hheld 0 hpos).trans (List.getElem_replicate _)
  | cons f files ih =>
      rw [image, holds_append, f.blocks_length] at hheld
      rw [image, List.length_append, f.blocks_length, ← Nat.add_assoc] at hrange
      obtain ⟨hfile, hrest⟩ := hheld
      rw [File.blocks, holds_append] at hfile
      have hlast := image_length files
      exact ⟨f.headerAt hfile.1, by omega, ih hrest hrange⟩

/-- The contents of a file are behind its header. -/
theorem content_of_holds (before behind : List File)
    (hheld : m.Holds a (image (before ++ f :: behind))) :
    m.Holds (headerAddr a (before.map File.entry) + 512) f.content := by
  induction before generalizing a with
  | nil =>
      rw [List.nil_append, image, File.blocks, holds_append, holds_append, holds_append,
        f.header_length] at hheld
      exact hheld.1.2.1
  | cons f' before ih =>
      rw [List.cons_append, image, holds_append, f'.blocks_length] at hheld
      rw [List.map_cons, headerAddr_cons]
      exact ih hheld.2

theorem entries_ne (hfirst : ∀ f ∈ before, f.name ≠ name) :
    ∀ e ∈ before.map File.entry, e.name ≠ name := by
  intro e he
  obtain ⟨f, hf, rfl⟩ := List.mem_map.mp he
  exact hfirst f hf

/-! ## The listing -/

theorem decimal_length_le {x : ℤ} (hlo : -2 ^ 31 ≤ x) (hhi : x < 2 ^ 31) :
    (Printf.decimal x).length ≤ 11 := by
  have hnumeral : (Printf.numeral 10 x.natAbs).length ≤ 10 :=
    Printf.numeral_length_le (by decide) (by decide) (by omega)
  unfold Printf.decimal
  split
  · exact Nat.succ_le_succ hnumeral
  · omega

theorem listFile_eq (hheader : HeaderAt m a f.entry) (hend : a + f.name.length < 2 ^ 64) :
    listFile m a f.content.length = some f.line := by
  have hbound := CInt.toI32_bounds f.content.length
  have hformat : ascii "  Found file: %s (%d bytes)\n" = ascii "  Found file: " ++
      Printf.percent :: 115 :: (ascii " (" ++ Printf.percent :: 100 :: ascii " bytes)\n") := by
    decide
  refine printed_render (.cons (.str hheader.name hend) (.cons (.int hbound.1 hbound.2) .nil)) ?_ ?_
  · rw [hformat, Printf.render_append (by decide), Printf.percent, Printf.render,
      Printf.render_append (by decide), Printf.render, Printf.render_plain (by decide)]
    rfl
  · have hname := f.name_length.2
    have hnumber := decimal_length_le hbound.1 hbound.2
    have hliterals : (ascii "  Found file: ").length = 14 ∧ (ascii " (").length = 2 ∧
        (ascii " bytes)\n").length = 8 := by decide
    simp only [File.line, List.length_append, hliterals, Printf.intMax]
    omega

theorem fsInitLoop_eq (harchive : Archive m a (files.map File.entry))
    (hfuel : files.length < fuel) :
    fsInitLoop m fuel a = some (files.flatMap File.line) := by
  induction files generalizing a fuel with
  | nil =>
      obtain ⟨fuel, rfl⟩ := Nat.exists_eq_succ_of_ne_zero (Nat.ne_of_gt hfuel)
      have hend : m a = 0 := harchive
      rw [fsInitLoop, if_pos hend, List.flatMap_nil]
  | cons f files ih =>
      obtain ⟨fuel, rfl⟩ := Nat.exists_eq_succ_of_ne_zero (Nat.ne_of_gt (Nat.zero_lt_of_lt hfuel))
      obtain ⟨hheader, hnext, hrest⟩ := harchive
      have hname := f.name_length.2
      have hend : a + f.name.length < 2 ^ 64 := by
        unfold TarEntry.span at hnext
        omega
      have hlater := ih hrest (Nat.lt_of_succ_lt_succ hfuel)
      rw [fsInitLoop, if_neg hheader.first_ne_zero, hheader.getSize_eq]
      dsimp only
      rw [hheader.nextHeader_eq hnext, hlater]
      change (listFile m a f.content.length).bind _ = _
      rw [listFile_eq hheader hend]
      rfl

/-- What `fs_init` prints. -/
def listing (ramdiskAddr : ℕ) (files : List File) : List UInt8 :=
  ascii "FileSystem: initialized at 0x" ++ (Printf.hexadecimal (CInt.toI32 ramdiskAddr) ++
    ascii "\n") ++ files.flatMap File.line

theorem fsInit_eq (harchive : Archive m a (files.map File.entry)) :
    fsInit m a = some (a, listing a files) := by
  have hbound := CInt.toI32_bounds a
  have hformat : ascii "FileSystem: initialized at 0x%x\n" =
      ascii "FileSystem: initialized at 0x" ++ Printf.percent :: 120 :: ascii "\n" := by decide
  have hline : printed m "FileSystem: initialized at 0x%x\n" [.int (CInt.toI32 a)] =
      some (ascii "FileSystem: initialized at 0x" ++
        (Printf.hexadecimal (CInt.toI32 a) ++ ascii "\n")) := by
    refine printed_render (.cons (.int hbound.1 hbound.2) .nil) ?_ ?_
    · rw [hformat, Printf.render_append (by decide), Printf.percent, Printf.render,
        Printf.render_plain (by decide)]
      rfl
    · have hnumber : (Printf.hexadecimal (CInt.toI32 a)).length ≤ 8 :=
        Printf.numeral_length_le (by decide) (by decide) (by omega)
      have hliterals : (ascii "FileSystem: initialized at 0x").length = 29 ∧
          (ascii "\n").length = 1 := by decide
      simp only [List.length_append, hliterals, Printf.intMax]
      omega
  have hlength := harchive.length_lt
  rw [List.length_map] at hlength
  rw [fsInit, hline, Option.bind_some, fsInitLoop_eq harchive hlength, Option.map_some]
  rfl

/-! ## Reading the files back -/

/-- Where the contents of a file are, behind its header and the files `before`. -/
def contentOf (fsStartAddr : ℕ) (before : List File) : ℕ :=
  fsStartAddr + (before.flatMap File.blocks).length + 512

/-- The kernel has the files of a list: it finds the first of every name, with its
contents, and none that is not there. -/
structure Serves (m : Memory) (fsStartAddr : ℕ) (files : List File) (filename : ℕ)
    (name : List UInt8) : Prop where
  found : ∀ before f behind, files = before ++ f :: behind → f.name = name →
    (∀ f' ∈ before, f'.name ≠ name) →
    m.Holds (contentOf fsStartAddr before) f.content ∧
    (∀ outSize, fsGetFile m fsStartAddr filename outSize = some (contentOf fsStartAddr before,
      if outSize ≠ 0 then m.store outSize 8 f.content.length else m)) ∧
    fsCat m fsStartAddr filename = some (ascii "--- contents of file " ++ name ++
      ascii " ---\n" ++ f.content ++ ascii "--- end of file ---\n")
  missing : (∀ f ∈ files, f.name ≠ name) →
    (∀ outSize, fsGetFile m fsStartAddr filename outSize = some (0, m)) ∧
    fsCat m fsStartAddr filename = some (ascii "File not found: " ++ name ++ ascii "\n")

/-- What is written to an archive is listed and read back. -/
theorem image_serves (hheld : m.Holds a (image files)) (hrange : a + (image files).length ≤ 2 ^ 64)
    (hname : m.IsString filename name) (hend : filename + name.length < 2 ^ 64)
    (hlength : name.length < 2 ^ 30) :
    fsInit m a = some (a, listing a files) ∧ Serves m a files filename name := by
  have harchive := archive_of_holds hheld hrange
  refine ⟨fsInit_eq harchive, ?_, fun hnone => ?_⟩
  · rintro before f behind rfl rfl hfirst
    have hcontent := content_of_holds before behind hheld
    rw [List.map_append, List.map_cons] at harchive
    have hfound := harchive.found hname hend (entries_ne hfirst)
    rw [headerAddr_blocks] at hcontent hfound
    refine ⟨hcontent, hfound.1, ?_⟩
    rw [hfound.2]
    exact congrArg some (congrArg (· ++ _) (congrArg (_ ++ ·) hcontent.bytes_eq))
  · have hmissing := harchive.missing hname hend (entries_ne hnone)
    have hformat : ascii "File not found: %s\n" =
        ascii "File not found: " ++ Printf.percent :: 115 :: ascii "\n" := by decide
    have hliterals : (ascii "File not found: ").length = 16 ∧ (ascii "\n").length = 1 := by decide
    refine ⟨hmissing.1, ?_⟩
    rw [hmissing.2, printed_string hformat (by decide) (by decide) (strlen_eq hname hend) (by
      rw [hliterals.1, hliterals.2, Printf.intMax]
      omega), hname.bytes_eq]

def fileB : File := .plain (ascii "b") (ascii "xyz") (by decide) (by decide) (by decide)

def fileA : File := .plain (ascii "a") (ascii "pq") (by decide) (by decide) (by decide)

def emptyC : File := .plain (ascii "c") [] (by decide) (by decide) (by decide)

/-- Another file of the name `a`. -/
def laterA : File := .plain (ascii "a") (ascii "r") (by decide) (by decide) (by decide)

def smallFiles : List File := [fileB, fileA, emptyC, laterA]

/-- Their archive at 4096, and the strings `a`, `c` and `d` at 100, 102 and 104. -/
def smallImage : Memory :=
  Memory.extend (fun x => if x = 100 then 97 else if x = 102 then 99 else if x = 104 then 100
    else 0) 4096 (image smallFiles)

/-- The first `a` is found behind `b`, the empty file behind both, and no `d`. -/
theorem smallImage_serves :
    fsInit smallImage 4096 = some (4096, listing 4096 smallFiles) ∧
      fsGetFile smallImage 4096 100 0 = some (5632, smallImage) ∧
      fsGetFile smallImage 4096 102 0 = some (6656, smallImage) ∧
      fsGetFile smallImage 4096 104 0 = some (0, smallImage) := by
  have hheld : smallImage.Holds 4096 (image smallFiles) := holds_extend _ _ _
  have hrange : 4096 + (image smallFiles).length ≤ 2 ^ 64 := by
    rw [image_length]
    decide
  obtain ⟨hlisting, ha⟩ := image_serves hheld hrange
    (by decide +kernel : smallImage.IsString 100 (ascii "a")) (by decide) (by decide)
  obtain ⟨-, hc⟩ := image_serves hheld hrange
    (by decide +kernel : smallImage.IsString 102 (ascii "c")) (by decide) (by decide)
  obtain ⟨-, hd⟩ := image_serves hheld hrange
    (by decide +kernel : smallImage.IsString 104 (ascii "d")) (by decide) (by decide)
  have haddr : contentOf 4096 [fileB] = 5632 ∧ contentOf 4096 [fileB, fileA] = 6656 := by
    simp only [contentOf, List.flatMap_cons, List.flatMap_nil, List.length_append,
      File.blocks_length]
    decide
  have hfirst := (ha.found [fileB] fileA [emptyC, laterA] rfl rfl (by decide)).2.1 0
  have hempty := (hc.found [fileB, fileA] emptyC [laterA] rfl rfl (by decide)).2.1 0
  rw [haddr.1] at hfirst
  rw [haddr.2] at hempty
  exact ⟨hlisting, hfirst, hempty, (hd.missing (by decide)).1 0⟩

end BadOS.Kernel.Fs
