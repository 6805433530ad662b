import BadOS.Libc.Printf

/-! # The ramdisk

The ramdisk is a USTAR archive in memory: a header of 512 bytes for each file,
with the name at offset 0 and the size in octal at offset 124, the contents in
blocks of 512 bytes, and a block starting with 0 behind the last file.
-/

namespace BadOS.Kernel

open Libc

namespace Fs

/-- The offset of `size` in `struct tar_header`. -/
def sizeOffset : ℕ := 124

/-- The round of the loop for `j = 11 - i`, on `size` and `count`. -/
def addDigit (m : Memory) (addr i : ℕ) (found : ℕ × ℕ) : ℕ × ℕ :=
  (CInt.toU32 (found.1 + (charToInt (m (addr + (10 - i))) - 48) * found.2),
    found.2 * 8 % 2 ^ 32)

def getSize (m : Memory) (addr : ℕ) : ℕ := (Loop.times 11 (addDigit m addr) (0, 1)).1

/-- The header behind a file of `size` bytes; the offset is an `unsigned int`. -/
def nextHeader (header size : ℕ) : ℕ :=
  (header + (512 + (size + 511) % 2 ^ 32 / 512 * 512) % 2 ^ 32) % 2 ^ 64

/-- At most `fuel` rounds of a loop over the headers that ends early where
`visit` gives a result. It is `none` when a part of it does not end. -/
def walk {α : Type*} (m : Memory) (visit : ℕ → ℕ → Option (Option α)) (missing : Option α) :
    ℕ → ℕ → Option α
  | 0, _ => none
  | fuel + 1, header =>
      if m header = 0 then missing
      else
        let size := getSize m (header + sizeOffset)
        (visit header size).bind fun result =>
          match result with
          | some result => some result
          | none => walk m visit missing fuel (nextHeader header size)

/-- The address of a file's contents. -/
def contentAddr (header : ℕ) : ℕ := (header + 512) % 2 ^ 64

/-- The pointer returned, `NULL` when there is no such file, and the memory
after the call. Nothing is written before the loop ends, so a walk over more
headers than there are addresses never ends. -/
def fsGetFile (m : Memory) (fsStartAddr filename outSize : ℕ) : Option (ℕ × Memory) :=
  walk m
    (fun header size => (strcmp m header filename).map fun order =>
      if order = 0 then
        some (contentAddr header, if outSize ≠ 0 then m.store outSize 8 size else m)
      else none)
    (some (0, m)) (2 ^ 64) fsStartAddr

/-- One `printf("%c", content[i])` after the other. -/
def printContent (m : Memory) (content size : ℕ) : Option (List UInt8) :=
  Loop.times size
    (fun i output => output.bind fun before =>
      (printed m "%c" [.int (charToInt (m (content + i)))]).map fun char => before ++ char)
    (some [])

/-- What `fs_cat` prints for the file it finds. -/
def catFile (m : Memory) (targetFilename header size : ℕ) : Option (List UInt8) := do
  let top ← printed m "--- contents of file %s ---\n" [.str targetFilename]
  let content ← printContent m (contentAddr header) size
  let bottom ← printed m "--- end of file ---\n" []
  some (top ++ content ++ bottom)

/-- The bytes printed. -/
def fsCat (m : Memory) (fsStartAddr targetFilename : ℕ) : Option (List UInt8) :=
  walk m
    (fun header size => (strcmp m header targetFilename).bind fun order =>
      if order = 0 then (catFile m targetFilename header size).map some else some none)
    (printed m "File not found: %s\n" [.str targetFilename]) (2 ^ 64) fsStartAddr

/-! ## The archive -/

/-- A file of the archive. -/
structure TarEntry where
  name : List UInt8
  size : ℕ
deriving DecidableEq

/-- The bytes from a file's header to the next. -/
def TarEntry.span (e : TarEntry) : ℕ := 512 + (e.size + 511) / 512 * 512

/-- The eleven digits at `a` are those of `n` in octal; `digits` starts at the
lowest, which stands last. -/
def OctalField (m : Memory) (a n : ℕ) : Prop :=
  ∃ digits : List ℕ, digits.length = 11 ∧ (∀ d ∈ digits, d < 8) ∧
    (∀ i < 11, m (a + (10 - i)) = UInt8.ofNat (48 + digits.getD i 0)) ∧
    n = Nat.ofDigits 8 digits

/-- The header at `a` names `e`; its other bytes are arbitrary. -/
structure HeaderAt (m : Memory) (a : ℕ) (e : TarEntry) : Prop where
  name : m.IsString a e.name
  name_length : 1 ≤ e.name.length ∧ e.name.length ≤ 99
  size : OctalField m (a + sizeOffset) e.size
  size_le : e.size ≤ 2 ^ 32 - 1024

/-- The files follow each other from `a`, and a block starting with 0 follows. -/
def Archive (m : Memory) : ℕ → List TarEntry → Prop
  | a, [] => m a = 0
  | a, e :: rest => HeaderAt m a e ∧ a + e.span < 2 ^ 64 ∧ Archive m (a + e.span) rest

/-- The address of the header behind the files `before`. -/
def headerAddr (fsStartAddr : ℕ) (before : List TarEntry) : ℕ :=
  fsStartAddr + (before.map TarEntry.span).sum

variable {m : Memory} {a n header : ℕ} {e : TarEntry} {entries before behind : List TarEntry}

/-! ## Sizes -/

theorem charToInt_digit {d : ℕ} (hd : d < 8) :
    charToInt (UInt8.ofNat (48 + d)) - 48 = d := by
  decide +revert

theorem times_addDigit {digits : List ℕ} (hlength : digits.length = 11)
    (hdigits : ∀ d ∈ digits, d < 8)
    (hfield : ∀ i < 11, m (a + (10 - i)) = UInt8.ofNat (48 + digits.getD i 0)) (hn : n ≤ 11) :
    Loop.times n (addDigit m a) (0, 1) =
      (Nat.ofDigits 8 (digits.take n) % 2 ^ 32, 8 ^ n % 2 ^ 32) := by
  induction n with
  | zero => rfl
  | succ n ih =>
      have hget : digits[n]? = some (digits.getD n 0) := by
        rw [List.getD_eq_getElem?_getD, List.getElem?_eq_getElem (by omega), Option.getD_some]
      have hd : digits.getD n 0 < 8 := hdigits _ (List.mem_of_getElem? hget)
      have hdigit : charToInt (m (a + (10 - n))) - 48 = digits.getD n 0 := by
        rw [hfield n (by omega)]
        exact charToInt_digit hd
      have hvalue : Nat.ofDigits 8 (digits.take (n + 1)) =
          Nat.ofDigits 8 (digits.take n) + 8 ^ n * digits.getD n 0 := by
        rw [List.take_add_one, hget, Option.toList_some, Nat.ofDigits_append,
          Nat.ofDigits_singleton, List.length_take, Nat.min_eq_left (by omega)]
      rw [Loop.times_succ, ih (by omega), addDigit, hdigit, hvalue]
      have hsum : CInt.toU32 ((Nat.ofDigits 8 (digits.take n) % 2 ^ 32 : ℕ) +
          (digits.getD n 0 : ℤ) * (8 ^ n % 2 ^ 32 : ℕ)) =
          (Nat.ofDigits 8 (digits.take n) + 8 ^ n * digits.getD n 0) % 2 ^ 32 := by
        rw [← Nat.cast_mul, ← Nat.cast_add, CInt.toU32_natCast, mul_comm (8 ^ n)]
        simp [Nat.add_mod, Nat.mul_mod]
      have hcount : 8 ^ n % 2 ^ 32 * 8 % 2 ^ 32 = 8 ^ (n + 1) % 2 ^ 32 := by
        rw [Nat.mod_mul_mod, ← pow_succ]
      exact Prod.ext hsum hcount

theorem getSize_eq (hfield : OctalField m a n) : getSize m a = n % 2 ^ 32 := by
  obtain ⟨digits, hlength, hdigits, hbytes, rfl⟩ := hfield
  rw [getSize, times_addDigit hlength hdigits hbytes le_rfl, List.take_of_length_le hlength.le]

theorem HeaderAt.getSize_eq (hheader : HeaderAt m a e) : getSize m (a + sizeOffset) = e.size := by
  have hsize := hheader.size_le
  rw [Fs.getSize_eq hheader.size, Nat.mod_eq_of_lt (by omega)]

theorem HeaderAt.nextHeader_eq (hheader : HeaderAt m a e) (hrange : a + e.span < 2 ^ 64) :
    nextHeader a e.size = a + e.span := by
  have hsize := hheader.size_le
  unfold TarEntry.span at hrange ⊢
  unfold nextHeader
  omega

/-- The name of a file is not empty. -/
theorem HeaderAt.first_ne_zero (hheader : HeaderAt m a e) : m a ≠ 0 := by
  obtain ⟨c, s, hname⟩ := List.exists_cons_of_length_pos hheader.name_length.1
  obtain ⟨hc, hne, -⟩ := hname ▸ hheader.name
  rwa [hc]

/-! ## The walk -/

section Walk

variable {α : Type*} {visit : ℕ → ℕ → Option (Option α)} {missing : Option α} {result : α}
  {fuel : ℕ}

theorem headerAddr_cons : headerAddr a (e :: before) = headerAddr (a + e.span) before := by
  unfold headerAddr
  rw [List.map_cons, List.sum_cons, Nat.add_assoc]

theorem walk_pass (hheader : HeaderAt m a e) (hrange : a + e.span < 2 ^ 64)
    (hvisit : visit a e.size = some none) :
    walk m visit missing (fuel + 1) a = walk m visit missing fuel (a + e.span) := by
  rw [walk, if_neg hheader.first_ne_zero, hheader.getSize_eq]
  dsimp only
  rw [hvisit, Option.bind_some, hheader.nextHeader_eq hrange]

/-- Behind the first files of an archive is an archive. -/
theorem Archive.of_append (harchive : Archive m a (before ++ behind)) :
    Archive m (headerAddr a before) behind := by
  induction before generalizing a with
  | nil => exact harchive
  | cons e before ih =>
      rw [headerAddr_cons]
      exact ih harchive.2.2

/-- The walk passes a file in every round. -/
theorem walk_passes (harchive : Archive m a (before ++ behind))
    (hpass : ∀ e ∈ before, ∀ header, HeaderAt m header e → header + e.span < 2 ^ 64 →
      visit header e.size = some none) :
    walk m visit missing (fuel + before.length) a =
      walk m visit missing fuel (headerAddr a before) := by
  induction before generalizing a with
  | nil => rfl
  | cons e before ih =>
      obtain ⟨hheader, hrange, hrest⟩ := harchive
      rw [List.length_cons, ← Nat.add_assoc,
        walk_pass hheader hrange (hpass e List.mem_cons_self a hheader hrange), headerAddr_cons]
      exact ih hrest fun e' he' => hpass e' (List.mem_cons_of_mem _ he')

/-- The walk ends at the first file where the visit gives a result. -/
theorem walk_found (harchive : Archive m a (before ++ e :: behind))
    (hpass : ∀ e' ∈ before, ∀ header, HeaderAt m header e' → header + e'.span < 2 ^ 64 →
      visit header e'.size = some none)
    (hvisit : visit (headerAddr a before) e.size = some (some result))
    (hfuel : before.length < fuel) : walk m visit missing fuel a = some result := by
  obtain ⟨fuel, rfl⟩ : ∃ k, fuel = k + 1 + before.length := ⟨fuel - 1 - before.length, by omega⟩
  have hheader := harchive.of_append.1
  rw [walk_passes harchive hpass, walk, if_neg hheader.first_ne_zero, hheader.getSize_eq]
  dsimp only
  rw [hvisit, Option.bind_some]

/-- The walk ends at the end of the archive if it passes every file. -/
theorem walk_missing (harchive : Archive m a entries)
    (hpass : ∀ e ∈ entries, ∀ header, HeaderAt m header e → header + e.span < 2 ^ 64 →
      visit header e.size = some none)
    (hfuel : entries.length < fuel) : walk m visit missing fuel a = missing := by
  obtain ⟨fuel, rfl⟩ : ∃ k, fuel = k + 1 + entries.length := ⟨fuel - 1 - entries.length, by omega⟩
  rw [← List.append_nil entries] at harchive
  have hend : m (headerAddr a entries) = 0 := harchive.of_append
  rw [walk_passes harchive hpass, walk, if_pos hend]

/-- The files of an archive lie below the end of the address space. -/
theorem Archive.headerAddr_lt (harchive : Archive m a entries) (hne : entries ≠ []) :
    headerAddr a entries < 2 ^ 64 := by
  induction entries generalizing a with
  | nil => exact absurd rfl hne
  | cons e rest ih =>
      obtain ⟨-, hrange, hrest⟩ := harchive
      rw [headerAddr_cons]
      cases rest with
      | nil => simpa [headerAddr] using hrange
      | cons e' rest => exact ih hrest (List.cons_ne_nil _ _)

theorem length_le_span (entries : List TarEntry) :
    512 * entries.length ≤ (entries.map TarEntry.span).sum := by
  induction entries with
  | nil => exact le_rfl
  | cons e rest ih =>
      rw [List.map_cons, List.sum_cons, List.length_cons, TarEntry.span]
      omega

theorem Archive.length_lt (harchive : Archive m a entries) : entries.length < 2 ^ 64 := by
  have hspan := length_le_span entries
  rcases eq_or_ne entries [] with rfl | hne
  · decide
  · have haddr := harchive.headerAddr_lt hne
    unfold headerAddr at haddr
    omega

theorem Archive.append (harchive : Archive m a (before ++ e :: behind)) :
    HeaderAt m (headerAddr a before) e ∧ headerAddr a before + e.span < 2 ^ 64 :=
  ⟨harchive.of_append.1, harchive.of_append.2.1⟩

end Walk

/-! ## Lookup -/

variable {fsStartAddr filename : ℕ} {name : List UInt8}

/-- Comparing a file's name in place with the one asked for. -/
theorem HeaderAt.strcmp_name (hheader : HeaderAt m header e) (hrange : header + e.span < 2 ^ 64)
    (hname : m.IsString filename name) (hend : filename + name.length < 2 ^ 64) :
    ∃ order, strcmp m header filename = some order ∧ (order = 0 ↔ e.name = name) := by
  have hlength := hheader.name_length.2
  unfold TarEntry.span at hrange
  exact strcmp_eq_zero_iff hheader.name hname (by omega) hend

theorem printContent_eq (m : Memory) (content size : ℕ) :
    printContent m content size = some (m.bytes content size) := by
  unfold printContent
  induction size with
  | zero => rfl
  | succ n ih =>
      rw [Loop.times_succ, ih, Option.bind_some, printed_char, Option.map_some,
        Memory.bytes_append_one]

/-- The lines `fs_cat` prints around the contents. -/
theorem HeaderAt.catFile_eq (hheader : HeaderAt m header e) (hrange : header + e.span < 2 ^ 64)
    (hname : m.IsString filename e.name) (hend : filename + e.name.length < 2 ^ 64) :
    catFile m filename header e.size =
      some (ascii "--- contents of file " ++ e.name ++ ascii " ---\n" ++
        m.bytes (header + 512) e.size ++ ascii "--- end of file ---\n") := by
  have hlength := hheader.name_length.2
  have hcontent : contentAddr header = header + 512 := by
    unfold TarEntry.span at hrange
    unfold contentAddr
    omega
  have hformat : ascii "--- contents of file %s ---\n" =
      ascii "--- contents of file " ++ Printf.percent :: 115 :: ascii " ---\n" := by decide
  have hliterals : (ascii "--- contents of file ").length = 21 ∧ (ascii " ---\n").length = 5 := by
    decide
  have htop := printed_string hformat (by decide) (by decide) (strlen_eq hname hend) (by
    unfold Printf.intMax
    omega)
  rw [hname.bytes_eq] at htop
  have hbottom := printed_literal m (s := "--- end of file ---\n") (by decide) (by decide)
    (by decide)
  rw [catFile, htop, hcontent, printContent_eq, hbottom]
  rfl

/-- A lookup of `name`, which stands at `filename`, selects the first file of
that name, and fails exactly when there is none. -/
structure LooksUp (m : Memory) (fsStartAddr : ℕ) (entries : List TarEntry) (filename : ℕ)
    (name : List UInt8) : Prop where
  found : ∀ before e behind, entries = before ++ e :: behind → e.name = name →
    (∀ e' ∈ before, e'.name ≠ name) →
    (∀ outSize, fsGetFile m fsStartAddr filename outSize =
      some (headerAddr fsStartAddr before + 512,
        if outSize ≠ 0 then m.store outSize 8 e.size else m)) ∧
    fsCat m fsStartAddr filename =
      some (ascii "--- contents of file " ++ name ++ ascii " ---\n" ++
        m.bytes (headerAddr fsStartAddr before + 512) e.size ++ ascii "--- end of file ---\n")
  missing : (∀ e ∈ entries, e.name ≠ name) →
    (∀ outSize, fsGetFile m fsStartAddr filename outSize = some (0, m)) ∧
    fsCat m fsStartAddr filename = printed m "File not found: %s\n" [.str filename]
  null_iff : ∀ outSize, (fsGetFile m fsStartAddr filename outSize).map Prod.fst = some 0 ↔
    ∀ e ∈ entries, e.name ≠ name

theorem Archive.found (harchive : Archive m fsStartAddr (before ++ e :: behind))
    (hname : m.IsString filename e.name) (hend : filename + e.name.length < 2 ^ 64)
    (hfirst : ∀ e' ∈ before, e'.name ≠ e.name) :
    (∀ outSize, fsGetFile m fsStartAddr filename outSize =
      some (headerAddr fsStartAddr before + 512,
        if outSize ≠ 0 then m.store outSize 8 e.size else m)) ∧
    fsCat m fsStartAddr filename =
      some (ascii "--- contents of file " ++ e.name ++ ascii " ---\n" ++
        m.bytes (headerAddr fsStartAddr before + 512) e.size ++ ascii "--- end of file ---\n") := by
  obtain ⟨hheader, hrange⟩ := harchive.append
  have hlength := harchive.length_lt
  rw [List.length_append, List.length_cons] at hlength
  obtain ⟨order, horder, hzero⟩ := hheader.strcmp_name hrange hname hend
  have hequal : order = 0 := hzero.mpr rfl
  have hcontent : contentAddr (headerAddr fsStartAddr before) =
      headerAddr fsStartAddr before + 512 := by
    unfold TarEntry.span at hrange
    unfold contentAddr
    omega
  constructor
  · intro outSize
    apply walk_found harchive _ _ (by omega)
    · intro e' he' header hheader' hrange'
      obtain ⟨order', horder', hzero'⟩ := hheader'.strcmp_name hrange' hname hend
      rw [horder', Option.map_some, if_neg (hzero'.not.mpr (hfirst e' he'))]
    · rw [horder, Option.map_some, if_pos hequal, hcontent]
  · apply walk_found harchive _ _ (by omega)
    · intro e' he' header hheader' hrange'
      obtain ⟨order', horder', hzero'⟩ := hheader'.strcmp_name hrange' hname hend
      rw [horder', Option.bind_some, if_neg (hzero'.not.mpr (hfirst e' he'))]
    · rw [horder, Option.bind_some, if_pos hequal, hheader.catFile_eq hrange hname hend,
        Option.map_some]

theorem Archive.missing (harchive : Archive m fsStartAddr entries)
    (hname : m.IsString filename name) (hend : filename + name.length < 2 ^ 64)
    (hnone : ∀ e ∈ entries, e.name ≠ name) :
    (∀ outSize, fsGetFile m fsStartAddr filename outSize = some (0, m)) ∧
    fsCat m fsStartAddr filename = printed m "File not found: %s\n" [.str filename] := by
  constructor
  · intro outSize
    apply walk_missing harchive _ harchive.length_lt
    intro e he header hheader hrange
    obtain ⟨order, horder, hzero⟩ := hheader.strcmp_name hrange hname hend
    rw [horder, Option.map_some, if_neg (hzero.not.mpr (hnone e he))]
  · apply walk_missing harchive _ harchive.length_lt
    intro e he header hheader hrange
    obtain ⟨order, horder, hzero⟩ := hheader.strcmp_name hrange hname hend
    rw [horder, Option.bind_some, if_neg (hzero.not.mpr (hnone e he))]

/-- The first file of a name that occurs. -/
theorem exists_first (hexists : ∃ e ∈ entries, e.name = name) :
    ∃ before e behind, entries = before ++ e :: behind ∧ e.name = name ∧
      ∀ e' ∈ before, e'.name ≠ name := by
  have hsome : (entries.find? fun e => decide (e.name = name)).isSome := by
    rw [List.find?_isSome]
    simpa using hexists
  obtain ⟨e, hfind⟩ := Option.isSome_iff_exists.mp hsome
  obtain ⟨he, before, behind, hsplit, hbefore⟩ := List.find?_eq_some_iff_append.mp hfind
  refine ⟨before, e, behind, hsplit, by simpa using he, fun e' he' => ?_⟩
  simpa using hbefore e' he'

/-- In every archive, and for every name, `fs_get_file` and `fs_cat` find the
first file of that name. -/
theorem Archive.looksUp (harchive : Archive m fsStartAddr entries)
    (hname : m.IsString filename name) (hend : filename + name.length < 2 ^ 64) :
    LooksUp m fsStartAddr entries filename name := by
  constructor
  · rintro before e behind rfl rfl hfirst
    exact harchive.found hname hend hfirst
  · exact harchive.missing hname hend
  · intro outSize
    constructor
    · intro hnull e he heq
      obtain ⟨before, e, behind, rfl, rfl, hfirst⟩ := exists_first ⟨e, he, heq⟩
      rw [(harchive.found hname hend hfirst).1 outSize] at hnull
      simp at hnull
    · intro hnone
      rw [(harchive.missing hname hend hnone).1 outSize]
      rfl

/-- The files `b`, `a` and `a` of 3, 3 and 0 bytes at 4096, and the string `a` at 100. -/
def threeFiles : Memory := fun x =>
  if x = 100 ∨ x = 5120 ∨ x = 6144 then 97
  else if x = 4096 then 98
  else if 4220 ≤ x ∧ x < 4230 ∨ 5244 ≤ x ∧ x < 5254 ∨ 6268 ≤ x ∧ x < 6279 then 48
  else if x = 4230 ∨ x = 5254 then 51
  else if 4608 ≤ x ∧ x < 4611 ∨ 5632 ≤ x ∧ x < 5635 then 120
  else 0

theorem threeFiles_field :
    OctalField threeFiles (4096 + sizeOffset) 3 ∧ OctalField threeFiles (5120 + sizeOffset) 3 ∧
      OctalField threeFiles (6144 + sizeOffset) 0 := by
  refine ⟨⟨[3, 0, 0, 0, 0, 0, 0, 0, 0, 0, 0], ?_⟩, ⟨[3, 0, 0, 0, 0, 0, 0, 0, 0, 0, 0], ?_⟩,
    ⟨List.replicate 11 0, ?_⟩⟩ <;> exact ⟨by decide, by decide, by decide, by decide⟩

theorem threeFiles_archive : Archive threeFiles 4096 [⟨[98], 3⟩, ⟨[97], 3⟩, ⟨[97], 0⟩] := by
  obtain ⟨hb, ha, hempty⟩ := threeFiles_field
  refine ⟨⟨by decide, by decide, hb, by decide⟩, by decide, ⟨by decide, by decide, ha, by decide⟩,
    by decide, ⟨by decide, by decide, hempty, by decide⟩, by decide, rfl⟩

/-- The file `b` is passed over, and the second `a` is never reached. -/
theorem threeFiles_looksUp :
    LooksUp threeFiles 4096 [⟨[98], 3⟩, ⟨[97], 3⟩, ⟨[97], 0⟩] 100 [97] :=
  threeFiles_archive.looksUp (by decide) (by decide)

end Fs

end BadOS.Kernel
