import BadOS.Kernel.FsWalk

/-! # Lookup in two archives

A name of 100 bytes fills its field and has no NUL behind it, so the comparison
goes on into `mode` and the fields after it. Lookups in two archives with the same
names and sizes agree exactly when those bytes do not tell them apart.
-/

namespace BadOS.Kernel.Fs

open Libc

/-! ## Archives with full name fields -/

/-- The length of `filename` in `struct tar_header`. -/
def nameLength : ℕ := 100

/-- The header at `a` names `e`, with a NUL unless the name fills its field; its other
bytes are arbitrary. -/
structure UstarHeader (m : Memory) (a : ℕ) (e : TarEntry) : Prop where
  name : m.bytes a e.name.length = e.name
  noNul : 0 ∉ e.name
  nul : e.name.length < nameLength → m (a + e.name.length) = 0
  name_length : 1 ≤ e.name.length ∧ e.name.length ≤ nameLength
  size : OctalField m (a + sizeOffset) e.size
  size_le : e.size ≤ 2 ^ 32 - 1024

/-- The files follow each other from `a`, and a block starting with 0 follows. -/
def UstarArchive (m : Memory) : ℕ → List TarEntry → Prop
  | a, [] => m a = 0
  | a, e :: rest => UstarHeader m a e ∧ a + e.span < 2 ^ 64 ∧ UstarArchive m (a + e.span) rest

/-- The files with the offsets of their headers. -/
def layout : ℕ → List TarEntry → List (ℕ × TarEntry)
  | _, [] => []
  | offset, e :: rest => (offset, e) :: layout (offset + e.span) rest

/-! ## Lookups -/

/-- The memory and the arguments of a call of `fs_get_file`. -/
structure Lookup where
  memory : Memory
  fsStartAddr : ℕ
  filename : ℕ

namespace Lookup

/-- The call is for `name` in an archive of these files. -/
structure Asks (r : Lookup) (entries : List TarEntry) (name : List UInt8) : Prop where
  archive : UstarArchive r.memory r.fsStartAddr entries
  string : r.memory.IsString r.filename name
  string_end : r.filename + name.length < 2 ^ 64

/-- What the call returns and leaves in memory for the header at an offset, with its
size, or for no header. -/
def outcome (r : Lookup) (outSize : ℕ) : Option (ℕ × ℕ) → ℕ × Memory
  | none => (0, r.memory)
  | some (offset, size) =>
      (r.fsStartAddr + offset + 512,
        if outSize ≠ 0 then r.memory.store outSize 8 size else r.memory)

/-- The call gives the header at an offset, with its size, or `NULL`. -/
def Gives (r : Lookup) (result : Option (ℕ × ℕ)) : Prop :=
  ∀ outSize, fsGetFile r.memory r.fsStartAddr r.filename outSize = some (r.outcome outSize result)

/-- The name at the header of a file, read up to a NUL, is `name`. -/
def Matches (r : Lookup) (name : List UInt8) (file : ℕ × TarEntry) : Prop :=
  r.memory.IsString (r.fsStartAddr + file.1) name

instance (r : Lookup) (name : List UInt8) (file : ℕ × TarEntry) :
    Decidable (r.Matches name file) :=
  inferInstanceAs (Decidable (r.memory.IsString _ name))

/-- The bytes behind the name field of a file, read up to a NUL, are the end of `name`. -/
def Continues (r : Lookup) (name : List UInt8) (file : ℕ × TarEntry) : Prop :=
  r.memory.IsString (r.fsStartAddr + file.1 + nameLength) (name.drop nameLength)

def selected (r : Lookup) (name : List UInt8) (files : List (ℕ × TarEntry)) :
    Option (ℕ × TarEntry) :=
  files.find? fun file => decide (r.Matches name file)

end Lookup

/-- Both calls give the same header offset and size, or both `NULL`. -/
def SameResult (r₁ r₂ : Lookup) : Prop := ∃ result, r₁.Gives result ∧ r₂.Gives result

/-- Where a name fills its field and starts the requested name, the bytes behind it
continue the requested name in both archives or in none, unless an earlier file matches. -/
def FullNamesAgree (r₁ r₂ : Lookup) (entries : List TarEntry) (name : List UInt8) : Prop :=
  ∀ before file behind, layout 0 entries = before ++ file :: behind →
    file.2.name.length = nameLength → file.2.name <+: name →
    (∀ earlier ∈ before, ¬ r₁.Matches name earlier ∧ ¬ r₂.Matches name earlier) →
    (r₁.Continues name file ↔ r₂.Continues name file)

variable {m : Memory} {a n offset filename outSize fuel : ℕ} {r r₁ r₂ : Lookup}
  {e : TarEntry} {entries : List TarEntry} {file : ℕ × TarEntry}
  {files before behind : List (ℕ × TarEntry)} {name s t : List UInt8}

/-! ## Names in place -/

/-- A name that leaves room for a NUL is the string at the header. -/
theorem UstarHeader.isString_short (hheader : UstarHeader m a e)
    (hlength : e.name.length < nameLength) : m.IsString a name ↔ e.name = name := by
  have hstring : m.IsString a e.name := by
    rw [Memory.isString_iff_begins hheader.name hheader.noNul, List.drop_length]
    exact ⟨List.prefix_rfl, hheader.nul hlength⟩
  exact ⟨Memory.isString_unique hstring, fun heq => heq ▸ hstring⟩

/-- A name that fills its field goes on behind it. -/
theorem UstarHeader.isString_full (hheader : UstarHeader m a e)
    (hlength : e.name.length = nameLength) :
    m.IsString a name ↔
      e.name <+: name ∧ m.IsString (a + nameLength) (name.drop nameLength) := by
  rw [Memory.isString_iff_begins hheader.name hheader.noNul, hlength]

/-! ## One archive -/

theorem UstarHeader.first_ne_zero (hheader : UstarHeader m a e) : m a ≠ 0 := by
  obtain ⟨c, s, hname⟩ := List.exists_cons_of_length_pos hheader.name_length.1
  have hbytes := hheader.name
  have hnul := hheader.noNul
  rw [hname, List.length_cons, Memory.bytes_succ, List.cons.injEq] at hbytes
  rw [hname, List.mem_cons, not_or] at hnul
  exact fun hzero => hnul.1 (hzero.symm.trans hbytes.1)

theorem UstarHeader.next_eq (hheader : UstarHeader m a e) (hrange : a + e.span < 2 ^ 64) :
    nextHeader a e.size = a + e.span := by
  have hsize := hheader.size_le
  unfold TarEntry.span at hrange ⊢
  unfold nextHeader
  omega

theorem UstarHeader.getSize_eq (hheader : UstarHeader m a e) :
    getSize m (a + sizeOffset) = e.size := by
  have hsize := hheader.size_le
  rw [Fs.getSize_eq hheader.size, Nat.mod_eq_of_lt (by omega)]

/-- The walk ends at a NUL, so every comparison does. -/
theorem UstarArchive.exists_nul (harchive : UstarArchive m a entries) (ha : a < 2 ^ 64) :
    ∃ n, a + n < 2 ^ 64 ∧ m (a + n) = 0 := by
  induction entries generalizing a with
  | nil => exact ⟨0, ha, harchive⟩
  | cons e rest ih =>
      obtain ⟨n, hn, hnul⟩ := ih harchive.2.2 harchive.2.1
      rw [Nat.add_assoc] at hn hnul
      exact ⟨e.span + n, hn, hnul⟩

theorem UstarArchive.strcmp_eq (harchive : UstarArchive m a entries) (ha : a < 2 ^ 64)
    (hname : m.IsString filename name) (hend : filename + name.length < 2 ^ 64) :
    ∃ order, strcmp m a filename = some order ∧ (order = 0 ↔ m.IsString a name) := by
  obtain ⟨n, hn, hnul⟩ := harchive.exists_nul ha
  obtain ⟨s, hs, hlength⟩ := Memory.exists_isString hnul
  obtain ⟨order, horder, hzero⟩ := strcmp_eq_zero_iff hs hname (by omega) hend
  refine ⟨order, horder, hzero.trans ⟨fun heq => heq ▸ hs, Memory.isString_unique hs⟩⟩

theorem UstarArchive.length_lt (harchive : UstarArchive m a entries) (hne : entries ≠ []) :
    a + 512 * entries.length < 2 ^ 64 := by
  induction entries generalizing a with
  | nil => exact absurd rfl hne
  | cons e rest ih =>
      have hrange := harchive.2.1
      unfold TarEntry.span at hrange
      rw [List.length_cons]
      rcases eq_or_ne rest [] with rfl | hrest
      · simp only [List.length_nil]
        omega
      · have hlength := ih harchive.2.2 hrest
        unfold TarEntry.span at hlength
        omega

/-- The walk ends at the first file that matches. -/
theorem Lookup.Asks.walk_eq (hname : r.memory.IsString r.filename name)
    (hend : r.filename + name.length < 2 ^ 64)
    (harchive : UstarArchive r.memory (r.fsStartAddr + offset) entries)
    (hfuel : entries.length < fuel) :
    walk r.memory
      (fun header size => (strcmp r.memory header r.filename).map fun order =>
        if order = 0 then
          some (contentAddr header,
            if outSize ≠ 0 then r.memory.store outSize 8 size else r.memory)
        else none)
      (some (0, r.memory)) fuel (r.fsStartAddr + offset) =
    some (r.outcome outSize ((r.selected name (layout offset entries)).map
      fun file => (file.1, file.2.size))) := by
  induction entries generalizing offset fuel with
  | nil =>
      obtain ⟨fuel, rfl⟩ : ∃ k, fuel = k + 1 := ⟨fuel - 1, by omega⟩
      have hlast : r.memory (r.fsStartAddr + offset) = 0 := harchive
      rw [walk, if_pos hlast]
      rfl
  | cons e rest ih =>
      obtain ⟨fuel, rfl⟩ : ∃ k, fuel = k + 1 := ⟨fuel - 1, by omega⟩
      have hrange := harchive.2.1
      have hspan : 512 ≤ e.span := Nat.le_add_right _ _
      obtain ⟨order, horder, hzero⟩ := harchive.strcmp_eq (by omega) hname hend
      obtain ⟨hheader, -, hrest⟩ := harchive
      rw [List.length_cons] at hfuel
      by_cases hmatches : r.Matches name (offset, e)
      · have hcontent : contentAddr (r.fsStartAddr + offset) = r.fsStartAddr + offset + 512 := by
          unfold contentAddr
          omega
        rw [walk, if_neg hheader.first_ne_zero, hheader.getSize_eq, selected, layout,
          List.find?_cons_of_pos (by simpa using hmatches)]
        dsimp only
        rw [horder, Option.map_some, if_pos (hzero.mpr hmatches), hcontent, Option.bind_some]
        rfl
      · rw [Nat.add_assoc] at hrest
        rw [walk_moves hheader.first_ne_zero, hheader.getSize_eq, hheader.next_eq hrange,
          Nat.add_assoc, ih hrest (by omega), selected, selected, layout,
          List.find?_cons_of_neg (by simpa using hmatches)]
        rw [horder, Option.map_some, if_neg (hzero.not.mpr hmatches)]

/-- `fs_get_file` gives the first file that matches. -/
theorem Lookup.Asks.gives (hasks : r.Asks entries name) :
    r.Gives ((r.selected name (layout 0 entries)).map fun file => (file.1, file.2.size)) := by
  intro outSize
  have hfuel : entries.length < 2 ^ 64 := by
    rcases eq_or_ne entries [] with rfl | hne
    · decide
    · have hlength := hasks.archive.length_lt hne
      omega
  have harchive : UstarArchive r.memory (r.fsStartAddr + 0) entries := hasks.archive
  exact Lookup.Asks.walk_eq hasks.string hasks.string_end harchive hfuel

/-! ## Two archives -/

theorem layout_offset_le (hfile : file ∈ layout offset entries) : offset ≤ file.1 := by
  induction entries generalizing offset with
  | nil => exact absurd hfile List.not_mem_nil
  | cons e rest ih =>
      rcases List.mem_cons.mp hfile with rfl | hmem
      · exact le_rfl
      · have hle := ih hmem
        omega

/-- A file is known by its offset. -/
theorem layout_unique {file' : ℕ × TarEntry} (hfile : file ∈ layout offset entries)
    (hfile' : file' ∈ layout offset entries) (heq : file.1 = file'.1) : file = file' := by
  induction entries generalizing offset with
  | nil => exact absurd hfile List.not_mem_nil
  | cons e rest ih =>
      have hspan : 512 ≤ e.span := Nat.le_add_right _ _
      rcases List.mem_cons.mp hfile with rfl | hmem
      · rcases List.mem_cons.mp hfile' with rfl | hmem'
        · rfl
        · have hle := layout_offset_le hmem'
          dsimp only at heq
          omega
      · rcases List.mem_cons.mp hfile' with rfl | hmem'
        · have hle := layout_offset_le hmem
          dsimp only at heq
          omega
        · exact ih hmem hmem'

/-- Two searches end at the same place when they agree on every element up to there. -/
theorem find?_eq_iff {α : Type*} {l : List α} {p q : α → Bool} :
    l.find? p = l.find? q ↔ ∀ before x behind, l = before ++ x :: behind →
      (∀ y ∈ before, p y = false ∧ q y = false) → p x = q x := by
  induction l with
  | nil => simp
  | cons z l ih =>
      by_cases heq : p z = q z
      · cases hz : p z with
        | true =>
            rw [List.find?_cons_of_pos hz, List.find?_cons_of_pos (heq ▸ hz), eq_self, true_iff]
            rintro (_ | ⟨y, before⟩) x behind hsplit hbefore
            · obtain ⟨rfl, -⟩ := List.cons.inj hsplit
              exact heq
            · obtain ⟨rfl, -⟩ := List.cons.inj hsplit
              exact absurd hz (by simp [(hbefore z List.mem_cons_self).1])
        | false =>
            have hqz : q z = false := heq ▸ hz
            rw [List.find?_cons_of_neg (by simp [hz]), List.find?_cons_of_neg (by simp [hqz]), ih]
            constructor
            · rintro hagree (_ | ⟨y, before⟩) x behind hsplit hbefore
              · obtain ⟨rfl, -⟩ := List.cons.inj hsplit
                exact heq
              · obtain ⟨-, hrest⟩ := List.cons.inj hsplit
                exact hagree before x behind hrest
                  fun y' hy' => hbefore y' (List.mem_cons_of_mem _ hy')
            · intro hagree before x behind hsplit hbefore
              refine hagree (z :: before) x behind (by rw [hsplit, List.cons_append]) fun y hy => ?_
              rcases List.mem_cons.mp hy with rfl | hy
              · exact ⟨hz, hqz⟩
              · exact hbefore y hy
      · refine iff_of_false (fun hfind => heq ?_) fun hagree => heq ?_
        · by_cases hz : p z = true
          · rw [List.find?_cons_of_pos hz] at hfind
            exact hz.trans (List.find?_some hfind.symm).symm
          · have hqz : q z = true := by
              simpa [Bool.eq_false_iff.mpr hz] using Ne.symm heq
            rw [List.find?_cons_of_pos hqz] at hfind
            exact (List.find?_some hfind).trans hqz.symm
        · exact hagree [] z l rfl fun y hy => absurd hy List.not_mem_nil

theorem mem_layout (harchive : UstarArchive m (a + offset) entries)
    (hfile : file ∈ layout offset entries) : UstarHeader m (a + file.1) file.2 := by
  induction entries generalizing offset with
  | nil => exact absurd hfile List.not_mem_nil
  | cons e rest ih =>
      rcases List.mem_cons.mp hfile with rfl | hmem
      · exact harchive.1
      · have hrest := harchive.2.2
        rw [Nat.add_assoc] at hrest
        exact ih hrest hmem

theorem Lookup.Asks.header (hasks : r.Asks entries name) (hfile : file ∈ layout 0 entries) :
    UstarHeader r.memory (r.fsStartAddr + file.1) file.2 := by
  have harchive : UstarArchive r.memory (r.fsStartAddr + 0) entries := hasks.archive
  exact mem_layout harchive hfile

/-- Only full names can match in one archive and not in the other. -/
theorem matches_iff (hasks₁ : r₁.Asks entries name) (hasks₂ : r₂.Asks entries name)
    (hfile : file ∈ layout 0 entries) :
    (r₁.Matches name file ↔ r₂.Matches name file) ↔
      (file.2.name.length = nameLength → file.2.name <+: name →
        (r₁.Continues name file ↔ r₂.Continues name file)) := by
  have hheader₁ := hasks₁.header hfile
  have hheader₂ := hasks₂.header hfile
  unfold Lookup.Matches Lookup.Continues
  rcases Nat.lt_or_ge file.2.name.length nameLength with hlength | hlength
  · rw [hheader₁.isString_short hlength, hheader₂.isString_short hlength]
    exact iff_of_true Iff.rfl fun heq => absurd heq hlength.ne
  · have hfull := le_antisymm hheader₁.name_length.2 hlength
    rw [hheader₁.isString_full hfull, hheader₂.isString_full hfull]
    tauto

theorem selected_eq_iff (hasks₁ : r₁.Asks entries name) (hasks₂ : r₂.Asks entries name) :
    r₁.selected name (layout 0 entries) = r₂.selected name (layout 0 entries) ↔
      FullNamesAgree r₁ r₂ entries name := by
  unfold Lookup.selected FullNamesAgree
  rw [find?_eq_iff]
  simp only [decide_eq_false_iff_not, decide_eq_decide]
  refine forall_congr' fun before => forall_congr' fun file => forall_congr' fun behind =>
    forall_congr' fun hsplit => ?_
  have hfile : file ∈ layout 0 entries := by
    rw [hsplit]
    exact List.mem_append_right _ List.mem_cons_self
  rw [matches_iff hasks₁ hasks₂ hfile]
  tauto

/-- The pointer tells the offset. -/
theorem outcome_offset {result result' : Option (ℕ × ℕ)}
    (heq : r.outcome 0 result = r.outcome 0 result') :
    result.map Prod.fst = result'.map Prod.fst := by
  have hpointer := congrArg Prod.fst heq
  rcases result with _ | ⟨offset, size⟩ <;> rcases result' with _ | ⟨offset', size'⟩
  · rfl
  · simp [Lookup.outcome] at hpointer
  · simp [Lookup.outcome] at hpointer
  · simpa [Lookup.outcome] using hpointer

/-- The lookups of a name in two archives with the same names and sizes give the same
result exactly when the bytes behind full name fields do not tell the archives apart. -/
theorem sameResult_iff (hasks₁ : r₁.Asks entries name) (hasks₂ : r₂.Asks entries name) :
    SameResult r₁ r₂ ↔ FullNamesAgree r₁ r₂ entries name := by
  rw [← selected_eq_iff hasks₁ hasks₂]
  constructor
  · rintro ⟨result, hgives₁, hgives₂⟩
    have hoffset₁ := outcome_offset (Option.some.inj ((hgives₁ 0).symm.trans (hasks₁.gives 0)))
    have hoffset₂ := outcome_offset (Option.some.inj ((hgives₂ 0).symm.trans (hasks₂.gives 0)))
    rw [hoffset₁, Option.map_map, Option.map_map] at hoffset₂
    cases hfile₁ : r₁.selected name (layout 0 entries) with
    | none =>
        rw [hfile₁] at hoffset₂
        exact (Option.map_eq_none_iff.mp hoffset₂.symm).symm
    | some file₁ =>
        cases hfile₂ : r₂.selected name (layout 0 entries) with
        | none => simp [hfile₁, hfile₂] at hoffset₂
        | some file₂ =>
            rw [hfile₁, hfile₂] at hoffset₂
            exact congrArg some (layout_unique (List.mem_of_find?_eq_some hfile₁)
              (List.mem_of_find?_eq_some hfile₂) (Option.some.inj hoffset₂))
  · intro heq
    exact ⟨_, hasks₁.gives, heq ▸ hasks₂.gives⟩

/-! ## A name of 100 bytes -/

/-- A hundred times `a`, and then `0000644`. -/
def longName : List UInt8 := List.replicate 100 97 ++ ascii "0000644"

/-- An empty file at 4096 whose name is a hundred times `a`, with this `mode`, and the
long name at 100. -/
def fullName (mode : List UInt8) : Memory := fun x =>
  if 100 ≤ x ∧ x < 207 then longName.getD (x - 100) 0
  else if 4096 ≤ x ∧ x < 4196 then 97
  else if 4196 ≤ x ∧ x < 4204 then mode.getD (x - 4196) 0
  else if 4220 ≤ x ∧ x < 4231 then 48
  else 0

def fullNameLookup (mode : String) : Lookup := ⟨fullName (ascii mode), 4096, 100⟩

/-- The file in the archive. -/
def fullNameEntry : TarEntry := ⟨List.replicate 100 97, 0⟩

theorem fullNameLookup_asks {mode : String} (hmode : mode = "0000644" ∨ mode = "0000600") :
    (fullNameLookup mode).Asks [fullNameEntry] longName where
  archive := by
    have hname : (fullName (ascii mode)).bytes 4096 100 = fullNameEntry.name := by
      rcases hmode with rfl | rfl <;> decide
    have hdigits : OctalField (fullName (ascii mode)) (4096 + sizeOffset) 0 :=
      ⟨List.replicate 11 0, by decide, by decide, by rcases hmode with rfl | rfl <;> decide, rfl⟩
    have hspan : fullNameEntry.span = 512 := by decide
    refine ⟨⟨hname, by decide, fun hlt => absurd hlt (by decide), by decide, hdigits, by decide⟩,
      ?_, ?_⟩
    · rw [hspan]
      change 4096 + 512 < 2 ^ 64
      decide
    · rw [hspan, UstarArchive, fullNameLookup]
      simp [fullName]
  string := by rcases hmode with rfl | rfl <;> decide +kernel
  string_end := by
    have hlength : longName.length = 107 := by decide
    rw [hlength]
    change 100 + 107 < 2 ^ 64
    decide

/-- The lookups agree exactly when the modes do not tell the archives apart. -/
theorem fullNameLookup_sameResult_iff :
    SameResult (fullNameLookup "0000644") (fullNameLookup "0000600") ↔
      FullNamesAgree (fullNameLookup "0000644") (fullNameLookup "0000600") [fullNameEntry]
        longName :=
  sameResult_iff (fullNameLookup_asks (.inl rfl)) (fullNameLookup_asks (.inr rfl))

/-- One mode is the end of the requested name, and the other is not. -/
theorem fullNameLookup_differ :
    (∀ mode ∈ ["0000644", "0000600"], (fullNameLookup mode).Asks [fullNameEntry] longName) ∧
      (∀ x, ¬ (4196 ≤ x ∧ x < 4204) →
        (fullNameLookup "0000644").memory x = (fullNameLookup "0000600").memory x) ∧
      (fullNameLookup "0000644").Gives (some (0, 0)) ∧ (fullNameLookup "0000600").Gives none ∧
      ¬ SameResult (fullNameLookup "0000644") (fullNameLookup "0000600") := by
  have hasks : (fullNameLookup "0000644").Asks [fullNameEntry] longName :=
    fullNameLookup_asks (.inl rfl)
  have hasks' : (fullNameLookup "0000600").Asks [fullNameEntry] longName :=
    fullNameLookup_asks (.inr rfl)
  have hselected : (fullNameLookup "0000644").selected longName (layout 0 [fullNameEntry]) =
      some (0, fullNameEntry) := by decide +kernel
  have hselected' : (fullNameLookup "0000600").selected longName (layout 0 [fullNameEntry]) =
      none := by decide +kernel
  have hgives : (fullNameLookup "0000644").Gives (some (0, 0)) := by
    have hgives := hasks.gives
    rwa [hselected] at hgives
  have hgives' : (fullNameLookup "0000600").Gives none := by
    have hgives := hasks'.gives
    rwa [hselected'] at hgives
  refine ⟨by simp [hasks, hasks'], fun x hx => ?_, hgives, hgives', ?_⟩
  · simp [fullNameLookup, fullName, hx]
  · rintro ⟨result, hresult, hresult'⟩
    have hsome := outcome_offset (Option.some.inj ((hresult 0).symm.trans (hgives 0)))
    have hnone := outcome_offset (Option.some.inj ((hresult' 0).symm.trans (hgives' 0)))
    rw [hsome] at hnone
    cases hnone

end BadOS.Kernel.Fs
