import BadOS.Kernel.Fs

/-! # The walk over the archive

The loops of `fs_init`, `fs_cat` and `fs_get_file` move from header to header. The
size and the offset of the next header are 32-bit numbers, so that a walker follows
the archive exactly past the files that are small enough.
-/

namespace BadOS.Kernel.Fs

open Libc Relation

/-! ## Listing the files -/

/-- What `fs_init` prints for a file. -/
def listFile (m : Memory) (header size : ℕ) : Option (List UInt8) :=
  printed m "  Found file: %s (%d bytes)\n" [.str header, .int (CInt.toI32 size)]

def fsInitLoop (m : Memory) : ℕ → ℕ → Option (List UInt8)
  | 0, _ => none
  | fuel + 1, header =>
      if m header = 0 then some []
      else
        let size := getSize m (header + sizeOffset)
        (listFile m header size).bind fun line =>
          (fsInitLoop m fuel (nextHeader header size)).map fun lines => line ++ lines

/-- The new `fs_start_addr` and the bytes printed. -/
def fsInit (m : Memory) (ramdiskAddr : ℕ) : Option (ℕ × List UInt8) :=
  (printed m "FileSystem: initialized at 0x%x\n" [.int (CInt.toI32 ramdiskAddr)]).bind fun line =>
    (fsInitLoop m (2 ^ 64) ramdiskAddr).map fun lines => (ramdiskAddr, line ++ lines)

/-! ## Walkers -/

/-- The functions that walk over the archive. -/
inductive Walker
  | fsInit
  | fsCat (targetFilename : ℕ)
  | fsGetFile (filename outSize : ℕ)

namespace Walker

/-- The walker returns from a walk that starts at `header`. -/
def Returns (m : Memory) (header : ℕ) : Walker → Prop
  | fsInit => (Fs.fsInit m header).isSome
  | fsCat targetFilename => (Fs.fsCat m header targetFilename).isSome
  | fsGetFile filename outSize => (Fs.fsGetFile m header filename outSize).isSome

/-- The body of the loop gets to its end at a header. -/
def Passes (m : Memory) (header : ℕ) : Walker → Prop
  | fsInit => (listFile m header (getSize m (header + sizeOffset))).isSome
  | fsCat targetFilename => ∃ order, strcmp m header targetFilename = some order ∧ order ≠ 0
  | fsGetFile filename _ => ∃ order, strcmp m header filename = some order ∧ order ≠ 0

/-- A round of the walker's loop takes it from `header` to `next`. -/
structure Moves (w : Walker) (m : Memory) (header next : ℕ) : Prop where
  more : m header ≠ 0
  passes : w.Passes m header
  next_eq : next = nextHeader header (getSize m (header + sizeOffset))

end Walker

/-- The bytes from the header of a file of `n` bytes to the next. -/
def fileSpan (n : ℕ) : ℕ := 512 + 512 * ((n + 511) / 512)

variable {w : Walker} {m : Memory} {a b n start finish fuel filename outSize : ℕ}

/-! ## The rounds of the code -/

theorem fsInitLoop_moves (fuel : ℕ) (hmoves : Walker.fsInit.Moves m a b) :
    ∃ line, fsInitLoop m (fuel + 1) a = (fsInitLoop m fuel b).map fun lines => line ++ lines := by
  obtain ⟨line, hline⟩ := Option.isSome_iff_exists.mp hmoves.passes
  refine ⟨line, ?_⟩
  rw [fsInitLoop, if_neg hmoves.more, hmoves.next_eq]
  dsimp only
  rw [hline, Option.bind_some]

section Walk

variable {α : Type*} {visit : ℕ → ℕ → Option (Option α)} {missing : Option α}

theorem walk_moves (hmore : m a ≠ 0)
    (hvisit : visit a (getSize m (a + sizeOffset)) = some none) :
    walk m visit missing (fuel + 1) a =
      walk m visit missing fuel (nextHeader a (getSize m (a + sizeOffset))) := by
  rw [walk, if_neg hmore]
  dsimp only
  rw [hvisit, Option.bind_some]

theorem walk_stuck (hmore : m a ≠ 0)
    (hvisit : visit a (getSize m (a + sizeOffset)) = some none)
    (hnext : a = nextHeader a (getSize m (a + sizeOffset))) :
    walk m visit missing fuel a = none := by
  induction fuel with
  | zero => rfl
  | succ fuel ih => rw [walk_moves hmore hvisit, ← hnext, ih]

end Walk

/-- A walker that does not get off a header walks on for ever. -/
theorem Walker.Moves.not_returns (hmoves : w.Moves m a a) : ¬ w.Returns m a := by
  cases w with
  | fsInit =>
      have hnone : ∀ fuel, fsInitLoop m fuel a = none := by
        intro fuel
        induction fuel with
        | zero => rfl
        | succ fuel ih =>
            obtain ⟨line, hline⟩ := fsInitLoop_moves fuel hmoves
            rw [hline, ih, Option.map_none]
      simp [Returns, Fs.fsInit, hnone]
  | fsCat targetFilename =>
      obtain ⟨hmore, ⟨order, horder, hne⟩, hnext⟩ := hmoves
      rw [Returns, Fs.fsCat, walk_stuck hmore _ hnext]
      · simp
      · rw [horder, Option.bind_some, if_neg hne]
  | fsGetFile filename outSize =>
      obtain ⟨hmore, ⟨order, horder, hne⟩, hnext⟩ := hmoves
      rw [Returns, Fs.fsGetFile, walk_stuck hmore _ hnext]
      · simp
      · rw [horder, Option.map_some, if_neg hne]

/-! ## The true next header -/

theorem nextHeader_eq_iff (hrange : a + fileSpan n < 2 ^ 64) :
    nextHeader a (n % 2 ^ 32) = a + fileSpan n ↔ n ≤ 2 ^ 32 - 1024 := by
  unfold fileSpan at hrange ⊢
  unfold nextHeader
  omega

theorem Walker.Moves.eq_iff (hmoves : w.Moves m a b) (hfield : OctalField m (a + sizeOffset) n)
    (hrange : a + fileSpan n < 2 ^ 64) : b = a + fileSpan n ↔ n ≤ 2 ^ 32 - 1024 := by
  rw [hmoves.next_eq, getSize_eq hfield, nextHeader_eq_iff hrange]

/-- The headers that a walker passes name small files that end at `finish` at the latest. -/
def Exact (w : Walker) (m : Memory) (start finish : ℕ) : Prop :=
  ∀ a b, ReflTransGen (w.Moves m) start a → w.Moves m a b →
    ∃ n ≤ 2 ^ 32 - 1024, OctalField m (a + sizeOffset) n ∧ a + fileSpan n ≤ finish

theorem Exact.step (hexact : Exact w m start finish) (hfinish : finish < 2 ^ 64)
    (ha : ReflTransGen (w.Moves m) start a) (hmoves : w.Moves m a b) : a < b ∧ b ≤ finish := by
  obtain ⟨n, hn, hfield, hend⟩ := hexact a b ha hmoves
  rw [(hmoves.eq_iff hfield (by omega)).mpr hn]
  unfold fileSpan at hend ⊢
  omega

/-- No header is visited twice. -/
theorem Exact.lt (hexact : Exact w m start finish) (hfinish : finish < 2 ^ 64)
    (ha : ReflTransGen (w.Moves m) start a) (hwalk : TransGen (w.Moves m) a b) : a < b := by
  induction hwalk with
  | single hmoves => exact (hexact.step hfinish ha hmoves).1
  | tail hwalk hmoves ih =>
      exact ih.trans (hexact.step hfinish (ha.trans hwalk.to_reflTransGen) hmoves).1

/-- The rounds left are bounded by the bytes left. -/
theorem Exact.exists_last (hexact : Exact w m start finish) (hfinish : finish < 2 ^ 64)
    (ha : ReflTransGen (w.Moves m) start a) :
    ∃ last, ReflTransGen (w.Moves m) start last ∧ ∀ b, ¬ w.Moves m last b := by
  induction hleft : finish - a using Nat.strong_induction_on generalizing a with
  | _ left ih =>
      by_cases hmoves : ∃ b, w.Moves m a b
      · obtain ⟨b, hmoves⟩ := hmoves
        have hstep := hexact.step hfinish ha hmoves
        exact ih (finish - b) (by omega) (ha.tail hmoves) rfl
      · exact ⟨a, ha, not_exists.mp hmoves⟩

/-- A walker moves to the true next header exactly past a file of at most `2 ^ 32 - 1024`
bytes; its walk over a finite image of such files never comes back and has a last header. -/
theorem walkers_advance (w : Walker) (m : Memory) :
    (∀ a b n, w.Moves m a b → OctalField m (a + sizeOffset) n → a + fileSpan n < 2 ^ 64 →
      (b = a + fileSpan n ∧ a < b ↔ n ≤ 2 ^ 32 - 1024)) ∧
    ∀ start finish, finish < 2 ^ 64 → Exact w m start finish →
      (∀ a b, ReflTransGen (w.Moves m) start a → TransGen (w.Moves m) a b → a < b) ∧
        ∃ last, ReflTransGen (w.Moves m) start last ∧ ∀ b, ¬ w.Moves m last b := by
  constructor
  · intro a b n hmoves hfield hrange
    rw [← hmoves.eq_iff hfield hrange]
    refine and_iff_left_of_imp fun heq => ?_
    unfold fileSpan at heq
    omega
  · intro start finish hfinish hexact
    exact ⟨fun a b ha hwalk => hexact.lt hfinish ha hwalk, hexact.exists_last hfinish .refl⟩

theorem threeFiles_exact (w : Walker) : Exact w threeFiles 4096 6656 := by
  obtain ⟨hb, ha, hempty⟩ := threeFiles_field
  have hnext : ∀ a ∈ [4096, 5120, 6144], ∃ n ≤ 3, OctalField threeFiles (a + sizeOffset) n ∧
      nextHeader a n = a + fileSpan n ∧ a + fileSpan n ∈ [5120, 6144, 6656] := by
    intro a hmem
    simp only [List.mem_cons, List.not_mem_nil, or_false] at hmem
    obtain rfl | rfl | rfl := hmem
    · exact ⟨3, le_refl _, hb, by decide, by decide⟩
    · exact ⟨3, le_refl _, ha, by decide, by decide⟩
    · exact ⟨0, by decide, hempty, by decide, by decide⟩
  have hfirst : ∀ a, threeFiles a ≠ 0 → a ∈ [4096, 5120, 6144, 6656] → a ∈ [4096, 5120, 6144] := by
    intro a hmore hmem
    have hlast : threeFiles 6656 = 0 := by decide
    simp only [List.mem_cons, List.not_mem_nil, or_false] at hmem ⊢
    obtain rfl | rfl | rfl | rfl := hmem
    · exact Or.inl rfl
    · exact Or.inr (Or.inl rfl)
    · exact Or.inr (Or.inr rfl)
    · exact absurd hlast hmore
  have hheaders : ∀ a, ReflTransGen (w.Moves threeFiles) 4096 a →
      a ∈ [4096, 5120, 6144, 6656] := by
    intro a hwalk
    induction hwalk with
    | refl => exact List.mem_cons_self
    | tail hwalk hmoves ih =>
        obtain ⟨n, hn, hfield, hspan, hmem⟩ := hnext _ (hfirst _ hmoves.more ih)
        rw [hmoves.next_eq, getSize_eq hfield, Nat.mod_eq_of_lt (by omega), hspan]
        exact List.mem_cons_of_mem _ hmem
  intro a b hwalk hmoves
  obtain ⟨n, hn, hfield, -, hmem⟩ := hnext a (hfirst a hmoves.more (hheaders a hwalk))
  have hend : ∀ b ∈ [5120, 6144, 6656], b ≤ 6656 := by decide
  exact ⟨n, by omega, hfield, hend _ hmem⟩

/-- `fs_get_file` steps from the first file to the second, and stops there. -/
theorem threeFiles_advance :
    (Walker.fsGetFile 100 0).Moves threeFiles 4096 5120 ∧ 5120 = 4096 + fileSpan 3 ∧
      ∃ last, ReflTransGen ((Walker.fsGetFile 100 0).Moves threeFiles) 4096 last ∧
        ∀ b, ¬ (Walker.fsGetFile 100 0).Moves threeFiles last b := by
  have hfile : threeFiles.IsString 4096 [98] := by decide
  have hname : threeFiles.IsString 100 [97] := by decide
  obtain ⟨order, horder, hzero⟩ := strcmp_eq_zero_iff hfile hname (by decide) (by decide)
  have hmoves : (Walker.fsGetFile 100 0).Moves threeFiles 4096 5120 :=
    ⟨by decide, ⟨order, horder, hzero.not.mpr (by decide)⟩, by
      rw [getSize_eq threeFiles_field.1]
      rfl⟩
  obtain ⟨hstep, hruns⟩ := walkers_advance (Walker.fsGetFile 100 0) threeFiles
  have hforward := (hstep 4096 5120 3 hmoves threeFiles_field.1 (by decide)).mpr (by decide)
  exact ⟨hmoves, hforward.1, (hruns 4096 6656 (by decide) (threeFiles_exact _)).2⟩

/-- A file `a` of `2 ^ 32 - 1000` bytes at 4096, and the string `b` at 100. -/
def hugeFile : Memory := fun x =>
  if x = 100 then 98
  else if x = 4096 then 97
  else if x = 4220 then 51
  else if 4221 ≤ x ∧ x < 4227 then 55
  else if x = 4227 then 54
  else if x = 4228 then 48
  else if x = 4229 then 51
  else if x = 4230 then 48
  else 0

theorem hugeFile_field : OctalField hugeFile (4096 + sizeOffset) (2 ^ 32 - 1000) :=
  ⟨[0, 3, 0, 6, 7, 7, 7, 7, 7, 7, 3], by decide, by decide, by decide, by decide⟩

theorem hugeFile_moves (hpasses : w.Passes hugeFile 4096) : w.Moves hugeFile 4096 4096 where
  more := by decide
  passes := hpasses
  next_eq := by rw [getSize_eq hugeFile_field]; rfl

/-- None of the walkers gets off the header of the huge file. -/
theorem hugeFile_stuck :
    OctalField hugeFile (4096 + sizeOffset) (2 ^ 32 - 1000) ∧
      ∀ w ∈ [Walker.fsInit, Walker.fsCat 100, Walker.fsGetFile 100 0],
        ¬ (∀ b, w.Moves hugeFile 4096 b → b = 4096 + fileSpan (2 ^ 32 - 1000) ∧ 4096 < b) ∧
          ¬ w.Returns hugeFile 4096 := by
  have hfile : hugeFile.IsString 4096 [97] := by decide
  have htarget : hugeFile.IsString 100 [98] := by decide
  have hline : (listFile hugeFile 4096 (getSize hugeFile (4096 + sizeOffset))).isSome := by
    decide +kernel
  obtain ⟨order, horder, hzero⟩ := strcmp_eq_zero_iff hfile htarget (by decide) (by decide)
  have hne : order ≠ 0 := hzero.not.mpr (by decide)
  refine ⟨hugeFile_field, fun w hw => ?_⟩
  have hmoves : w.Moves hugeFile 4096 4096 := by
    apply hugeFile_moves
    simp only [List.mem_cons, List.not_mem_nil, or_false] at hw
    obtain rfl | rfl | rfl := hw
    · exact hline
    · exact ⟨order, horder, hne⟩
    · exact ⟨order, horder, hne⟩
  exact ⟨fun hadvance => lt_irrefl _ (hadvance 4096 hmoves).2, hmoves.not_returns⟩

end BadOS.Kernel.Fs
