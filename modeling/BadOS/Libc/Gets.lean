import Mathlib.Tactic

/-! # Line input

`gets` reads characters until a newline or until its buffer is full; a backspace
takes back the last character kept. The keys arrive as a stream, in which
`keyboard_getchar` waits for the next one.
-/

namespace BadOS.Libc

/-- `'\n'`. -/
def newline : UInt8 := 10

/-- `'\b'`. -/
def backspace : UInt8 := 8

/-- The buffer, the index, the indices that were written to and what `gets` printed on
the terminal. -/
structure Gets where
  buffer : ℕ → UInt8
  i : ℕ
  written : List ℕ
  terminal : List UInt8

namespace Gets

def init (buffer : ℕ → UInt8) : Gets := ⟨buffer, 0, [], []⟩

/-- `buffer[i] = c`. -/
def write (s : Gets) (c : UInt8) : Gets :=
  { s with buffer := Function.update s.buffer s.i c, written := s.written ++ [s.i] }

/-- The loop on the rest of the stream. The result is the state at the return and the
stream then; it is `none` when the stream ends and `gets` goes on waiting. -/
def loop (maxLen : ℤ) : List UInt8 → Gets → Option (Gets × List UInt8)
  | [], s => if s.i < maxLen - 1 then none else some (s.write 0, [])
  | c :: stream, s =>
      if s.i < maxLen - 1 then
        if c = newline then
          some ({ s.write 0 with terminal := s.terminal ++ [newline] }, stream)
        else if c = backspace then loop maxLen stream { s with i := s.i - 1 }
        else loop maxLen stream { s.write c with i := s.i + 1 }
      else some (s.write 0, c :: stream)

end Gets

def gets (buffer : ℕ → UInt8) (maxLen : ℤ) (stream : List UInt8) : Option (Gets × List UInt8) :=
  Gets.loop maxLen stream (Gets.init buffer)

/-! ## The line -/

/-- A key, on the characters kept. -/
def edit (kept : List UInt8) (c : UInt8) : List UInt8 :=
  if c = backspace then kept.dropLast else kept ++ [c]

/-- The characters kept of a sequence of keys. -/
def reduction (keys : List UInt8) : List UInt8 := keys.foldl edit []

/-- The keys end the line, or what is kept of them fills the buffer. -/
def Stops (maxLen : ℤ) (keys : List UInt8) : Prop :=
  keys.getLast? = some newline ∨ (reduction keys).length = maxLen - 1

/-- The keys before the newline. -/
def content (keys : List UInt8) : List UInt8 :=
  if keys.getLast? = some newline then keys.dropLast else keys

/-- `keys` is the shortest prefix of the stream that stops. -/
structure Consumes (maxLen : ℤ) (stream keys rest : List UInt8) : Prop where
  stream_eq : stream = keys ++ rest
  stops : Stops maxLen keys
  shortest : ∀ before, before <+: keys → before ≠ keys → ¬ Stops maxLen before

/-- The buffer has the line and a NUL behind it. -/
structure Contains (buffer : ℕ → UInt8) (line : List UInt8) : Prop where
  chars : ∀ k (hk : k < line.length), buffer k = line.get ⟨k, hk⟩
  nul : buffer line.length = 0

variable {maxLen : ℤ} {stream keys rest : List UInt8} {s t : Gets} {c : UInt8}

theorem reduction_concat : reduction (keys ++ [c]) = edit (reduction keys) c :=
  List.foldl_concat _ _ _ _

theorem content_eq_self (hnewline : newline ∉ keys) : content keys = keys :=
  if_neg fun hlast => hnewline (List.mem_of_getLast? hlast)

theorem content_newline : content (keys ++ [newline]) = keys := by
  simp [content]

namespace Gets

/-- After `keys`, none of which ended the line. -/
structure Inv (maxLen : ℤ) (keys : List UInt8) (s : Gets) : Prop where
  noNewline : newline ∉ keys
  running : ∀ before, before <+: keys → before ≠ keys → ¬ Stops maxLen before
  i_eq : s.i = (reduction keys).length
  i_le : s.i ≤ maxLen - 1
  chars : ∀ k (hk : k < (reduction keys).length), s.buffer k = (reduction keys).get ⟨k, hk⟩
  written_lt : ∀ k ∈ s.written, (k : ℤ) < maxLen

theorem init_inv (hmax : 1 ≤ maxLen) (buffer : ℕ → UInt8) : Inv maxLen [] (init buffer) where
  noNewline := List.not_mem_nil
  running := fun _ hbefore hne => absurd (List.prefix_nil.mp hbefore) hne
  i_eq := rfl
  i_le := by
    change ((0 : ℕ) : ℤ) ≤ _
    omega
  chars := fun k hk => absurd hk (Nat.not_lt_zero k)
  written_lt := fun k hk => absurd hk List.not_mem_nil

/-- The loop goes on as long as it has to. -/
theorem Inv.not_stops (hinv : Inv maxLen keys s) (hroom : s.i < maxLen - 1) :
    ¬ Stops maxLen keys := by
  rintro (hlast | hlength)
  · exact hinv.noNewline (List.mem_of_getLast? hlast)
  · have hi := hinv.i_eq
    omega

theorem Inv.running_concat (hinv : Inv maxLen keys s) (hroom : s.i < maxLen - 1) :
    ∀ before, before <+: keys ++ [c] → before ≠ keys ++ [c] → ¬ Stops maxLen before := by
  intro before hbefore hne
  obtain heq | hbefore := List.prefix_concat_iff.mp hbefore
  · exact absurd heq hne
  · by_cases heq : before = keys
    · exact heq ▸ hinv.not_stops hroom
    · exact hinv.running before hbefore heq

/-- A backspace shortens the line. -/
theorem Inv.erase (hinv : Inv maxLen keys s) (hroom : s.i < maxLen - 1) :
    Inv maxLen (keys ++ [backspace]) { s with i := s.i - 1 } := by
  have hreduction : reduction (keys ++ [backspace]) = (reduction keys).dropLast := reduction_concat
  have hi := hinv.i_eq
  refine ⟨?_, hinv.running_concat hroom, ?_, ?_, fun k hk => ?_, hinv.written_lt⟩
  · rw [List.mem_append, List.mem_singleton]
    rintro (hmem | heq)
    · exact hinv.noNewline hmem
    · exact absurd heq (by decide)
  · rw [hreduction, List.length_dropLast, ← hi]
  · dsimp only
    omega
  · have hk' : k < (reduction keys).length := by
      rw [hreduction, List.length_dropLast] at hk
      omega
    simpa [hreduction] using hinv.chars k hk'

/-- A character is stored behind the line. -/
theorem Inv.append (hinv : Inv maxLen keys s) (hroom : s.i < maxLen - 1) (hnewline : c ≠ newline)
    (hbackspace : c ≠ backspace) :
    Inv maxLen (keys ++ [c]) { s.write c with i := s.i + 1 } := by
  have hreduction : reduction (keys ++ [c]) = reduction keys ++ [c] :=
    reduction_concat.trans (if_neg hbackspace)
  have hi := hinv.i_eq
  refine ⟨?_, hinv.running_concat hroom, ?_, ?_, fun k hk => ?_, ?_⟩
  · simp [hinv.noNewline, hnewline.symm]
  · simp [hreduction, hi]
  · push_cast
    omega
  · have hlength : k < (reduction keys).length + 1 := by simpa [hreduction] using hk
    obtain hk' | hk' := Nat.lt_succ_iff_lt_or_eq.mp hlength
    · have hne : k ≠ s.i := by omega
      simpa [write, hreduction, hne, hk', List.getElem_append_left] using hinv.chars k hk'
    · subst hk'
      simp [write, hreduction, ← hi]
  · simp only [write, List.mem_append, List.mem_singleton]
    rintro k (hk | rfl)
    · exact hinv.written_lt k hk
    · omega

/-- The line is in the buffer once the NUL is. -/
theorem Inv.contains (hinv : Inv maxLen keys s) :
    Contains (s.write 0).buffer (reduction keys) ∧
      ∀ k ∈ (s.write 0).written, (k : ℤ) < maxLen := by
  have hi := hinv.i_eq
  refine ⟨⟨fun k hk => ?_, ?_⟩, ?_⟩
  · have hne : k ≠ s.i := by omega
    simpa [write, hne] using hinv.chars k hk
  · simp [write, ← hi]
  · simp only [write, List.mem_append, List.mem_singleton]
    rintro k (hk | rfl)
    · exact hinv.written_lt k hk
    · have hle := hinv.i_le
      omega

/-- What holds of the state and the rest of the stream at the return. -/
def Finishes (maxLen : ℤ) (stream : List UInt8) (t : Gets) (rest : List UInt8) : Prop :=
  ∃ keys, Consumes maxLen stream keys rest ∧ Contains t.buffer (reduction (content keys)) ∧
    ∀ k ∈ t.written, (k : ℤ) < maxLen

theorem loop_full (hfull : ¬ s.i < maxLen - 1) :
    loop maxLen stream s = some (s.write 0, stream) := by
  cases stream <;> simp [loop, hfull]

theorem Inv.finishes_full (hinv : Inv maxLen keys s) (hfull : ¬ s.i < maxLen - 1) :
    Finishes maxLen (keys ++ stream) (s.write 0) stream := by
  have hi := hinv.i_eq
  have hle := hinv.i_le
  refine ⟨keys, ⟨rfl, .inr ?_, hinv.running⟩, ?_⟩
  · omega
  · rw [content_eq_self hinv.noNewline]
    exact hinv.contains

theorem Inv.finishes_newline (hinv : Inv maxLen keys s) (hroom : s.i < maxLen - 1) :
    Finishes maxLen (keys ++ newline :: stream)
      { s.write 0 with terminal := s.terminal ++ [newline] } stream := by
  refine ⟨keys ++ [newline], ⟨by simp, .inl (by simp), hinv.running_concat hroom⟩, ?_⟩
  rw [content_newline]
  exact hinv.contains

/-- What the loop returns after `keys`. -/
theorem loop_finishes (hinv : Inv maxLen keys s) (hloop : loop maxLen stream s = some (t, rest)) :
    Finishes maxLen (keys ++ stream) t rest := by
  induction stream generalizing s keys with
  | nil =>
      by_cases hroom : s.i < maxLen - 1
      · simp [loop, hroom] at hloop
      · obtain ⟨rfl, rfl⟩ : s.write 0 = t ∧ [] = rest := by
          simpa [loop_full hroom] using hloop
        exact hinv.finishes_full hroom
  | cons c stream ih =>
      by_cases hroom : s.i < maxLen - 1
      · rw [loop, if_pos hroom] at hloop
        have hconcat : keys ++ c :: stream = keys ++ [c] ++ stream := by simp
        split_ifs at hloop with hnewline hbackspace
        · simp only [Option.some.injEq, Prod.mk.injEq] at hloop
          obtain ⟨rfl, rfl⟩ := hloop
          exact hnewline ▸ hinv.finishes_newline hroom
        · rw [hconcat]
          exact ih (hbackspace ▸ hinv.erase hroom) hloop
        · rw [hconcat]
          exact ih (hinv.append hroom hnewline hbackspace) hloop
      · obtain ⟨rfl, rfl⟩ : s.write 0 = t ∧ c :: stream = rest := by
          simpa [loop_full hroom] using hloop
        exact hinv.finishes_full hroom

/-- The loop does not wait for keys beyond those that stop it. -/
theorem loop_isSome {more : List UInt8} (hinv : Inv maxLen keys s) (hmore : more <+: stream)
    (hstops : Stops maxLen (keys ++ more)) : (loop maxLen stream s).isSome := by
  induction stream generalizing s keys more with
  | nil =>
      by_cases hroom : s.i < maxLen - 1
      · rw [List.prefix_nil.mp hmore, List.append_nil] at hstops
        exact absurd hstops (hinv.not_stops hroom)
      · simp [loop_full hroom]
  | cons c stream ih =>
      by_cases hroom : s.i < maxLen - 1
      · obtain rfl | ⟨more, rfl, htail⟩ := List.prefix_cons_iff.mp hmore
        · rw [List.append_nil] at hstops
          exact absurd hstops (hinv.not_stops hroom)
        rw [loop, if_pos hroom]
        rw [← List.singleton_append, ← List.append_assoc] at hstops
        split_ifs with hnewline hbackspace
        · rfl
        · exact ih (hbackspace ▸ hinv.erase hroom) htail hstops
        · exact ih (hinv.append hroom hnewline hbackspace) htail hstops
      · simp [loop_full hroom]

end Gets

/-- `gets` reads the shortest prefix of the stream that stops it, as soon as there is one.
It leaves the line and a NUL in the buffer, and writes only indices below `maxLen`. -/
theorem gets_line (hmax : 1 ≤ maxLen) (buffer : ℕ → UInt8) (stream : List UInt8) :
    ((gets buffer maxLen stream).isSome ↔ ∃ keys, keys <+: stream ∧ Stops maxLen keys) ∧
      ∀ t rest, gets buffer maxLen stream = some (t, rest) →
        Gets.Finishes maxLen stream t rest := by
  have hinv := Gets.init_inv hmax buffer
  have hfinishes : ∀ t rest, gets buffer maxLen stream = some (t, rest) →
      Gets.Finishes maxLen stream t rest := fun t rest hgets => Gets.loop_finishes hinv hgets
  refine ⟨⟨fun hsome => ?_, fun ⟨keys, hkeys, hstops⟩ => ?_⟩, hfinishes⟩
  · obtain ⟨⟨t, rest⟩, hgets⟩ := Option.isSome_iff_exists.mp hsome
    obtain ⟨keys, hconsumes, -⟩ := hfinishes t rest hgets
    exact ⟨keys, ⟨rest, hconsumes.stream_eq.symm⟩, hconsumes.stops⟩
  · exact Gets.loop_isSome hinv hkeys hstops

/-- `ab`, a backspace, `c` and a newline leave `ac`. -/
theorem gets_ac :
    Gets.Finishes 8 [97, 98, backspace, 99, newline, 100]
      { buffer := Function.update (Function.update (Function.update (Function.update (fun _ => 7)
          0 97) 1 98) 1 99) 2 0,
        i := 2, written := [0, 1, 1, 2], terminal := [newline] } [100] :=
  (gets_line (by decide) (fun _ => 7) [97, 98, backspace, 99, newline, 100]).2 _ _ rfl

end BadOS.Libc
