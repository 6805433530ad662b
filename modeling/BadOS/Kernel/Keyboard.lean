import BadOS.Foundation.RingBuffer

/-! # The keyboard queue

`keyboard_push` runs as an interrupt handler between any two memory accesses of
`keyboard_getchar`. The characters returned are the characters accepted, in
order, and a character is dropped only when 255 are waiting.
-/

namespace BadOS.Kernel

/-- `keyboard_buffer`, `write_ptr` and `read_ptr`. -/
structure Keyboard where
  buffer : ℕ → UInt8
  writePtr : UInt8
  readPtr : UInt8

namespace Keyboard

/-- `(p + 1) % KEYBOARD_BUFFER_SIZE`, computed as an `int` and stored in 8 bits. -/
def next (p : UInt8) : UInt8 := UInt8.ofNat ((p.toNat + 1) % 256)

/-- The test by which `keyboard_push` returns early. -/
def isFull (k : Keyboard) : Bool := next k.writePtr = k.readPtr

def keyboardPush (k : Keyboard) (c : UInt8) : Keyboard :=
  if k.isFull then k
  else
    { k with
      buffer := Function.update k.buffer k.writePtr.toNat c
      writePtr := next k.writePtr }

end Keyboard

/-- The points of `keyboard_getchar` between its memory accesses. The operands of
the test may be loaded in either order. -/
inductive GetcharPc
  | test
  | testRead (readPtr : UInt8)
  | testWrite (writePtr : UInt8)
  | hlt
  | index
  | slot (readPtr : UInt8)
  | advance (c : UInt8)
  | store (c readPtr : UInt8)
  | ret (c : UInt8)
deriving DecidableEq

/-- The queue, the reader and the history: the characters accepted, the number
of updates of `read_ptr` and the characters returned. -/
structure KeyboardRun where
  keyboard : Keyboard
  pc : GetcharPc
  accepted : List UInt8
  retired : ℕ
  returned : List UInt8

/-- What happens next: an interrupt that pushes a character, or an access of the
reader; at the test it loads `write_ptr` first or `read_ptr` first. -/
inductive KeyboardEvent
  | push (c : UInt8)
  | access (writeFirst : Bool)

namespace KeyboardRun

/-- Both indices 0 and the reader about to call `keyboard_getchar`. -/
def init (buffer : ℕ → UInt8) : KeyboardRun where
  keyboard := { buffer, writePtr := 0, readPtr := 0 }
  pc := .test
  accepted := []
  retired := 0
  returned := []

/-- The outcome of `read_ptr == write_ptr`. -/
def afterTest (readPtr writePtr : UInt8) : GetcharPc :=
  if readPtr = writePtr then .hlt else .index

def push (s : KeyboardRun) (c : UInt8) : KeyboardRun :=
  { s with
    keyboard := s.keyboard.keyboardPush c
    accepted := if s.keyboard.isFull then s.accepted else s.accepted ++ [c] }

/-- The next access of the reader; after a return it calls again. -/
def access (s : KeyboardRun) (writeFirst : Bool) : KeyboardRun :=
  match s.pc with
  | .test =>
      { s with
        pc := if writeFirst then .testWrite s.keyboard.writePtr else .testRead s.keyboard.readPtr }
  | .testRead r => { s with pc := afterTest r s.keyboard.writePtr }
  | .testWrite w => { s with pc := afterTest s.keyboard.readPtr w }
  | .hlt => { s with pc := .test }
  | .index => { s with pc := .slot s.keyboard.readPtr }
  | .slot r => { s with pc := .advance (s.keyboard.buffer r.toNat) }
  | .advance c => { s with pc := .store c s.keyboard.readPtr }
  | .store c r =>
      { s with
        pc := .ret c
        keyboard := { s.keyboard with readPtr := Keyboard.next r }
        retired := s.retired + 1 }
  | .ret c => { s with pc := .test, returned := s.returned ++ [c] }

def step (s : KeyboardRun) : KeyboardEvent → KeyboardRun
  | .push c => s.push c
  | .access writeFirst => s.access writeFirst

def run (buffer : ℕ → UInt8) (events : List KeyboardEvent) : KeyboardRun :=
  events.foldl step (init buffer)

/-! ## The invariant -/

/-- What the reader knows at each point. -/
def AtPc (s : KeyboardRun) : Prop :=
  match s.pc with
  | .test | .hlt => s.returned = s.accepted.take s.retired
  | .testRead r => s.returned = s.accepted.take s.retired ∧ r.toNat = s.retired % 256
  | .testWrite w => s.returned = s.accepted.take s.retired ∧
      ∃ n, s.retired ≤ n ∧ n ≤ s.accepted.length ∧ w.toNat = n % 256
  | .index => s.returned = s.accepted.take s.retired ∧ s.retired < s.accepted.length
  | .slot r => s.returned = s.accepted.take s.retired ∧ s.retired < s.accepted.length ∧
      r.toNat = s.retired % 256
  | .advance c => s.returned = s.accepted.take s.retired ∧ s.accepted[s.retired]? = some c
  | .store c r => s.returned = s.accepted.take s.retired ∧ s.accepted[s.retired]? = some c ∧
      r.toNat = s.retired % 256
  | .ret c => s.returned ++ [c] = s.accepted.take s.retired

/-- The indices are the counts of accepted and retired characters modulo 256. -/
structure Inv (s : KeyboardRun) : Prop where
  holds : RingBuffer.Holds 256 s.keyboard.buffer s.accepted s.retired
  writePtr_eq : s.keyboard.writePtr.toNat = s.accepted.length % 256
  readPtr_eq : s.keyboard.readPtr.toNat = s.retired % 256
  atPc : s.AtPc

variable {s : KeyboardRun} {c : UInt8}

theorem next_toNat (p : UInt8) : (Keyboard.next p).toNat = (p.toNat + 1) % 256 := by
  unfold Keyboard.next
  rw [UInt8.toNat_ofNat']
  omega

theorem next_toNat_of_mod {p : UInt8} {n : ℕ} (hp : p.toNat = n % 256) :
    (Keyboard.next p).toNat = (n + 1) % 256 := by
  rw [next_toNat, hp]
  omega

theorem init_inv (buffer : ℕ → UInt8) : Inv (init buffer) :=
  ⟨RingBuffer.holds_nil (by decide), rfl, rfl, rfl⟩

/-- A push finds the buffer full when 255 characters are waiting. -/
theorem Inv.isFull_iff (hinv : Inv s) :
    s.keyboard.isFull = true ↔ s.accepted.length = s.retired + 255 := by
  unfold Keyboard.isFull
  rw [decide_eq_true_iff, ← UInt8.toNat_inj, next_toNat_of_mod hinv.writePtr_eq, hinv.readPtr_eq,
    hinv.holds.full_iff]
  omega

/-- What the reader knows is not changed by a push. -/
theorem AtPc.push (hatPc : s.AtPc) (hle : s.retired ≤ s.accepted.length) :
    AtPc { s with accepted := s.accepted ++ [c] } := by
  have htake : (s.accepted ++ [c]).take s.retired = s.accepted.take s.retired :=
    List.take_append_of_le_length hle
  have hget : ∀ b, s.accepted[s.retired]? = some b → (s.accepted ++ [c])[s.retired]? = some b := by
    intro b hb
    rw [List.getElem?_append_left (List.getElem?_eq_some_iff.mp hb).1, hb]
  have hlength : (s.accepted ++ [c]).length = s.accepted.length + 1 := List.length_append
  unfold AtPc at hatPc ⊢
  dsimp only
  rw [htake, hlength]
  cases hpc : s.pc <;> simp only [hpc] at hatPc ⊢
  case testWrite w =>
    obtain ⟨htaken, n, hlo, hhi, hw⟩ := hatPc
    exact ⟨htaken, n, hlo, by omega, hw⟩
  case index => exact ⟨hatPc.1, by omega⟩
  case slot r => exact ⟨hatPc.1, by omega, hatPc.2.2⟩
  case advance b => exact ⟨hatPc.1, hget b hatPc.2⟩
  case store b r => exact ⟨hatPc.1, hget b hatPc.2.1, hatPc.2.2⟩
  all_goals exact hatPc

theorem Inv.push (hinv : Inv s) (c : UInt8) : Inv (s.push c) := by
  by_cases hfull : s.keyboard.isFull = true
  · have hsame : s.push c = s := by
      unfold KeyboardRun.push Keyboard.keyboardPush
      rw [if_pos hfull, if_pos hfull]
    rwa [hsame]
  · have hroom := mt hinv.isFull_iff.mpr hfull
    have hwrite := hinv.writePtr_eq
    unfold KeyboardRun.push Keyboard.keyboardPush
    rw [if_neg hfull, if_neg hfull]
    refine ⟨?_, ?_, hinv.readPtr_eq, hinv.atPc.push hinv.holds.retired_le⟩
    · dsimp only
      rw [hwrite]
      exact hinv.holds.push (by omega)
    · dsimp only
      rw [next_toNat_of_mod hwrite, List.length_append, List.length_singleton]

/-- After the test the reader goes on only if a character is waiting. -/
theorem AtPc.afterTest {r w : UInt8} {n : ℕ} (htaken : s.returned = s.accepted.take s.retired)
    (hr : r.toNat = s.retired % 256) (hw : w.toNat = n % 256) (hlo : s.retired ≤ n)
    (hhi : n ≤ s.accepted.length) : AtPc { s with pc := KeyboardRun.afterTest r w } := by
  unfold KeyboardRun.afterTest
  by_cases htest : r = w
  · rw [if_pos htest]
    exact htaken
  · rw [if_neg htest]
    refine ⟨htaken, ?_⟩
    have hne : n ≠ s.retired := by
      rintro rfl
      exact htest (UInt8.toNat_inj.mp (hr.trans hw.symm))
    dsimp only
    omega

theorem Inv.access (hinv : Inv s) (writeFirst : Bool) : Inv (s.access writeFirst) := by
  obtain ⟨hholds, hwrite, hread, hat⟩ := hinv
  have hle := hholds.retired_le
  unfold AtPc at hat
  unfold KeyboardRun.access
  cases hpc : s.pc <;> simp only [hpc] at hat ⊢
  case test =>
    refine ⟨hholds, hwrite, hread, ?_⟩
    cases writeFirst with
    | false => exact ⟨hat, hread⟩
    | true => exact ⟨hat, _, hle, le_refl _, hwrite⟩
  case testRead r =>
    exact ⟨hholds, hwrite, hread, AtPc.afterTest hat.1 hat.2 hwrite hle (le_refl _)⟩
  case testWrite w =>
    obtain ⟨htaken, n, hlo, hhi, hw⟩ := hat
    exact ⟨hholds, hwrite, hread, AtPc.afterTest htaken hread hw hlo hhi⟩
  case hlt => exact ⟨hholds, hwrite, hread, hat⟩
  case index => exact ⟨hholds, hwrite, hread, hat.1, hat.2, hread⟩
  case slot r =>
    refine ⟨hholds, hwrite, hread, hat.1, ?_⟩
    rw [hat.2.2]
    exact hholds.slot_eq _ (le_refl _) hat.2.1
  case advance c => exact ⟨hholds, hwrite, hread, hat.1, hat.2, hread⟩
  case store c r =>
    obtain ⟨htaken, hnext, hr⟩ := hat
    obtain ⟨hlt, hget⟩ := List.getElem?_eq_some_iff.mp hnext
    refine ⟨hholds.retire hlt, hwrite, next_toNat_of_mod hr, ?_⟩
    unfold AtPc
    dsimp only
    rw [htaken, List.take_add_one, hnext]
    rfl
  case ret c => exact ⟨hholds, hwrite, hread, hat⟩

theorem run_inv (buffer : ℕ → UInt8) (events : List KeyboardEvent) : Inv (run buffer events) := by
  have hsteps : ∀ s, Inv s → Inv (events.foldl step s) := by
    induction events with
    | nil => exact fun _ hinv => hinv
    | cons event events ih =>
        intro s hinv
        apply ih
        cases event with
        | push c => exact hinv.push c
        | access writeFirst => exact hinv.access writeFirst
  exact hsteps _ (init_inv buffer)

/-! ## The queue -/

/-- Only the character that the current call returns is retired and not returned. -/
theorem Inv.returned_cases (hinv : Inv s) : s.returned = s.accepted.take s.retired ∨
    ∃ c, s.pc = .ret c ∧ s.returned ++ [c] = s.accepted.take s.retired := by
  have hat := hinv.atPc
  unfold AtPc at hat
  cases hpc : s.pc <;> simp only [hpc] at hat
  case ret c => exact Or.inr ⟨c, rfl, hat⟩
  case test => exact Or.inl hat
  case hlt => exact Or.inl hat
  all_goals exact Or.inl hat.1

theorem Inv.returned_prefix (hinv : Inv s) : s.returned <+: s.accepted ∧
    s.returned.length ≤ s.retired ∧ s.retired ≤ s.returned.length + 1 := by
  have hle := hinv.holds.retired_le
  have hlength : (s.accepted.take s.retired).length = s.retired := List.length_take_of_le hle
  rcases hinv.returned_cases with hreturned | ⟨c, -, hreturned⟩
  · rw [← hreturned] at hlength
    exact ⟨hreturned ▸ List.take_prefix _ _, by omega, by omega⟩
  · rw [← hreturned, List.length_append, List.length_singleton] at hlength
    have hpre : s.returned ++ [c] <+: s.accepted := hreturned ▸ List.take_prefix _ _
    exact ⟨(List.prefix_append _ _).trans hpre, by omega, by omega⟩

/-- In every interleaving of pushes with the accesses of the reader, the
characters returned are the first ones accepted, in order; all that are not
retired are in the buffer; and a push is dropped, leaving the queue as it is, if
and only if 255 accepted characters have not been retired. -/
theorem run_fifo (buffer : ℕ → UInt8) (events : List KeyboardEvent) :
    let s := run buffer events
    s.returned <+: s.accepted ∧
      (s.returned.length ≤ s.retired ∧ s.retired ≤ s.returned.length + 1) ∧
      (∀ i, s.retired ≤ i → i < s.accepted.length →
        s.accepted[i]? = some (s.keyboard.buffer (i % 256))) ∧
      ∀ c, (step s (.push c)).accepted =
          (if s.accepted.length = s.retired + 255 then s.accepted else s.accepted ++ [c]) ∧
        (s.accepted.length = s.retired + 255 → step s (.push c) = s) := by
  intro s
  have hinv : Inv s := run_inv buffer events
  obtain ⟨hpre, hlo, hhi⟩ := hinv.returned_prefix
  refine ⟨hpre, ⟨hlo, hhi⟩, hinv.holds.slot_eq, fun c => ⟨?_, fun hwaiting => ?_⟩⟩
  · simp only [step, KeyboardRun.push, hinv.isFull_iff]
  · have hfull := hinv.isFull_iff.mpr hwaiting
    unfold step KeyboardRun.push Keyboard.keyboardPush
    dsimp only
    rw [if_pos hfull, if_pos hfull]

/-- A character pushed between the two loads of the test is returned by that call. -/
example : (run (fun _ => 0)
  ([.access false, .push 65] ++ List.replicate 6 (.access false))).returned =
    [65] := by decide

end KeyboardRun

end BadOS.Kernel
