import BadOS.Video.Converter

/-! # The encoding is the shortest

The encoder is the greedy run-length code with cap 127: its state counts the same
runs. No byte holds a longer run, so no byte string for the same pixels is shorter.
-/

namespace BadOS.Video

open RunLength

/-- The encoder has written all runs but the last, which is pending. -/
def Encoder.Matches (e : Encoder) (s : ℕ × Option (Bool × ℕ)) : Prop :=
  match s.2 with
  | none => e.currentColor = -1 ∧ e.runLength = 0 ∧ e.rleIndex = 0 ∧ s.1 = 0
  | some (color, n) => e.currentColor = (if color then 1 else 0) ∧ e.runLength = n ∧ 0 < n ∧
      e.rleIndex + 1 = s.1

namespace Encoder

variable {e : Encoder} {s : ℕ × Option (Bool × ℕ)}

theorem pixel_matches (hmatch : e.Matches s) (bright : Bool) :
    (e.pixel bright).Matches (push 127 s bright) := by
  obtain ⟨m, last⟩ := s
  cases last with
  | none =>
      obtain ⟨hcolor, hrun, hindex, rfl⟩ := hmatch
      simp [pixel, push, Matches, hcolor, hindex]
  | some run =>
      obtain ⟨color, n⟩ := run
      obtain ⟨hcolor, hrun, hpos, hindex⟩ := hmatch
      have hne : e.currentColor ≠ -1 := by
        rw [hcolor]
        cases color <;> decide
      have hsame : e.currentColor = (if bright then 1 else 0) ↔ color = bright := by
        rw [hcolor]
        cases color <;> cases bright <;> decide
      by_cases hextend : color = bright ∧ n < 127
      · obtain ⟨rfl, hlt⟩ := hextend
        simp only [pixel, if_neg hne, if_pos (show e.currentColor = _ ∧ _ from
          ⟨hcolor, hrun ▸ hlt⟩), push_extend hlt, Matches]
        exact ⟨hcolor, by rw [hrun], Nat.succ_pos n, hindex⟩
      · have hflush : ¬ (e.currentColor = (if bright then 1 else 0) ∧ e.runLength < 127) := by
          rwa [hsame, hrun]
        simp only [pixel, if_neg hne, if_neg hflush, push_fresh hextend, Matches, flush]
        simpa using hindex

theorem frame_matches (hmatch : e.Matches s) (n : ℕ) (frameBuffer : List UInt8) :
    (e.frame n frameBuffer).Matches
      (((List.range n).map (isBright frameBuffer)).foldl (push 127) s) := by
  unfold frame
  refine Loop.times_invariant
    (fun i e => e.Matches (((List.range i).map (isBright frameBuffer)).foldl (push 127) s)) _ n e
    hmatch ?_
  intro i hi e' he'
  rw [List.range_succ, List.map_append, List.foldl_append]
  exact pixel_matches he' _

theorem frames_matches (hmatch : e.Matches s) (n : ℕ) (frames : List (List UInt8)) :
    (frames.foldl (frame n) e).Matches
      ((frames.flatMap fun f => (List.range n).map (isBright f)).foldl (push 127) s) := by
  induction frames generalizing e s with
  | nil => exact hmatch
  | cons first rest ih =>
      rw [List.foldl_cons, List.flatMap_cons, List.foldl_append]
      exact ih (frame_matches hmatch n first)

/-- The last flush writes the pending run. -/
theorem finish_rleIndex (hmatch : e.Matches s) : e.finish.rleIndex = s.1 := by
  obtain ⟨m, last⟩ := s
  cases last with
  | none =>
      obtain ⟨-, hrun, hindex, rfl⟩ := hmatch
      simp [finish, hrun, hindex]
  | some run =>
      obtain ⟨-, hrun, hpos, hindex⟩ := hmatch
      rw [finish, if_pos (by omega)]
      exact hindex

end Encoder

namespace Converter

/-- The encoder emits the greedy number of runs. -/
theorem encode_rleIndex (conv : Converter) (uninit : ℕ → UInt8) :
    (conv.encode uninit).rleIndex = (greedy 127 conv.pixels).1 := by
  apply Encoder.finish_rleIndex
  apply Encoder.frames_matches
  simp [Encoder.Matches]

/-- A file is written only when the header fields hold their values. -/
theorem fits_of_process {conv : Converter} {uninit : ℕ → UInt8} {file : List UInt8}
    (hfile : conv.process uninit = some file) :
    conv.width ≤ 65535 ∧ conv.height ≤ 65535 ∧ conv.frames.length < 2 ^ 32 := by
  simp only [process, writeUInt16LE, writeUInt32LE, Option.bind_eq_bind,
    Option.bind_eq_some_iff] at hfile
  obtain ⟨_, hwidth, _, hheight, _, hframes, -⟩ := hfile
  refine ⟨?_, ?_, ?_⟩
  · by_contra hlarge
    rw [if_neg hlarge] at hwidth
    cases hwidth
  · by_contra hlarge
    rw [if_neg hlarge] at hheight
    cases hheight
  · by_contra hlarge
    rw [if_neg (by omega)] at hframes
    cases hframes

/-- The bytes behind the header of the file are the emitted ones. -/
theorem drop_process {conv : Converter} {uninit : ℕ → UInt8} {file : List UInt8}
    (hfile : conv.process uninit = some file) : file.drop 12 = conv.rleBytes uninit := by
  obtain ⟨hwidth, hheight, hframes⟩ := fits_of_process hfile
  rw [conv.process_eq uninit hwidth hheight hframes, Option.some.injEq] at hfile
  rw [← hfile]
  rfl

/-- The emitted bytes denote the pixels with runs of 1 to 127 pixels, and no other
bytes that denote the same pixels are fewer. -/
theorem rleBytes_shortest (conv : Converter) (uninit : ℕ → UInt8) :
    (∀ file, conv.process uninit = some file → file.drop 12 = conv.rleBytes uninit) ∧
      IsLeast {n | ∃ bytes : List UInt8, bytes.length = n ∧
          expand (bytes.map runOf) = conv.pixels} (conv.rleBytes uninit).length ∧
      (∀ b ∈ conv.rleBytes uninit, 1 ≤ (runOf b).2 ∧ (runOf b).2 ≤ 127) ∧
      ((conv.rleBytes uninit).map fun b => (runOf b).2).sum =
        conv.frames.length * conv.width * conv.height := by
  obtain ⟨-, hlength, hpos, hexpand⟩ := conv.encode_spec uninit
  refine ⟨fun file hfile => drop_process hfile, ⟨⟨_, rfl, hexpand⟩, ?_⟩,
    fun b hb => ⟨hpos b hb, runOf_length_le b⟩, ?_⟩
  · rintro n ⟨bytes, rfl, hbytes⟩
    have hcap : ∀ run ∈ bytes.map runOf, run.2 ≤ 127 := by
      intro run hrun
      obtain ⟨b, -, rfl⟩ := List.mem_map.mp hrun
      exact runOf_length_le b
    have hle := greedy_le_length hcap
    rw [hbytes, List.length_map] at hle
    rwa [hlength, encode_rleIndex]
  · have hsum := length_expand ((conv.rleBytes uninit).map runOf)
    rw [hexpand, length_pixels, List.map_map, ← Nat.mul_assoc] at hsum
    exact hsum.symm

end Converter

end BadOS.Video
