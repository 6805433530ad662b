import BadOS.Foundation.Loop
import BadOS.Video.Format

/-! # The video converter

`Converter.process` turns the collected RGB frames into a `.bad` file. The
encoder keeps one pending run, which it carries from frame to frame and flushes
when the colour changes, when the run reaches 127 pixels, and at the end.
-/

namespace BadOS.Video

structure Converter where
  frames : List (List UInt8)
  width : ℕ
  height : ℕ

/-- The encoder's variables inside `process`. `currentColor` is `-1` before the
first pixel. -/
structure Encoder where
  rleBuffer : List UInt8
  rleIndex : ℕ
  currentColor : ℤ
  runLength : ℕ

/-- `(r + g + b) / 3 >= 128`; reading past the frame gives `undefined`, which
makes the comparison false. -/
def isBright (frameBuffer : List UInt8) (i : ℕ) : Bool :=
  let pixelOffset := i * 3
  match frameBuffer[pixelOffset]?, frameBuffer[pixelOffset + 1]?, frameBuffer[pixelOffset + 2]? with
  | some r, some g, some b => decide ((128 : ℚ) ≤ ((r.toNat : ℚ) + g.toNat + b.toNat) / 3)
  | _, _, _ => false

/-- `(currentColor << 7) | runLength` in 32-bit arithmetic, stored into a byte. -/
def runByte (currentColor : ℤ) (runLength : ℕ) : UInt8 :=
  UInt8.ofBitVec
    (((BitVec.ofInt 32 currentColor <<< 7) ||| BitVec.ofNat 32 runLength).setWidth 8)

namespace Encoder

/-- `rleBuffer[rleIndex++] = (currentColor << 7) | runLength`; a store past the
end of a buffer is ignored. -/
def flush (e : Encoder) : Encoder :=
  { e with
    rleBuffer := e.rleBuffer.set e.rleIndex (runByte e.currentColor e.runLength)
    rleIndex := e.rleIndex + 1 }

def pixel (e : Encoder) (bright : Bool) : Encoder :=
  let isBright : ℤ := if bright then 1 else 0
  if e.currentColor = -1 then
    { e with currentColor := isBright, runLength := 1 }
  else if e.currentColor = isBright ∧ e.runLength < 127 then
    { e with runLength := e.runLength + 1 }
  else
    { e.flush with currentColor := isBright, runLength := 1 }

def frame (pixelsPerFrame : ℕ) (e : Encoder) (frameBuffer : List UInt8) : Encoder :=
  Loop.times pixelsPerFrame (fun i e => e.pixel (isBright frameBuffer i)) e

/-- The flush after the last frame. -/
def finish (e : Encoder) : Encoder := if 0 < e.runLength then e.flush else e

end Encoder

/-- Overwrite bytes of a buffer from `offset` on. -/
def bufferWrite (buffer : List UInt8) (offset : ℕ) (bytes : List UInt8) : List UInt8 :=
  buffer.take offset ++ bytes ++ buffer.drop (offset + bytes.length)

/-- `buffer.writeUInt16LE`, which throws when the value does not fit. -/
def writeUInt16LE (buffer : List UInt8) (value offset : ℕ) : Option (List UInt8) :=
  if value ≤ 0xFFFF then
    some (bufferWrite buffer offset [UInt8.ofNat value, UInt8.ofNat (value / 256)])
  else none

/-- `buffer.writeUInt32LE`, which throws when the value does not fit. -/
def writeUInt32LE (buffer : List UInt8) (value offset : ℕ) : Option (List UInt8) :=
  if value ≤ 0xFFFFFFFF then
    some (bufferWrite buffer offset [UInt8.ofNat value, UInt8.ofNat (value / 256),
      UInt8.ofNat (value / 256 ^ 2), UInt8.ofNat (value / 256 ^ 3)])
  else none

namespace Converter

def pixelsPerFrame (conv : Converter) : ℕ := conv.width * conv.height

/-- The encoder loop; `uninit` is what `Buffer.allocUnsafe` left in the buffer. -/
def encode (conv : Converter) (uninit : ℕ → UInt8) : Encoder :=
  let rleBuffer := (List.range (conv.frames.length * conv.pixelsPerFrame)).map uninit
  (conv.frames.foldl (Encoder.frame conv.pixelsPerFrame) ⟨rleBuffer, 0, -1, 0⟩).finish

/-- The bytes of the file `process` writes. -/
def process (conv : Converter) (uninit : ℕ → UInt8) : Option (List UInt8) := do
  let e := conv.encode uninit
  let headerSize := 12
  let finalSize := headerSize + e.rleIndex
  let buffer := List.replicate finalSize 0
  let buffer := bufferWrite buffer 0 [0x42, 0x41, 0x44, 0]
  let buffer ← writeUInt16LE buffer conv.width 4
  let buffer ← writeUInt16LE buffer conv.height 6
  let buffer ← writeUInt32LE buffer conv.frames.length 8
  return bufferWrite buffer headerSize (e.rleBuffer.take e.rleIndex)

/-- The black and white pixels of all frames, in encoding order. -/
def pixels (conv : Converter) : List Bool :=
  conv.frames.flatMap (fun frame => (List.range conv.pixelsPerFrame).map (isBright frame))

end Converter

theorem isBright_iff {frameBuffer : List UInt8} {i : ℕ} (hlen : i * 3 + 2 < frameBuffer.length) :
    isBright frameBuffer i = true ↔
      384 ≤ frameBuffer[i * 3].toNat + frameBuffer[i * 3 + 1].toNat +
        frameBuffer[i * 3 + 2].toNat := by
  simp only [isBright, List.getElem?_eq_getElem (show i * 3 < frameBuffer.length by omega),
    List.getElem?_eq_getElem (show i * 3 + 1 < frameBuffer.length by omega),
    List.getElem?_eq_getElem hlen, decide_eq_true_eq]
  rw [le_div_iff₀ (by norm_num)]
  norm_num
  exact_mod_cast Iff.rfl

/-! ## The pending-run invariant -/

theorem runOf_runByte (color : Bool) {n : ℕ} (hn : n ≤ 127) :
    runOf (runByte (if color then 1 else 0) n) = (color, n) := by
  have hall : ∀ (c : Bool) (k : Fin 128),
      runOf (runByte (if c then 1 else 0) k.val) = (c, k.val) := by decide
  exact hall color ⟨n, by omega⟩

/-- The encoder after `done`: the emitted bytes followed by the pending run
denote exactly `done`. -/
structure Encoder.Inv (capacity : ℕ) (done : List Bool) (e : Encoder) : Prop where
  buffer_length : e.rleBuffer.length = capacity
  index_le : e.rleIndex ≤ capacity
  positive : ∀ b ∈ e.rleBuffer.take e.rleIndex, 0 < (runOf b).2
  pending : (e.currentColor = -1 ∧ e.runLength = 0 ∧ e.rleIndex = 0 ∧ done = []) ∨
    ∃ color : Bool, e.currentColor = (if color then 1 else 0) ∧
      0 < e.runLength ∧ e.runLength ≤ 127 ∧
      RunLength.expand ((e.rleBuffer.take e.rleIndex).map runOf) ++
        List.replicate e.runLength color = done

namespace Encoder

variable {capacity : ℕ} {done : List Bool} {e : Encoder}

/-- A pending run leaves room for its byte. -/
theorem Inv.index_lt {color : Bool} (hinv : e.Inv capacity done)
    (hrun : 0 < e.runLength) (hdone : RunLength.expand ((e.rleBuffer.take e.rleIndex).map runOf) ++
        List.replicate e.runLength color = done) : e.rleIndex < done.length := by
  have hpos : ∀ run ∈ (e.rleBuffer.take e.rleIndex).map runOf, 0 < run.2 := by
    intro run hmem
    obtain ⟨b, hb, rfl⟩ := List.mem_map.mp hmem
    exact hinv.positive b hb
  have hcount := RunLength.length_le_length_expand hpos
  have hindex := hinv.index_le
  rw [List.length_map, List.length_take, hinv.buffer_length] at hcount
  rw [← hdone, List.length_append, List.length_replicate]
  omega

/-- Flushing moves the pending run into the emitted bytes. -/
theorem take_flush (hindex : e.rleIndex < e.rleBuffer.length) :
    e.flush.rleBuffer.take e.flush.rleIndex =
      e.rleBuffer.take e.rleIndex ++ [runByte e.currentColor e.runLength] := by
  simp only [flush]
  rw [List.take_add_one, List.take_set, List.getElem?_set_self hindex]
  rw [List.set_eq_of_length_le (by simp)]
  rfl

theorem flush_spec {color : Bool} (hinv : e.Inv capacity done) (hcap : done.length ≤ capacity)
    (hcolor : e.currentColor = if color then 1 else 0) (hrun : 0 < e.runLength)
    (hle : e.runLength ≤ 127)
    (hdone : RunLength.expand ((e.rleBuffer.take e.rleIndex).map runOf) ++
        List.replicate e.runLength color = done) :
    e.flush.rleBuffer.length = capacity ∧ e.flush.rleIndex ≤ capacity ∧
      (∀ b ∈ e.flush.rleBuffer.take e.flush.rleIndex, 0 < (runOf b).2) ∧
      RunLength.expand ((e.flush.rleBuffer.take e.flush.rleIndex).map runOf) = done := by
  have hlt := hinv.index_lt hrun hdone
  have hbuf := hinv.buffer_length
  have htake := take_flush (e := e) (by omega)
  refine ⟨by simp [flush, hbuf], by simp only [flush]; omega, ?_, ?_⟩
  · rw [htake, hcolor]
    intro b hb
    rcases List.mem_append.mp hb with hold | hnew
    · exact hinv.positive b hold
    · rw [List.mem_singleton.mp hnew, runOf_runByte color hle]
      exact hrun
  · rw [htake, hcolor, List.map_append, RunLength.expand_append, List.map_singleton,
      runOf_runByte color hle, RunLength.expand_cons, RunLength.expand_nil, List.append_nil, hdone]

theorem pixel_inv (hinv : e.Inv capacity done) (hcap : done.length < capacity) (bright : Bool) :
    (e.pixel bright).Inv capacity (done ++ [bright]) := by
  rcases hinv.pending with ⟨hcolor, hrun, hindex, rfl⟩ | ⟨color, hcolor, hrun, hle, hdone⟩
  · refine ⟨by simp [pixel, hcolor, hinv.buffer_length], by simp [pixel, hcolor, hindex],
      by simp [pixel, hcolor, hindex], Or.inr ⟨bright, ?_⟩⟩
    simp [pixel, hcolor, hindex]
  · have hne : e.currentColor ≠ -1 := by
      rw [hcolor]
      cases color <;> decide
    by_cases hsame : e.currentColor = (if bright then 1 else 0) ∧ e.runLength < 127
    · have heq : color = bright := by
        have hcolors := hcolor.symm.trans hsame.1
        cases color <;> cases bright <;> simp_all
      have hpixel : e.pixel bright = { e with runLength := e.runLength + 1 } := by
        simp only [pixel, if_neg hne, if_pos hsame]
      rw [hpixel]
      refine ⟨hinv.buffer_length, hinv.index_le, hinv.positive,
        Or.inr ⟨color, hcolor, by simp, by simpa using hsame.2, ?_⟩⟩
      rw [← hdone, List.append_assoc, ← heq, List.replicate_succ']
    · obtain ⟨hbuf, hidx, hpos, hexpand⟩ :=
        flush_spec hinv (by omega) hcolor hrun hle hdone
      have hpixel : e.pixel bright =
          { e.flush with currentColor := if bright then 1 else 0, runLength := 1 } := by
        simp only [pixel, if_neg hne, if_neg hsame]
      rw [hpixel]
      refine ⟨hbuf, hidx, hpos, Or.inr ⟨bright, rfl, by simp, by simp, ?_⟩⟩
      exact congrArg (· ++ [bright]) hexpand

theorem frame_inv (n : ℕ) (frameBuffer : List UInt8) (hinv : e.Inv capacity done)
    (hcap : done.length + n ≤ capacity) :
    (e.frame n frameBuffer).Inv capacity
      (done ++ (List.range n).map (isBright frameBuffer)) := by
  unfold frame
  refine Loop.times_invariant
    (fun i e => e.Inv capacity (done ++ (List.range i).map (isBright frameBuffer))) _ n e
    (by simpa using hinv) ?_
  intro i hi e' he'
  rw [List.range_succ, List.map_append, ← List.append_assoc]
  exact pixel_inv he' (by simp; omega) _

theorem frames_inv (n : ℕ) (frames : List (List UInt8)) (hinv : e.Inv capacity done)
    (hcap : done.length + frames.length * n ≤ capacity) :
    (frames.foldl (frame n) e).Inv capacity
      (done ++ frames.flatMap (fun f => (List.range n).map (isBright f))) := by
  induction frames generalizing e done with
  | nil => simpa using hinv
  | cons first rest ih =>
      have hmul : (rest.length + 1) * n = rest.length * n + n := Nat.succ_mul _ _
      rw [List.length_cons] at hcap
      have hfirst := frame_inv n first hinv (by omega)
      rw [List.foldl_cons, List.flatMap_cons, ← List.append_assoc]
      exact ih hfirst (by simp; omega)

/-- After the final flush the emitted bytes denote everything encoded. -/
theorem finish_spec (hinv : e.Inv capacity done) (hcap : done.length ≤ capacity) :
    e.finish.rleBuffer.length = capacity ∧ e.finish.rleIndex ≤ capacity ∧
      (∀ b ∈ e.finish.rleBuffer.take e.finish.rleIndex, 0 < (runOf b).2) ∧
      RunLength.expand ((e.finish.rleBuffer.take e.finish.rleIndex).map runOf) = done := by
  rcases hinv.pending with ⟨-, hrun, hindex, rfl⟩ | ⟨color, hcolor, hrun, hle, hdone⟩
  · have hfinish : e.finish = e := by simp [finish, hrun]
    rw [hfinish, hindex]
    exact ⟨hinv.buffer_length, Nat.zero_le _, by simp, by simp⟩
  · have hfinish : e.finish = e.flush := by simp [finish, hrun]
    rw [hfinish]
    exact flush_spec hinv hcap hcolor hrun hle hdone

end Encoder

namespace Converter

/-- The run bytes of the file. -/
def rleBytes (conv : Converter) (uninit : ℕ → UInt8) : List UInt8 :=
  (conv.encode uninit).rleBuffer.take (conv.encode uninit).rleIndex

theorem length_pixels (conv : Converter) :
    conv.pixels.length = conv.frames.length * (conv.width * conv.height) := by
  unfold pixels pixelsPerFrame
  rw [List.length_flatMap]
  simp

theorem encode_spec (conv : Converter) (uninit : ℕ → UInt8) :
    (conv.encode uninit).rleIndex ≤ conv.frames.length * conv.pixelsPerFrame ∧
      (conv.rleBytes uninit).length = (conv.encode uninit).rleIndex ∧
      (∀ b ∈ conv.rleBytes uninit, 0 < (runOf b).2) ∧
      RunLength.expand ((conv.rleBytes uninit).map runOf) = conv.pixels := by
  have hstart : (⟨(List.range (conv.frames.length * conv.pixelsPerFrame)).map uninit,
      0, -1, 0⟩ : Encoder).Inv (conv.frames.length * conv.pixelsPerFrame) [] :=
    ⟨by simp, by simp, by simp, Or.inl ⟨rfl, rfl, rfl, rfl⟩⟩
  have hframes := Encoder.frames_inv conv.pixelsPerFrame conv.frames hstart (by simp)
  obtain ⟨hbuf, hidx, hpos, hexpand⟩ := Encoder.finish_spec hframes (by
    rw [List.nil_append]
    exact conv.length_pixels.le)
  refine ⟨hidx, ?_, hpos, ?_⟩
  · unfold rleBytes encode
    rw [List.length_take, hbuf]
    exact Nat.min_eq_left hidx
  · exact hexpand

/-- The header bytes followed by the run bytes. -/
theorem process_eq (conv : Converter) (uninit : ℕ → UInt8) (hwidth : conv.width ≤ 65535)
    (hheight : conv.height ≤ 65535) (hframes : conv.frames.length < 2 ^ 32) :
    conv.process uninit = some
      ([0x42, 0x41, 0x44, 0, UInt8.ofNat conv.width, UInt8.ofNat (conv.width / 256),
        UInt8.ofNat conv.height, UInt8.ofNat (conv.height / 256),
        UInt8.ofNat conv.frames.length, UInt8.ofNat (conv.frames.length / 256),
        UInt8.ofNat (conv.frames.length / 256 ^ 2), UInt8.ofNat (conv.frames.length / 256 ^ 3)] ++
        conv.rleBytes uninit) := by
  have hlen := (conv.encode_spec uninit).2.1
  unfold rleBytes at hlen ⊢
  have hrep : List.replicate (12 + (conv.encode uninit).rleIndex) (0 : UInt8) =
      [0, 0, 0, 0, 0, 0, 0, 0, 0, 0, 0, 0] ++
        List.replicate (conv.encode uninit).rleIndex 0 := by
    rw [List.replicate_add]
    rfl
  have hframes' : conv.frames.length ≤ 0xFFFFFFFF := by omega
  simp only [process, writeUInt16LE, writeUInt32LE, hrep, if_pos hwidth, if_pos hheight,
    if_pos hframes']
  simp [bufferWrite, hlen]
  omega

end Converter

end BadOS.Video
