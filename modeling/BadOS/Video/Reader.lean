import BadOS.Foundation.Blocks
import BadOS.Video.Converter

/-! # Reading the raw frames

`Converter.read` collects the decoder's output as it arrives. The carried buffer is
what is left behind the last complete frame, however the output was cut.
-/

namespace BadOS.Video

/-- The variables of `read`. -/
structure Reader where
  buffer : List UInt8
  frames : List (List UInt8)

namespace Reader

/-- At most `fuel` rounds of the loop that takes frames off the buffer; `none` when it
has not ended by then. -/
def takeFrames (frameSize : ℕ) : ℕ → Reader → Option Reader
  | 0, _ => none
  | fuel + 1, r =>
      if frameSize ≤ r.buffer.length then
        takeFrames frameSize fuel
          { buffer := r.buffer.drop frameSize
            frames := r.frames ++ [r.buffer.take frameSize] }
      else some r

/-- The `data` handler. A round takes at least a byte, unless the frame size is 0 and
the loop never ends. -/
def data (frameSize : ℕ) (r : Reader) (chunk : List UInt8) : Option Reader :=
  let buffer := r.buffer ++ chunk
  takeFrames frameSize (buffer.length + 1) { r with buffer }

end Reader

namespace Converter

/-- `read` for frames of `frameSize` bytes. -/
def collect (conv : Converter) (frameSize : ℕ) (chunks : List (List UInt8)) : Option Converter :=
  (chunks.foldlM (Reader.data frameSize) ⟨[], conv.frames⟩).map fun r =>
    { conv with frames := r.frames }

/-- The converter after `read` received `chunks`. -/
def read (conv : Converter) (width height : ℕ) (chunks : List (List UInt8)) : Option Converter :=
  let frameSize := width * height * 3
  conv.collect frameSize chunks

end Converter

namespace Reader

variable {frameSize : ℕ}

theorem takeFrames_eq (hsize : 0 < frameSize) {fuel : ℕ} {r : Reader}
    (hfuel : r.buffer.length < fuel) :
    takeFrames frameSize fuel r =
      some ⟨Blocks.rest frameSize r.buffer, r.frames ++ Blocks.whole frameSize r.buffer⟩ := by
  induction fuel generalizing r with
  | zero => exact absurd hfuel (Nat.not_lt_zero _)
  | succ fuel ih =>
      unfold takeFrames
      by_cases hmore : frameSize ≤ r.buffer.length
      · have hless : (r.buffer.drop frameSize).length < fuel := by
          rw [List.length_drop]
          omega
        rw [if_pos hmore, ih hless, Blocks.whole_of_le hsize hmore, Blocks.rest_of_le hsize hmore,
          List.append_assoc, List.singleton_append]
      · rw [if_neg hmore, Blocks.whole_of_lt (not_le.mp hmore), Blocks.rest_of_lt (not_le.mp hmore),
          List.append_nil]

theorem data_eq (hsize : 0 < frameSize) (r : Reader) (chunk : List UInt8) :
    r.data frameSize chunk = some ⟨Blocks.rest frameSize (r.buffer ++ chunk),
      r.frames ++ Blocks.whole frameSize (r.buffer ++ chunk)⟩ :=
  takeFrames_eq hsize (Nat.lt_succ_self _)

/-- After any chunks the buffer is what no complete frame covers. -/
theorem foldlM_data (hsize : 0 < frameSize) (frames : List (List UInt8)) (seen : List UInt8)
    (chunks : List (List UInt8)) :
    chunks.foldlM (data frameSize)
        ⟨Blocks.rest frameSize seen, frames ++ Blocks.whole frameSize seen⟩ =
      some ⟨Blocks.rest frameSize (seen ++ chunks.flatten),
        frames ++ Blocks.whole frameSize (seen ++ chunks.flatten)⟩ := by
  induction chunks generalizing seen with
  | nil => simp
  | cons chunk chunks ih =>
      obtain ⟨hwhole, hrest⟩ := Blocks.whole_rest_append hsize seen chunk
      rw [List.foldlM_cons, data_eq hsize, Option.bind_eq_bind, Option.bind_some]
      dsimp only
      rw [List.append_assoc, ← hwhole, ← hrest, ih, List.flatten_cons, List.append_assoc]

end Reader

/-- Frame `k` is the `k`-th block of the whole output, whatever chunks it came in; an
incomplete block at the end is dropped. -/
theorem Converter.read_frames (conv : Converter) {frameSize : ℕ} (hsize : 0 < frameSize)
    {chunks : List (List UInt8)} {stream : List UInt8} (hcut : chunks.flatten = stream) :
    conv.collect frameSize chunks = some { conv with
      frames := conv.frames ++ (List.range (stream.length / frameSize)).map fun k =>
        (stream.drop (k * frameSize)).take frameSize } ∧
    ∀ width height, width * height * 3 = frameSize →
      conv.read width height chunks = conv.collect frameSize chunks := by
  constructor
  · have hrun := Reader.foldlM_data hsize conv.frames [] chunks
    have hnone : Blocks.rest frameSize ([] : List UInt8) = [] ∧
        Blocks.whole frameSize ([] : List UInt8) = [] :=
      ⟨Blocks.rest_of_lt hsize, Blocks.whole_of_lt hsize⟩
    rw [hnone.1, hnone.2, List.append_nil, List.nil_append, hcut] at hrun
    rw [collect, hrun]
    rfl
  · rintro width height rfl
    rfl

/-- Seven bytes in three chunks are two frames of one pixel. -/
theorem Converter.read_frames_seven :
    (⟨[], 1, 1⟩ : Converter).read 1 1 [[1, 2], [], [3, 4, 5, 6, 7]] =
      some ⟨[[1, 2, 3], [4, 5, 6]], 1, 1⟩ := by
  obtain ⟨hcollect, hread⟩ := Converter.read_frames ⟨[], 1, 1⟩ (show 0 < 3 by decide)
    (show [[1, 2], [], [3, 4, 5, 6, 7]].flatten = [1, 2, 3, 4, 5, 6, 7] from rfl)
  rw [hread 1 1 rfl, hcollect]
  rfl

end BadOS.Video
