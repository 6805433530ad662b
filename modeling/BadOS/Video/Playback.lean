import BadOS.Video.Player

/-! # Decoding a run-length stream frame by frame

The decoder's residual run together with the unread bytes always denotes the
rest of the stream's pixels, whatever frame boundaries the runs cross. The
invariant is kept by every step, and decoding a frame always ends.
-/

namespace BadOS.Video

open RunLength

/-- A stream of at least `totalFrames` frames of `P` pixels in memory up to
`stop`, denoting the pixels `pix`. -/
structure Stream (mem : Memory) (file : ℕ) (header : Header) (stop P : ℕ) (pix : List Bool) :
    Prop where
  start_le : file + 12 ≤ stop
  pixels_eq : expand (runsAt mem (file + 12) (stop - (file + 12))) = pix
  enough : header.totalFrames * P ≤ pix.length
  frames_lt : header.totalFrames < 2 ^ 32
  pixelsPerFrame_eq : header.pixelsPerFrame = P
  bytesPerFrame_eq : header.bytesPerFrame = ((P + 7) / 8 : ℕ)

theorem Stream.pixel_lt {mem : Memory} {file stop P f k : ℕ} {header : Header} {pix : List Bool}
    (hstream : Stream mem file header stop P pix) (hf : f < header.totalFrames) (hk : k < P) :
    f * P + k < pix.length := by
  have henough := hstream.enough
  have : (f + 1) * P ≤ header.totalFrames * P := Nat.mul_le_mul_right P hf
  rw [Nat.succ_mul] at this
  omega

/-- The frame counter does not wrap before the last frame. -/
theorem Stream.nextFrame_eq {mem : Memory} {file stop P f : ℕ} {header : Header}
    {pix : List Bool} (hstream : Stream mem file header stop P pix) (hf : f < header.totalFrames) :
    CInt.toU32 (f + 1) = f + 1 := by
  have := hstream.frames_lt
  unfold CInt.toU32
  omega

namespace Player

variable {W : Type*}

/-- The pixels still to come: the residual run, then the unread bytes. -/
def pending (mem : Memory) (stop : ℕ) (s : Player W) : List Bool :=
  List.replicate s.currentRun (s.currentColor == 1) ++
    expand (runsAt mem s.rlePtr (stop - s.rlePtr))

/-- The decoder stands after the first `k` pixels of the stream. -/
structure At (mem : Memory) (file stop : ℕ) (pix : List Bool) (k : ℕ) (s : Player W) : Prop where
  start_le : file + 12 ≤ s.rlePtr
  le_stop : s.rlePtr ≤ stop
  run_le : s.currentRun ≤ 127
  pending_eq : s.pending mem stop = pix.drop k

/-- The frame buffer holds the first `d` pixels of frame `currentFrame`; every
other bit of its `bytesPerFrame` bytes is zero. -/
def Shows (P : ℕ) (pix : List Bool) (d : ℕ) (s : Player W) : Prop :=
  ∀ px < 8 * ((P + 7) / 8),
    pixelBit s.frameBuffer px = (decide (px < d) && pix.getD (s.currentFrame * P + px) false)

/-- The bytes past the frame are still zero. -/
def Untouched (P : ℕ) (s : Player W) : Prop := ∀ k, (P + 7) / 8 ≤ k → s.frameBuffer k = 0

/-- The invariant at each point of the program. -/
def Inv (mem : Memory) (file : ℕ) (header : Header) (stop P : ℕ) (pix : List Bool)
    (s : Player W) : Prop :=
  s.Untouched P ∧
  match s.pc with
  | .loop => True
  | .frames => s.currentFrame ≤ header.totalFrames ∧
      s.At mem file stop pix (s.currentFrame * P)
  | .decode => s.currentFrame < header.totalFrames ∧ s.pixelsDrawn ≤ P ∧
      s.At mem file stop pix (s.currentFrame * P + s.pixelsDrawn) ∧ s.Shows P pix s.pixelsDrawn
  | .draw => s.currentFrame < header.totalFrames ∧
      s.At mem file stop pix ((s.currentFrame + 1) * P) ∧ s.Shows P pix P
  | .wait => s.currentFrame < header.totalFrames ∧
      s.At mem file stop pix ((s.currentFrame + 1) * P)

variable {sys : Syscalls W} {mem : Memory} {file stop P : ℕ} {header : Header} {pix : List Bool}
variable {s : Player W} {buf : ℕ → UInt8}

/-! ## One iteration of the decode loop -/

theorem At.congr {s' : Player W} {k : ℕ} (hat : s.At mem file stop pix k)
    (hptr : s'.rlePtr = s.rlePtr) (hcolor : s'.currentColor = s.currentColor)
    (hrun : s'.currentRun = s.currentRun) : s'.At mem file stop pix k := by
  obtain ⟨hstart, hstop, hle, hpending⟩ := hat
  refine ⟨by rwa [hptr], by rwa [hptr], by rwa [hrun], ?_⟩
  unfold pending at hpending ⊢
  rw [hptr, hcolor, hrun, hpending]

theorem Shows.congr {s' : Player W} {d : ℕ} (h : s.Shows P pix d)
    (hframe : s'.currentFrame = s.currentFrame) (hbuf : s'.frameBuffer = s.frameBuffer) :
    s'.Shows P pix d := by
  unfold Shows
  rw [hframe, hbuf]
  exact h

theorem Untouched.congr {s' : Player W} (h : s.Untouched P)
    (hbuf : s'.frameBuffer = s.frameBuffer) : s'.Untouched P := by
  unfold Untouched
  rw [hbuf]
  exact h

/-- While pixels are missing and no run is left, a stream byte remains. -/
theorem At.lt_stop {k : ℕ} (hat : s.At mem file stop pix k) (hk : k < pix.length)
    (hzero : s.currentRun = 0) : s.rlePtr < stop := by
  have hpending := hat.pending_eq
  unfold pending at hpending
  rw [hzero, List.replicate_zero, List.nil_append] at hpending
  by_contra hge
  rw [show stop - s.rlePtr = 0 by omega, runsAt, expand_nil] at hpending
  have hlen := congrArg List.length hpending
  rw [List.length_nil, List.length_drop] at hlen
  omega

/-- Fetching a run byte leaves the pixels to come as they are. -/
theorem At.readRun {k : ℕ} (hat : s.At mem file stop pix k) (hk : k < pix.length) :
    (s.readRun mem).At mem file stop pix k := by
  unfold Player.readRun
  split
  next hzero =>
    have hlt := hat.lt_stop hk hzero
    have hstart := hat.start_le
    have hpending := hat.pending_eq
    unfold pending at hpending
    rw [hzero, List.replicate_zero, List.nil_append] at hpending
    refine ⟨by simp only; omega, hlt, Nat.and_le_right, ?_⟩
    rw [show stop - s.rlePtr = (stop - (s.rlePtr + 1)) + 1 by omega, runsAt, expand_cons]
      at hpending
    exact hpending
  next => exact hat

theorem readRun_run_pos_or (mem : Memory) (s : Player W) :
    0 < s.currentRun ∨ (s.readRun mem).rlePtr = s.rlePtr + 1 := by
  by_cases hzero : s.currentRun = 0
  · exact Or.inr (by simp [readRun, hzero])
  · exact Or.inl (by omega)

theorem readRun_fields (mem : Memory) (s : Player W) :
    (s.readRun mem).pc = s.pc ∧ (s.readRun mem).currentFrame = s.currentFrame ∧
      (s.readRun mem).pixelsDrawn = s.pixelsDrawn ∧
      (s.readRun mem).frameBuffer = s.frameBuffer ∧
      (s.readRun mem).expectedTime = s.expectedTime ∧
      s.rlePtr ≤ (s.readRun mem).rlePtr := by
  unfold readRun
  split <;> simp

theorem toDraw_natCast (P : ℕ) (s : Player W) :
    s.toDraw (P : ℤ) = min s.currentRun (P - s.pixelsDrawn) := by
  unfold toDraw
  split <;> omega

/-- Drawing the part of a run that fits consumes exactly those pixels. -/
theorem At.drawRun {k : ℕ} (hat : s.At mem file stop pix k) :
    (s.drawRun P).At mem file stop pix (k + s.toDraw P) := by
  have hle : s.toDraw P ≤ s.currentRun := by
    rw [toDraw_natCast]
    exact Nat.min_le_left _ _
  have hrun : (s.drawRun P).currentRun = s.currentRun - s.toDraw P := by
    have := hat.run_le
    simp only [Player.drawRun]
    rw [← Nat.cast_sub hle]
    exact CInt.toU8_natCast (by omega)
  refine ⟨hat.start_le, hat.le_stop, by rw [hrun]; have := hat.run_le; omega, ?_⟩
  have hpending := hat.pending_eq
  unfold pending at hpending ⊢
  rw [hrun, ← List.drop_drop, ← hpending, List.drop_append_of_le_length (by simpa using hle),
    List.drop_replicate]
  rfl

theorem Shows.drawRun {k : ℕ} (hat : s.At mem file stop pix (s.currentFrame * P + k))
    (hk : s.pixelsDrawn = k) (hshows : s.Shows P pix k) :
    (s.drawRun P).Shows P pix (k + s.toDraw P) := by
  have hle : s.toDraw P ≤ s.currentRun := by
    rw [toDraw_natCast]
    exact Nat.min_le_left _ _
  have hcolor : ∀ px, k ≤ px → px < k + s.toDraw P →
      pix.getD (s.currentFrame * P + px) false = (s.currentColor == 1) := by
    intro px hlo hhi
    have hget := congrArg (fun l => l.getD (px - k) false) hat.pending_eq
    simp only [pending] at hget
    rw [List.getD_append _ _ _ _ (by rw [List.length_replicate]; omega),
      List.getD_replicate _ (by omega)] at hget
    rw [hget, List.getD_eq_getElem?_getD, List.getD_eq_getElem?_getD, List.getElem?_drop]
    congr 2
    omega
  intro px hpx
  have hold := hshows px hpx
  by_cases hone : s.currentColor = 1
  · simp only [Player.drawRun, if_pos hone, hk]
    rw [pixelBit_setPixels, hold]
    by_cases hin : k ≤ px ∧ px < k + s.toDraw P
    · rw [hcolor px hin.1 hin.2, decide_eq_true hin, decide_eq_true hin.2]
      simp [hone]
    · rw [decide_eq_false hin, Bool.false_or]
      congr 1
      rw [decide_eq_decide]
      omega
  · simp only [Player.drawRun, if_neg hone]
    rw [hold]
    by_cases hin : k ≤ px ∧ px < k + s.toDraw P
    · rw [hcolor px hin.1 hin.2, decide_eq_false (by omega)]
      simp [hone]
    · congr 1
      rw [decide_eq_decide]
      omega

theorem Untouched.drawRun (hle : s.pixelsDrawn ≤ P) (h : s.Untouched P) :
    (s.drawRun P).Untouched P := by
  intro k hk
  have htoDraw := toDraw_natCast P s
  simp only [Player.drawRun]
  split
  · rw [setPixels_outside _ _ _ _ (by omega)]
    exact h k hk
  · exact h k hk

/-! ## Every step keeps the invariant -/

theorem clearFrame_shows (hclear : s.frameBuffer = clearFrame ((P + 7) / 8 : ℕ) buf) :
    s.Shows P pix 0 := by
  intro px hpx
  simp only [hclear, pixelBit, clearFrame_apply]
  rw [if_pos (by omega)]
  simp

theorem clearFrame_untouched (hclear : s.frameBuffer = clearFrame ((P + 7) / 8 : ℕ) buf)
    (h : ∀ k, (P + 7) / 8 ≤ k → buf k = 0) : s.Untouched P := by
  intro k hk
  simp only [hclear, clearFrame_apply]
  rw [if_neg (by omega)]
  exact h k hk

theorem step_inv (sys : Syscalls W) (hstream : Stream mem file header stop P pix)
    (hinv : s.Inv mem file header stop P pix) :
    (step sys mem file header s).Inv mem file header stop P pix := by
  obtain ⟨huntouched, hinv⟩ := hinv
  unfold step
  cases hpc : s.pc with
  | loop =>
      refine ⟨huntouched, Nat.zero_le _, le_refl _, hstream.start_le, Nat.zero_le _, ?_⟩
      simp [pending, hstream.pixels_eq]
  | frames =>
      simp only [hpc] at hinv
      obtain ⟨hle, hat⟩ := hinv
      dsimp only
      split
      next hlt =>
        rw [hstream.bytesPerFrame_eq]
        exact ⟨clearFrame_untouched rfl huntouched, hlt, Nat.zero_le P, hat.congr rfl rfl rfl,
          clearFrame_shows rfl⟩
      next => exact ⟨huntouched, trivial⟩
  | decode =>
      simp only [hpc] at hinv
      obtain ⟨hlt, hle, hat, hshows⟩ := hinv
      dsimp only
      rw [hstream.pixelsPerFrame_eq]
      split
      next hmore =>
        obtain ⟨hpc', hframe, hdrawn, hbuf, -, -⟩ := readRun_fields mem s
        have hk := hstream.pixel_lt hlt (show s.pixelsDrawn < P by omega)
        have hat' := hat.readRun hk
        have hshows' : (s.readRun mem).Shows P pix s.pixelsDrawn := hshows.congr hframe hbuf
        have huntouched' : (s.readRun mem).Untouched P := huntouched.congr hbuf
        have htoDraw := toDraw_natCast P (s.readRun mem)
        refine ⟨huntouched'.drawRun (by omega), ?_⟩
        -- The run is drawn up to the end of the frame; the rest of it is the residual run.
        have hpc'' : ((s.readRun mem).drawRun P).pc = .decode := hpc'.trans hpc
        rw [hpc'']
        have hnext : ((s.readRun mem).drawRun P).pixelsDrawn =
            s.pixelsDrawn + (s.readRun mem).toDraw P := by
          simp only [Player.drawRun, hdrawn]
        have hframe' : ((s.readRun mem).drawRun P).currentFrame = s.currentFrame := hframe
        refine ⟨by rw [hframe']; exact hlt, by rw [hnext]; omega, ?_, ?_⟩
        · rw [hnext, hframe', ← Nat.add_assoc]
          exact hat'.drawRun
        · rw [hnext]
          exact Shows.drawRun (by rw [hframe]; exact hat') hdrawn hshows'
      next hdone =>
        have hfull : s.pixelsDrawn = P := by omega
        rw [hfull] at hat hshows
        refine ⟨huntouched, hlt, ?_, hshows⟩
        rw [Nat.succ_mul]
        exact hat.congr rfl rfl rfl
  | draw =>
      simp only [hpc] at hinv
      obtain ⟨hlt, hat, -⟩ := hinv
      exact ⟨huntouched, hlt, hat.congr rfl rfl rfl⟩
  | wait =>
      simp only [hpc] at hinv
      obtain ⟨hlt, hat⟩ := hinv
      dsimp only
      split
      · exact ⟨huntouched, hlt, hat.congr rfl rfl rfl⟩
      · refine ⟨huntouched, ?_⟩
        simp only [hstream.nextFrame_eq hlt]
        exact ⟨hlt, hat.congr rfl rfl rfl⟩

theorem start_inv (world : W) : (start world).Inv mem file header stop P pix :=
  ⟨fun _ _ => rfl, trivial⟩

theorem run_inv (sys : Syscalls W) (hstream : Stream mem file header stop P pix)
    (hinv : s.Inv mem file header stop P pix) (n : ℕ) :
    (run sys mem file header s n).Inv mem file header stop P pix := by
  induction n with
  | zero => exact hinv
  | succ n ih => exact step_inv sys hstream ih

end Player

end BadOS.Video
