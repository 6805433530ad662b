import BadOS.Video.Progress

/-! # Decoding any stream

What the decode loop does with a stream that need not be an encoder's: runs may be
empty, split anywhere and cross frame boundaries. Only as many bytes are fetched as
the frames decoded so far need.
-/

namespace BadOS.Video

open RunLength

/-- The pixels the first `n` bytes of the stream stand for. -/
def pixelsIn (mem : Memory) (file n : ℕ) : ℕ := ((runsAt mem (file + 12) n).map Prod.snd).sum

theorem runsAt_add (mem : Memory) (a m n : ℕ) :
    runsAt mem a (m + n) = runsAt mem a m ++ runsAt mem (a + m) n := by
  induction m generalizing a with
  | zero => simp [runsAt]
  | succ m ih =>
      rw [Nat.succ_add, runsAt, runsAt, ih, List.cons_append, Nat.add_assoc, Nat.add_comm 1]

namespace Player

variable {W : Type*} {sys : Syscalls W} {mem : Memory} {file stop P : ℕ} {header : Header}
variable {pix : List Bool} {s : Player W}

/-- The indices of `frame_buffer` that the next step writes. -/
def nextWrites (mem : Memory) (header : Header) (s : Player W) : List ℕ :=
  match s.pc with
  | .frames =>
      if s.currentFrame < header.totalFrames then List.range header.bytesPerFrame.toNat else []
  | .decode =>
      let s' := s.readRun mem
      if (s.pixelsDrawn : ℤ) < header.pixelsPerFrame ∧ s'.currentColor = 1 then
        (List.range (s'.toDraw header.pixelsPerFrame)).map fun i => (s'.pixelsDrawn + i) / 8
      else []
  | _ => []

theorem setPixels_of_not_mem (buf : ℕ → UInt8) {p n k : ℕ} (hk : ∀ i < n, (p + i) / 8 ≠ k) :
    Loop.times n (fun i buf => setPixel buf (p + i)) buf k = buf k := by
  induction n with
  | zero => rfl
  | succ n ih =>
      rw [Loop.times_succ, setPixel, Function.update_of_ne (Ne.symm (hk n (Nat.lt_succ_self n)))]
      exact ih fun i hi => hk i (by omega)

/-- Every other index keeps its byte. -/
theorem step_frameBuffer {k : ℕ} (hk : k ∉ s.nextWrites mem header) :
    (step sys mem file header s).frameBuffer k = s.frameBuffer k := by
  unfold nextWrites at hk
  cases hpc : s.pc with
  | loop => simp only [step, hpc]
  | frames =>
      simp only [hpc] at hk
      by_cases hmore : s.currentFrame < header.totalFrames
      · rw [if_pos hmore, List.mem_range] at hk
        have hclear := clearFrame_apply s.frameBuffer header.bytesPerFrame.toNat k
        rw [if_neg hk] at hclear
        simp only [step, hpc, if_pos hmore]
        rw [← hclear]
        unfold clearFrame
        rw [Int.toNat_natCast]
      · simp only [step, hpc, if_neg hmore]
  | decode =>
      simp only [hpc] at hk
      by_cases hmore : (s.pixelsDrawn : ℤ) < header.pixelsPerFrame
      · obtain ⟨-, -, -, hbuf, -, -⟩ := readRun_fields mem s
        rw [step_decode sys mem file hpc hmore, ← hbuf]
        by_cases hone : (s.readRun mem).currentColor = 1
        · rw [if_pos ⟨hmore, hone⟩, List.mem_map] at hk
          simp only [drawRun, if_pos hone]
          apply setPixels_of_not_mem
          intro i hi heq
          exact hk ⟨i, List.mem_range.mpr hi, heq⟩
        · simp only [drawRun, if_neg hone]
      · simp only [step, hpc, if_neg hmore]
  | draw => simp only [step, hpc]
  | wait =>
      by_cases hpast : (sys.uptime s.world).1 < s.expectedTime
      · simp only [step, hpc, if_pos hpast]
      · simp only [step, hpc, if_neg hpast]

/-- No step writes past the frame's bytes. -/
theorem nextWrites_lt {k : ℕ} (hpixels : header.pixelsPerFrame = P)
    (hbytes : header.bytesPerFrame = ((P + 7) / 8 : ℕ)) (hk : k ∈ s.nextWrites mem header) :
    k < (P + 7) / 8 := by
  unfold nextWrites at hk
  cases hpc : s.pc with
  | loop => simp [hpc] at hk
  | frames =>
      simp only [hpc] at hk
      split at hk
      · rwa [hbytes, Int.toNat_natCast, List.mem_range] at hk
      · simp at hk
  | decode =>
      simp only [hpc] at hk
      split at hk
      · rw [hpixels, List.mem_map] at hk
        obtain ⟨i, hi, rfl⟩ := hk
        have htoDraw := toDraw_natCast P (s.readRun mem)
        rw [List.mem_range, htoDraw] at hi
        omega
      · simp at hk
  | draw => simp [hpc] at hk
  | wait => simp [hpc] at hk

/-! ## The bytes consumed -/

/-- The bytes fetched stand for the pixels passed and the residual run. -/
theorem At.pixelsIn_eq (hstream : Stream mem file header stop P pix) {k : ℕ}
    (hat : s.At mem file stop pix k) (hk : k ≤ pix.length) :
    pixelsIn mem file (s.rlePtr - (file + 12)) = k + s.currentRun := by
  have hstart := hat.start_le
  have hstop := hat.le_stop
  have hpending := congrArg List.length hat.pending_eq
  have hpixels := congrArg List.length hstream.pixels_eq
  have hsplit : stop - (file + 12) = (s.rlePtr - (file + 12)) + (stop - s.rlePtr) := by omega
  have haddr : file + 12 + (s.rlePtr - (file + 12)) = s.rlePtr := by omega
  rw [hsplit, runsAt_add, haddr, expand_append, List.length_append, length_expand] at hpixels
  rw [pending, List.length_append, List.length_replicate, List.length_drop] at hpending
  unfold pixelsIn
  omega

/-- Fewer bytes than were fetched stand for fewer than `bound` pixels. -/
def Thrifty (mem : Memory) (file bound : ℕ) (s : Player W) : Prop :=
  ∀ n < s.rlePtr - (file + 12), pixelsIn mem file n < bound

/-- The decoder fetches only what the frames up to the current one need. -/
def Needed (mem : Memory) (file P : ℕ) (s : Player W) : Prop :=
  match s.pc with
  | .loop => True
  | .frames => s.Thrifty mem file (s.currentFrame * P)
  | _ => s.Thrifty mem file ((s.currentFrame + 1) * P)

theorem Thrifty.congr {s' : Player W} {bound : ℕ} (h : s.Thrifty mem file bound)
    (hptr : s'.rlePtr = s.rlePtr) : s'.Thrifty mem file bound := by
  unfold Thrifty
  rw [hptr]
  exact h

/-- A byte is fetched only while the current frame lacks pixels. -/
theorem Thrifty.readRun (hstream : Stream mem file header stop P pix) {k bound : ℕ}
    (h : s.Thrifty mem file bound) (hat : s.At mem file stop pix k) (hk : k < pix.length)
    (hbound : k < bound) : (s.readRun mem).Thrifty mem file bound := by
  by_cases hzero : s.currentRun = 0
  · have hptr : (s.readRun mem).rlePtr = s.rlePtr + 1 := by simp [Player.readRun, hzero]
    have htotal := hat.pixelsIn_eq hstream hk.le
    have hstart := hat.start_le
    intro n hn
    rw [hptr] at hn
    by_cases hlast : n = s.rlePtr - (file + 12)
    · rw [hlast, htotal, hzero]
      exact hbound
    · exact h n (by omega)
  · have hsame : s.readRun mem = s := if_neg hzero
    rwa [hsame]

theorem step_needed (sys : Syscalls W) (hstream : Stream mem file header stop P pix)
    (hinv : s.Inv mem file header stop P pix) (hneeded : s.Needed mem file P) :
    (step sys mem file header s).Needed mem file P := by
  have hnow := hinv.2
  unfold Needed at hneeded
  unfold step
  cases hpc : s.pc with
  | loop =>
      intro n hn
      simp at hn
  | frames =>
      simp only [hpc] at hneeded
      dsimp only
      split
      next =>
        intro n hn
        rw [Nat.succ_mul]
        exact (hneeded n hn).trans_le (Nat.le_add_right _ _)
      next => trivial
  | decode =>
      simp only [hpc] at hneeded hnow
      obtain ⟨hlt, hle, hat, -⟩ := hnow
      dsimp only
      rw [hstream.pixelsPerFrame_eq]
      split
      next hmore =>
        obtain ⟨hpc', hframe, -, -, -, -⟩ := readRun_fields mem s
        have hless : s.pixelsDrawn < P := by omega
        have hbound : s.currentFrame * P + s.pixelsDrawn < (s.currentFrame + 1) * P := by
          rw [Nat.succ_mul]
          omega
        have hread := hneeded.readRun hstream hat (hstream.pixel_lt hlt hless) hbound
        unfold Needed
        rw [drawRun_pc, hpc', hpc, drawRun_currentFrame, hframe]
        exact hread.congr rfl
      next => exact hneeded.congr rfl
  | draw =>
      simp only [hpc] at hneeded
      exact hneeded.congr rfl
  | wait =>
      simp only [hpc] at hneeded hnow
      dsimp only
      split
      · simp only [Needed]
        exact hneeded.congr rfl
      · simp only [Needed, hstream.nextFrame_eq hnow.1]
        exact hneeded.congr rfl

theorem run_needed (sys : Syscalls W) (hstream : Stream mem file header stop P pix) (world : W)
    (n : ℕ) : (run sys mem file header (start world) n).Needed mem file P := by
  induction n with
  | zero => trivial
  | succ n ih => exact step_needed sys hstream (run_inv sys hstream (start_inv world) n) ih

/-- Between frames the bytes consumed are the fewest that hold the frames decoded. -/
theorem consumed_isLeast (hstream : Stream mem file header stop P pix)
    (hinv : s.Inv mem file header stop P pix) (hneeded : s.Needed mem file P)
    (hpc : s.pc = .frames) :
    IsLeast {n | n ≤ stop - (file + 12) ∧ s.currentFrame * P ≤ pixelsIn mem file n}
      (s.rlePtr - (file + 12)) := by
  have hnow := hinv.2
  simp only [hpc] at hnow
  simp only [Needed, hpc] at hneeded
  obtain ⟨hle, hat⟩ := hnow
  have hstop := hat.le_stop
  have henough := hstream.enough
  have hframes := Nat.mul_le_mul_right P hle
  have htotal := hat.pixelsIn_eq hstream (hframes.trans henough)
  constructor
  · exact ⟨by omega, by omega⟩
  · rintro n ⟨-, hn⟩
    by_contra hless
    have := hneeded n (not_le.mp hless)
    omega

/-! ## Every frame is reached -/

/-- From the head of the loop over the frames, a frame is decoded and then drawn. -/
theorem exists_draw_of_frames (hstream : Stream mem file header stop P pix) (world : W) {n f : ℕ}
    (hpc : (run sys mem file header (start world) n).pc = .frames)
    (hframe : (run sys mem file header (start world) n).currentFrame = f)
    (hmore : f < header.totalFrames) :
    ∃ n', (run sys mem file header (start world) n').pc = .draw ∧
      (run sys mem file header (start world) n').currentFrame = f ∧
      (run sys mem file header (start world) n').startTime =
        (run sys mem file header (start world) n).startTime := by
  have hdecode : (run sys mem file header (start world) (n + 1)).pc = .decode ∧
      (run sys mem file header (start world) (n + 1)).currentFrame = f := by
    rw [run, step]
    simp only [hpc, hframe, if_pos hmore, and_self]
  obtain ⟨m, hdecoding, hdraw, hsame⟩ := exists_draw_of_decode sys hstream
    (run_inv sys hstream (start_inv world) (n + 1)) hdecode.1
  refine ⟨n + 1 + m, by rwa [run_add], by rw [run_add, hsame, hdecode.2], ?_⟩
  rw [run_add, run_startTime fun i hi => by rw [hdecoding i hi]; decide, run,
    step_startTime sys mem file header (by rw [hpc]; decide)]

theorem exists_frames (hstream : Stream mem file header stop P pix) (hticks : sys.Ticks)
    (world : W) {f : ℕ} (hf : f ≤ header.totalFrames) :
    ∃ n, (run sys mem file header (start world) n).pc = .frames ∧
      (run sys mem file header (start world) n).currentFrame = f ∧
      (run sys mem file header (start world) n).startTime = (sys.uptime world).1 := by
  induction f with
  | zero => exact ⟨1, rfl, rfl, rfl⟩
  | succ f ih =>
      obtain ⟨n, hpc, hframe, hstart⟩ := ih (by omega)
      obtain ⟨d, hdraw, hdrawn, hstart'⟩ :=
        exists_draw_of_frames hstream world hpc hframe (Nat.lt_of_succ_le hf)
      have hwait : (run sys mem file header (start world) (d + 1)).pc = .wait ∧
          (run sys mem file header (start world) (d + 1)).currentFrame = f := by
        rw [run, step]
        simp only [hdraw]
        exact ⟨trivial, hdrawn⟩
      obtain ⟨k, hk⟩ := hticks (run sys mem file header (start world) (d + 1)).world
        (run sys mem file header (start world) (d + 1)).expectedTime
        (run_expectedTime_lt (by simp [start]) _)
      obtain ⟨j, hwaiting, hframes, hnext⟩ := exists_frames_of_wait mem file header k hwait.1 hk
      rw [← run_add] at hframes hnext
      refine ⟨_, hframes, ?_, ?_⟩
      · rw [hnext, hwait.2]
        have := hstream.frames_lt
        unfold CInt.toU32
        omega
      · rw [run_add, run_startTime fun i hi => by rw [hwaiting i hi]; decide, run,
          step_startTime sys mem file header (by rw [hdraw]; decide), hstart', hstart]

/-- What playback does with a stream of `len` bytes, zero-length runs or not. -/
structure Decodes (sys : Syscalls W) (mem : Memory) (file : ℕ) (header : Header) (len P : ℕ)
    (world : W) : Prop where
  shown : ∀ n s, s = run sys mem file header (start world) n → s.pc = .draw →
    s.currentFrame < header.totalFrames ∧
    (∀ px < P, (expand (runsAt mem (file + 12) len))[s.currentFrame * P + px]? =
      some (pixelBit s.frameBuffer px)) ∧
    ∀ px, P ≤ px → px < 8 * ((P + 7) / 8) → pixelBit s.frameBuffer px = false
  in_bounds : ∀ n, ∀ k ∈ (run sys mem file header (start world) n).nextWrites mem header,
    k < (P + 7) / 8
  inner_ends : ∀ n, (run sys mem file header (start world) n).pc = .decode →
    ∃ m, (∀ i < m, (run sys mem file header (start world) (n + i)).pc = .decode) ∧
      (run sys mem file header (start world) (n + m)).pc = .draw
  consumed : ∀ n s, s = run sys mem file header (start world) n → s.pc = .frames →
    IsLeast {n | n ≤ len ∧ s.currentFrame * P ≤ pixelsIn mem file n} (s.rlePtr - (file + 12))
  reached : sys.Ticks → ∀ f ≤ header.totalFrames,
    ∃ n, (run sys mem file header (start world) n).pc = .frames ∧
      (run sys mem file header (start world) n).currentFrame = f

/-- Every stream with enough pixels is decoded frame by frame. -/
theorem decodes_stream (sys : Syscalls W) {len : ℕ} (hP : header.w * header.h = P)
    (hle : P ≤ 524288) (hframes : header.totalFrames < 2 ^ 32)
    (henough : header.totalFrames * P ≤ pixelsIn mem file len) (world : W) :
    Decodes sys mem file header len P world := by
  have hlen : file + 12 + len - (file + 12) = len := Nat.add_sub_cancel_left _ _
  have hstream : Stream mem file header (file + 12 + len) P
      (expand (runsAt mem (file + 12) len)) :=
    ⟨Nat.le_add_right _ _, by rw [hlen], by rwa [length_expand], hframes,
      Header.pixelsPerFrame_eq hP (by omega), Header.bytesPerFrame_eq hP (by omega)⟩
  have hinv := run_inv sys hstream (start_inv world)
  constructor
  · rintro n s rfl hpc
    have hnow := (hinv n).2
    simp only [hpc] at hnow
    obtain ⟨hlt, -, hshows⟩ := hnow
    refine ⟨hlt, ?_, ?_⟩
    · intro px hpx
      have hpixel := hstream.pixel_lt hlt hpx
      rw [hshows px (by omega), decide_eq_true hpx, Bool.true_and, List.getD_eq_getElem _ _ hpixel,
        List.getElem?_eq_getElem hpixel]
    · intro px hge hpx
      rw [hshows px hpx, decide_eq_false (by omega), Bool.false_and]
  · exact fun n k hk =>
      nextWrites_lt hstream.pixelsPerFrame_eq hstream.bytesPerFrame_eq hk
  · intro n hpc
    obtain ⟨m, hbefore, hdraw, -⟩ := exists_draw_of_decode sys hstream (hinv n) hpc
    refine ⟨m, ?_, by rwa [run_add]⟩
    intro i hi
    rw [run_add]
    exact hbefore i hi
  · rintro n s rfl hpc
    have hleast := consumed_isLeast hstream (hinv n) (run_needed sys hstream world n) hpc
    rwa [hlen] at hleast
  · intro hticks f hf
    obtain ⟨n, hpc, hframe, -⟩ := exists_frames hstream hticks world hf
    exact ⟨n, hpc, hframe⟩

/-- Two frames of two pixels from the runs `0`, `3 × white`, `0` and `5 × black`. -/
theorem decodes_four_runs :
    Decodes (⟨fun t => (t, t), fun t _ _ _ => t, fun t => t + 1⟩ : Syscalls ℕ)
      (fun a => if a = 13 then 0x83 else if a = 15 then 5 else 0) 0 ⟨2, 1, 2⟩ 4 2 0 :=
  decodes_stream _ rfl (by decide) (by decide) (by decide) 0

end Player

end BadOS.Video
