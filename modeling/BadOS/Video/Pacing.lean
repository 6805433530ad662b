import BadOS.Video.Decoding

/-! # Frame pacing

The player waits after a frame until a deadline computed from the frame number. The
product of the number and 1000 is a 32-bit number, so long videos run out of step.
-/

namespace BadOS.Video

open RunLength

/-- What the clock shows. -/
def Syscalls.now {W : Type*} (sys : Syscalls W) (world : W) : ℕ := (sys.uptime world).1

/-- The clock shows 64-bit times and never runs backwards. -/
structure Syscalls.Clock {W : Type*} (sys : Syscalls W) : Prop where
  now_lt : ∀ world, sys.now world < 2 ^ 64
  uptime_le : ∀ world, sys.now world ≤ sys.now (sys.uptime world).2
  drawFrame_le : ∀ world buf w h, sys.now world ≤ sys.now (sys.drawFrame world buf w h)
  yield_le : ∀ world, sys.now world ≤ sys.now (sys.yield world)

/-- The time frame `f + 1` is due, in milliseconds after the start. -/
def due (f : ℕ) : ℕ := f * 1000 / 30

namespace Player

variable {W : Type*}

/-- A frame is not drawn before it is due, and the deadlines are the times at which the
next frame is due. -/
structure Paced (sys : Syscalls W) (header : Header) (s : Player W) : Prop where
  draw : s.pc = .draw → ∀ f, s.currentFrame = f + 1 → s.startTime + due f ≤ sys.now s.world
  wait : s.pc = .wait → s.currentFrame + 1 < header.totalFrames →
    s.expectedTime = s.startTime + due s.currentFrame

end Player

/-- No product wraps around before the last frame but one, and no deadline does. -/
def Header.Punctual (header : Header) (startTime : ℕ) : Prop :=
  header.totalFrames ≤ 4294969 ∧ startTime + due (header.totalFrames - 2) < 2 ^ 64

theorem due_mono {f g : ℕ} (hle : f ≤ g) : due f ≤ due g := by
  unfold due
  omega

theorem Header.Punctual.due_lt {header : Header} {startTime f : ℕ}
    (hpunctual : header.Punctual startTime) (hf : f + 1 < header.totalFrames) :
    startTime + due f < 2 ^ 64 := by
  have hle : due f ≤ due (header.totalFrames - 2) := due_mono (by omega)
  exact (Nat.add_le_add_left hle startTime).trans_lt hpunctual.2

namespace Player

variable {W : Type*} {sys : Syscalls W} {mem : Memory} {file stop P startTime f : ℕ}
  {header : Header} {pix : List Bool} {s : Player W}

/-! ## Short videos -/

theorem deadline_eq (hpunctual : header.Punctual s.startTime)
    (hf : s.currentFrame + 1 < header.totalFrames) :
    s.deadline = s.startTime + due s.currentFrame := by
  have hshort := hpunctual.1
  have hlt := hpunctual.due_lt hf
  have hproduct : CInt.toU32 (s.currentFrame * 1000) = s.currentFrame * 1000 := by
    unfold CInt.toU32
    omega
  unfold due at hlt ⊢
  unfold deadline
  rw [hproduct]
  exact_mod_cast CInt.toU64_natCast hlt

/-- The frame about to be drawn is due. -/
def NotEarly (sys : Syscalls W) (header : Header) (s : Player W) : Prop :=
  ∀ f, s.currentFrame = f + 1 → f + 1 < header.totalFrames →
    s.startTime + due f ≤ sys.now s.world

/-- The invariant at each point of a punctual playback loop. -/
def PacedInv (sys : Syscalls W) (header : Header) (s : Player W) : Prop :=
  header.Punctual s.startTime →
  match s.pc with
  | .loop => True
  | .frames => s.currentFrame ≤ header.totalFrames ∧ s.NotEarly sys header
  | .decode => s.currentFrame < header.totalFrames ∧ s.NotEarly sys header
  | .draw => s.currentFrame < header.totalFrames ∧ s.NotEarly sys header
  | .wait => s.currentFrame < header.totalFrames ∧
      (s.currentFrame + 1 < header.totalFrames →
        s.expectedTime = s.startTime + due s.currentFrame)

theorem decode_world (sys : Syscalls W) (mem : Memory) (file : ℕ) (header : Header)
    (hpc : s.pc = .decode) : (step sys mem file header s).world = s.world := by
  simp only [step, hpc]
  split
  · unfold drawRun readRun
    dsimp only
    split <;> rfl
  · rfl

theorem step_pacedInv (mem : Memory) (file : ℕ) (hclock : sys.Clock)
    (hinv : s.PacedInv sys header) : (step sys mem file header s).PacedInv sys header := by
  unfold PacedInv at hinv
  cases hpc : s.pc with
  | loop =>
      simp only [step, hpc, PacedInv, NotEarly]
      exact fun _ => ⟨Nat.zero_le _, fun f hf => absurd hf (Nat.succ_ne_zero f).symm⟩
  | frames =>
      simp only [hpc] at hinv
      by_cases hmore : s.currentFrame < header.totalFrames
      · simp only [step, hpc, if_pos hmore, PacedInv]
        exact fun hpunctual => ⟨hmore, (hinv hpunctual).2⟩
      · simp only [step, hpc, if_neg hmore, PacedInv]
        exact fun _ => trivial
  | decode =>
      simp only [hpc] at hinv
      by_cases hmore : (s.pixelsDrawn : ℤ) < header.pixelsPerFrame
      · have hstart := step_startTime sys mem file header (s := s) (by rw [hpc]; decide)
        have hworld := decode_world sys mem file header hpc
        obtain ⟨hpc', hframe, -⟩ := readRun_fields mem s
        have hstep := step_decode sys mem file hpc hmore
        unfold PacedInv NotEarly at *
        rw [hstart, hworld, hstep, drawRun_pc, drawRun_currentFrame, hpc', hframe, hpc]
        exact hinv
      · simp only [step, hpc, if_neg hmore, PacedInv]
        exact hinv
  | draw =>
      simp only [hpc] at hinv
      simp only [step, hpc, PacedInv]
      exact fun hpunctual => ⟨(hinv hpunctual).1, fun hf => deadline_eq hpunctual hf⟩
  | wait =>
      simp only [hpc] at hinv
      by_cases hpast : (sys.uptime s.world).1 < s.expectedTime
      · simp only [step, hpc, if_pos hpast, PacedInv]
        exact hinv
      · simp only [step, hpc, if_neg hpast, PacedInv, NotEarly]
        intro hpunctual
        obtain ⟨hlt, hexpected⟩ := hinv hpunctual
        have hshort := hpunctual.1
        have hnext : CInt.toU32 (s.currentFrame + 1) = s.currentFrame + 1 := by
          unfold CInt.toU32
          omega
        rw [hnext]
        refine ⟨hlt, fun f hf hmore => ?_⟩
        obtain rfl : s.currentFrame = f := Nat.succ.inj hf
        -- The clock that was read past the deadline does not go back.
        have huptime := hclock.uptime_le s.world
        rw [← hexpected hmore]
        exact (not_lt.mp hpast).trans huptime

theorem run_pacedInv (mem : Memory) (file : ℕ) (hclock : sys.Clock) (world : W) (n : ℕ) :
    (run sys mem file header (start world) n).PacedInv sys header := by
  induction n with
  | zero => exact fun _ => trivial
  | succ n ih => exact step_pacedInv mem file hclock ih

theorem PacedInv.paced (hinv : s.PacedInv sys header) (hpunctual : header.Punctual s.startTime) :
    s.Paced sys header := by
  have hnow := hinv hpunctual
  constructor
  · intro hpc f hf
    simp only [hpc] at hnow
    exact hnow.2 f hf (hf ▸ hnow.1)
  · intro hpc
    simp only [hpc] at hnow
    exact hnow.2

/-! ## Long videos -/

/-- A 64-bit time. -/
def Instant : Type := { t : ℕ // t < 2 ^ 64 }

/-- A clock that moves on only while the player yields. -/
def ticking : Syscalls Instant where
  uptime t := (t.1, t)
  drawFrame t _ _ _ := t
  yield t := ⟨min (t.1 + 1) (2 ^ 64 - 1), by omega⟩

theorem ticking_clock : ticking.Clock where
  now_lt t := t.2
  uptime_le _ := le_rfl
  drawFrame_le _ _ _ _ := le_rfl
  yield_le t := by
    have hlt := t.2
    change t.1 ≤ min (t.1 + 1) (2 ^ 64 - 1)
    omega

theorem ticking_poll (n : ℕ) (t : Instant) :
    (ticking.poll^[n] t).1 = min (t.1 + n) (2 ^ 64 - 1) := by
  induction n with
  | zero =>
      have hlt := t.2
      change t.1 = _
      omega
  | succ n ih =>
      rw [Function.iterate_succ_apply']
      change min ((ticking.poll^[n] t).1 + 1) _ = _
      rw [ih]
      omega

theorem ticking_ticks : ticking.Ticks := by
  intro t time htime
  refine ⟨time, ?_⟩
  change time ≤ (ticking.poll^[time] t).1
  rw [ticking_poll]
  omega

/-- The deadlines stay within the first `2 ^ 32 / 30` milliseconds, and so does this clock. -/
def Behind (s : Player Instant) : Prop :=
  (s.pc = .wait → s.expectedTime ≤ s.startTime + 143165576) ∧
    (s.pc ≠ .loop → s.world.1 ≤ s.startTime + 143165576)

theorem deadline_le (s : Player Instant) : s.deadline ≤ s.startTime + 143165576 := by
  have hproduct : CInt.toU32 (s.currentFrame * 1000) / 30 ≤ 143165576 := by
    unfold CInt.toU32
    omega
  unfold deadline CInt.toU64
  omega

theorem step_behind (mem : Memory) (file : ℕ) (header : Header) {s : Player Instant}
    (hbehind : s.Behind) : (step ticking mem file header s).Behind := by
  obtain ⟨hexpected, hworld⟩ := hbehind
  cases hpc : s.pc with
  | loop =>
      simp only [step, hpc]
      exact ⟨fun h => absurd h (by simp), fun _ => Nat.le_add_right _ _⟩
  | frames =>
      have hnow := hworld (by rw [hpc]; decide)
      by_cases hmore : s.currentFrame < header.totalFrames
      · simp only [step, hpc, if_pos hmore]
        exact ⟨fun h => absurd h (by simp), fun _ => hnow⟩
      · simp only [step, hpc, if_neg hmore]
        exact ⟨fun h => absurd h (by simp), fun h => absurd rfl h⟩
  | decode =>
      have hnow := hworld (by rw [hpc]; decide)
      have hstart := step_startTime ticking mem file header (s := s) (by rw [hpc]; decide)
      have hsame := decode_world ticking mem file header hpc
      unfold Behind
      rw [hstart, hsame]
      refine ⟨fun h => ?_, fun _ => hnow⟩
      by_cases hmore : (s.pixelsDrawn : ℤ) < header.pixelsPerFrame
      · obtain ⟨hpc', -⟩ := readRun_fields mem s
        rw [step_decode ticking mem file hpc hmore, drawRun_pc, hpc', hpc] at h
        exact absurd h (by decide)
      · simp [step, hpc, hmore] at h
  | draw =>
      simp only [step, hpc]
      exact ⟨fun _ => deadline_le s, fun _ => hworld (by rw [hpc]; decide)⟩
  | wait =>
      have hnow := hworld (by rw [hpc]; decide)
      by_cases hpast : (ticking.uptime s.world).1 < s.expectedTime
      · have hle := hexpected hpc
        -- Yielding moves the clock by one millisecond, from below the deadline.
        have hyield : (ticking.yield s.world).1 ≤ s.startTime + 143165576 := by
          change s.world.1 < s.expectedTime at hpast
          change min (s.world.1 + 1) (2 ^ 64 - 1) ≤ _
          omega
        simp only [step, hpc, if_pos hpast]
        exact ⟨fun _ => hle, fun _ => hyield⟩
      · simp only [step, hpc, if_neg hpast]
        exact ⟨fun h => absurd h (by simp), fun _ => hnow⟩

theorem run_behind (mem : Memory) (file : ℕ) (header : Header) (world : Instant) (n : ℕ) :
    (run ticking mem file header (start world) n).Behind := by
  induction n with
  | zero => exact ⟨fun h => absurd h (by simp [run, start]), fun h => absurd rfl h⟩
  | succ n ih => exact step_behind mem file header ih

/-- Every frame of the first playback loop is drawn. -/
theorem exists_draw_frame (hstream : Stream mem file header stop P pix) (hticks : sys.Ticks)
    (world : W) (hf : f < header.totalFrames) :
    ∃ n, (run sys mem file header (start world) n).pc = .draw ∧
      (run sys mem file header (start world) n).currentFrame = f ∧
      (run sys mem file header (start world) n).startTime = sys.now world := by
  obtain ⟨n, hpc, hframe, hstart⟩ := exists_frames hstream hticks world hf.le
  obtain ⟨d, hdraw, hdrawn, hstart'⟩ := exists_draw_of_frames hstream world hpc hframe hf
  exact ⟨d, hdraw, hdrawn, hstart'.trans hstart⟩

theorem not_punctual (hstart : startTime < 2 ^ 64) (hnot : ¬ header.Punctual startTime) :
    ∃ f, f + 1 < header.totalFrames ∧
      (2 ^ 64 ≤ startTime + due f ∨ startTime + 143165576 < startTime + due f) := by
  unfold Header.Punctual at hnot
  by_cases hlong : header.totalFrames ≤ 4294969
  · have hlate : 2 ^ 64 ≤ startTime + due (header.totalFrames - 2) := by omega
    refine ⟨header.totalFrames - 2, ?_, .inl hlate⟩
    unfold due at hlate
    omega
  · refine ⟨4294968, by omega, .inr ?_⟩
    unfold due
    omega

/-- With this clock the player draws a frame of a long video too early. -/
theorem exists_early (hstream : Stream mem file header stop P pix) (world : Instant)
    (hnot : ¬ header.Punctual world.1) :
    ∃ n f, f + 1 < header.totalFrames ∧
      (run ticking mem file header (start world) n).pc = .draw ∧
      (run ticking mem file header (start world) n).currentFrame = f + 1 ∧
      (run ticking mem file header (start world) n).startTime = world.1 ∧
      ticking.now (run ticking mem file header (start world) n).world < world.1 + due f := by
  obtain ⟨f, hf, hlate⟩ := not_punctual world.2 hnot
  obtain ⟨n, hpc, hframe, hstart⟩ := exists_draw_frame hstream ticking_ticks world hf
  have hbehind := (run_behind mem file header world n).2 (by rw [hpc]; decide)
  rw [hstart] at hbehind
  have hlt := ticking_clock.now_lt (run ticking mem file header (start world) n).world
  refine ⟨n, f, hf, hpc, hframe, hstart, ?_⟩
  rcases hlate with hwrapped | hlong
  · exact hlt.trans_le hwrapped
  · exact lt_of_le_of_lt hbehind hlong

/-- The playback loops that start at `startTime` are paced, whatever the clock shows. -/
def AlwaysPaced (mem : Memory) (file : ℕ) (header : Header) (startTime : ℕ) : Prop :=
  ∀ (W : Type) (sys : Syscalls W), sys.Clock → ∀ world n,
    (run sys mem file header (start world) n).startTime = startTime →
      (run sys mem file header (start world) n).Paced sys header

/-- Playback is paced when no deadline wraps around, and only then if the stream has all
its frames. -/
theorem paced_iff (hstart : startTime < 2 ^ 64) :
    (header.Punctual startTime → ∀ mem file, AlwaysPaced mem file header startTime) ∧
      ∀ mem file stop P pix, Stream mem file header stop P pix →
        (AlwaysPaced mem file header startTime ↔ header.Punctual startTime) := by
  have henough : header.Punctual startTime → ∀ mem file,
      AlwaysPaced mem file header startTime := by
    rintro hpunctual mem file W sys hclock world n rfl
    exact (run_pacedInv mem file hclock world n).paced hpunctual
  refine ⟨henough, fun mem file stop P pix hstream => ⟨fun hpaced => ?_, fun h => henough h _ _⟩⟩
  by_contra hnot
  obtain ⟨n, f, -, hpc, hframe, htime, hearly⟩ := exists_early hstream ⟨startTime, hstart⟩ hnot
  have hdue := (hpaced Instant ticking ticking_clock _ n htime).draw hpc f hframe
  rw [htime] at hdue
  exact absurd hearly (not_lt.mpr hdue)

/-! ## A video of forty hours -/

/-- A file of 4294970 frames of one pixel, each a run of its own. -/
def longVideo : Memory := fun a =>
  [0x42, 0x41, 0x44, 0, 1, 0, 1, 0, 0x3A, 0x89, 0x41, 0].getD a 1

theorem longVideo_startup : startup longVideo 0 = .playing 0 ⟨1, 1, 4294970⟩ := by
  decide +kernel

theorem length_ones {mem : Memory} (hones : ∀ a ≥ 12, mem a = 1) (a n : ℕ) (ha : 12 ≤ a) :
    (expand (runsAt mem a n)).length = n := by
  induction n generalizing a with
  | zero => rfl
  | succ n ih =>
      rw [runsAt, expand_cons, List.length_append, ih (a + 1) (by omega), hones a ha,
        List.length_replicate]
      exact Nat.add_comm 1 n

/-- Runs of one black pixel each are a stream of frames of one pixel. -/
theorem ones_stream {mem : Memory} (hones : ∀ a ≥ 12, mem a = 1) {n : ℕ} (hn : n < 2 ^ 32) :
    Stream mem 0 ⟨1, 1, n⟩ (12 + n) 1 (expand (runsAt mem 12 n)) where
  start_le := Nat.le_add_right _ _
  pixels_eq := by rw [Nat.zero_add, Nat.add_sub_cancel_left]
  enough := by rw [length_ones hones 12 n le_rfl, Nat.mul_one]
  frames_lt := hn
  pixelsPerFrame_eq := Header.pixelsPerFrame_eq rfl (by decide)
  bytesPerFrame_eq := Header.bytesPerFrame_eq rfl (by decide)

theorem longVideo_stream : Stream longVideo 0 ⟨1, 1, 4294970⟩ (12 + 4294970) 1
    (expand (runsAt longVideo 12 4294970)) :=
  ones_stream (fun _ ha => List.getD_eq_default _ _ ha) (by decide)

/-- A file of 300 such frames. -/
def shortVideo : Memory := fun a =>
  [0x42, 0x41, 0x44, 0, 1, 0, 1, 0, 0x2C, 1, 0, 0].getD a 1

/-- The ten seconds of the short video are always paced, the forty hours of the long one
are not. -/
theorem shortVideo_paced_iff :
    startup shortVideo 0 = .playing 0 ⟨1, 1, 300⟩ ∧ AlwaysPaced shortVideo 0 ⟨1, 1, 300⟩ 0 ∧
      ¬ AlwaysPaced longVideo 0 ⟨1, 1, 4294970⟩ 0 := by
  have hshort : Stream shortVideo 0 ⟨1, 1, 300⟩ (12 + 300) 1 (expand (runsAt shortVideo 12 300)) :=
    ones_stream (fun _ ha => List.getD_eq_default _ _ ha) (by decide)
  have hpunctual : (⟨1, 1, 300⟩ : Header).Punctual 0 := ⟨by decide, by decide⟩
  have hlong : ¬ (⟨1, 1, 4294970⟩ : Header).Punctual 0 := fun h => absurd h.1 (by decide)
  have hzero : 0 < 2 ^ 64 := by decide
  exact ⟨by decide +kernel, ((paced_iff hzero).2 _ _ _ _ _ hshort).mpr hpunctual,
    ((paced_iff hzero).2 _ _ _ _ _ longVideo_stream).not.mpr hlong⟩

/-- The player draws a frame of the long video earlier than it is due. -/
theorem longVideo_early :
    startup longVideo 0 = .playing 0 ⟨1, 1, 4294970⟩ ∧ ticking.Clock ∧
      ∃ n f, f + 1 < 4294970 ∧
        (run ticking longVideo 0 ⟨1, 1, 4294970⟩ (start ⟨0, by decide⟩) n).pc = .draw ∧
        (run ticking longVideo 0 ⟨1, 1, 4294970⟩ (start ⟨0, by decide⟩) n).currentFrame = f + 1 ∧
        (run ticking longVideo 0 ⟨1, 1, 4294970⟩ (start ⟨0, by decide⟩) n).startTime = 0 ∧
        ticking.now (run ticking longVideo 0 ⟨1, 1, 4294970⟩ (start ⟨0, by decide⟩) n).world <
          0 + due f :=
  ⟨longVideo_startup, ticking_clock,
    exists_early longVideo_stream ⟨0, by decide⟩ fun h => absurd h.1 (by decide)⟩

end Player

end BadOS.Video
