import BadOS.Video.Playback

/-! # The player keeps drawing

Decoding a frame ends because every iteration consumes a byte or draws a pixel.
Waiting ends when yielding lets the clock pass any deadline, so every playback
loop draws all its frames in order and starts again.
-/

namespace BadOS.Video

variable {W : Type*}

/-- One iteration of the waiting loop on the outside world. -/
def Syscalls.poll (sys : Syscalls W) (world : W) : W := sys.yield (sys.uptime world).2

/-- Polling the clock long enough reaches any 64-bit time. -/
def Syscalls.Ticks (sys : Syscalls W) : Prop :=
  ∀ world t, t < 2 ^ 64 → ∃ n, t ≤ (sys.uptime (sys.poll^[n] world)).1

namespace Player

variable {sys : Syscalls W} {mem : Memory} {file stop P : ℕ} {header : Header} {pix : List Bool}
variable {s : Player W}

theorem run_add (m n : ℕ) :
    run sys mem file header s (m + n) =
      run sys mem file header (run sys mem file header s m) n := by
  induction n with
  | zero => rfl
  | succ n ih => rw [Nat.add_succ, run, run, ih]

theorem run_succ' (n : ℕ) :
    run sys mem file header s (n + 1) =
      run sys mem file header (step sys mem file header s) n := by
  rw [Nat.add_comm, run_add]
  rfl

theorem step_decode (sys : Syscalls W) (mem : Memory) (file : ℕ) (hpc : s.pc = .decode)
    (hmore : (s.pixelsDrawn : ℤ) < header.pixelsPerFrame) :
    step sys mem file header s = (s.readRun mem).drawRun header.pixelsPerFrame := by
  simp only [step, hpc, if_pos hmore]

theorem run_zero_pc {pc : Pc} (hpc : s.pc = pc) :
    ∀ i < 1, (run sys mem file header s i).pc = pc := by
  intro i hi
  rw [Nat.lt_one_iff.mp hi]
  exact hpc

/-- The start time changes only where a playback loop begins. -/
theorem step_startTime (sys : Syscalls W) (mem : Memory) (file : ℕ) (header : Header)
    (hpc : s.pc ≠ .loop) : (step sys mem file header s).startTime = s.startTime := by
  unfold step
  cases hs : s.pc with
  | loop => exact absurd hs hpc
  | frames => dsimp only; split <;> rfl
  | decode =>
      dsimp only
      split
      · unfold drawRun readRun
        dsimp only
        split <;> rfl
      · rfl
  | draw => rfl
  | wait => dsimp only; split <;> rfl

theorem run_startTime {n : ℕ} (hpc : ∀ i < n, (run sys mem file header s i).pc ≠ .loop) :
    (run sys mem file header s n).startTime = s.startTime := by
  induction n with
  | zero => rfl
  | succ n ih =>
      rw [run, step_startTime sys mem file header (hpc n (Nat.lt_succ_self n))]
      exact ih fun i hi => hpc i (Nat.lt_succ_of_lt hi)

/-- The pixels and bytes left bound the iterations of the decode loop. -/
theorem exists_draw_of_decode (sys : Syscalls W) (hstream : Stream mem file header stop P pix)
    (hinv : s.Inv mem file header stop P pix) (hpc : s.pc = .decode) :
    ∃ n, (∀ i < n, (run sys mem file header s i).pc = .decode) ∧
      (run sys mem file header s n).pc = .draw ∧
      (run sys mem file header s n).currentFrame = s.currentFrame := by
  generalize hleft : (P - s.pixelsDrawn) + (stop - s.rlePtr) = left
  induction left using Nat.strong_induction_on generalizing s with
  | _ left ih =>
      by_cases hmore : (s.pixelsDrawn : ℤ) < header.pixelsPerFrame
      · have hstep := step_decode sys mem file hpc hmore
        have hinv' := step_inv sys hstream hinv
        obtain ⟨hpc', hframe, hdrawn, -, -, hptr⟩ := readRun_fields mem s
        have htoDraw := toDraw_natCast P (s.readRun mem)
        have hnext : (step sys mem file header s).pixelsDrawn =
            s.pixelsDrawn + (s.readRun mem).toDraw P := by
          rw [hstep, hstream.pixelsPerFrame_eq, drawRun_pixelsDrawn, hdrawn]
        have hnextPtr : (step sys mem file header s).rlePtr = (s.readRun mem).rlePtr := by
          rw [hstep, drawRun_rlePtr]
        have hnextPc : (step sys mem file header s).pc = .decode := by
          rw [hstep, drawRun_pc, hpc', hpc]
        have hnextFrame : (step sys mem file header s).currentFrame = s.currentFrame := by
          rw [hstep, drawRun_currentFrame, hframe]
        have hle : (step sys mem file header s).rlePtr ≤ stop := by
          have hat := hinv'.2
          rw [hnextPc] at hat
          exact hat.2.2.1.le_stop
        -- An iteration draws a pixel or, of an empty run, consumes a byte.
        have hlt : (P - (step sys mem file header s).pixelsDrawn) +
            (stop - (step sys mem file header s).rlePtr) < left := by
          rw [hstream.pixelsPerFrame_eq] at hmore
          rcases readRun_run_pos_or mem s with hpos | hread
          · have hsame : s.readRun mem = s := by
              unfold Player.readRun
              rw [if_neg (by omega)]
            rw [hsame] at htoDraw hnext hnextPtr
            omega
          · omega
        obtain ⟨n, hbefore, hdraw, hsame⟩ := ih _ hlt hinv' hnextPc rfl
        refine ⟨n + 1, ?_, by rwa [run_succ'], by rwa [run_succ', ← hnextFrame]⟩
        intro i hi
        cases i with
        | zero => exact hpc
        | succ i =>
            rw [run_succ']
            exact hbefore i (by omega)
      · have hstep : step sys mem file header s = { s with pc := .draw } := by
          simp only [step, hpc, if_neg hmore]
        refine ⟨1, run_zero_pc hpc, ?_, ?_⟩
        · change (step sys mem file header s).pc = .draw
          rw [hstep]
        · change (step sys mem file header s).currentFrame = s.currentFrame
          rw [hstep]

theorem exists_frames_of_wait (mem : Memory) (file : ℕ) (header : Header) (n : ℕ)
    (hpc : s.pc = .wait) (htime : s.expectedTime ≤ (sys.uptime (sys.poll^[n] s.world)).1) :
    ∃ k, (∀ i < k, (run sys mem file header s i).pc = .wait) ∧
      (run sys mem file header s k).pc = .frames ∧
      (run sys mem file header s k).currentFrame = CInt.toU32 (s.currentFrame + 1) := by
  induction n generalizing s with
  | zero =>
      have hpast : ¬ (sys.uptime s.world).1 < s.expectedTime := Nat.not_lt.mpr htime
      exact ⟨1, run_zero_pc hpc, by simp only [run, step, hpc, if_neg hpast], by
        simp only [run, step, hpc, if_neg hpast]⟩
  | succ n ih =>
      by_cases hpast : (sys.uptime s.world).1 < s.expectedTime
      · have hstep : step sys mem file header s = { s with world := sys.poll s.world } := by
          simp only [step, hpc, if_pos hpast]
          rfl
        have htime' : (step sys mem file header s).expectedTime ≤
            (sys.uptime (sys.poll^[n] (step sys mem file header s).world)).1 := by
          rw [hstep]
          exact htime
        obtain ⟨k, hbefore, hk, hframe⟩ := ih (by rw [hstep]; exact hpc) htime'
        refine ⟨k + 1, ?_, by rw [run_succ']; exact hk, by rw [run_succ', hframe, hstep]⟩
        intro i hi
        cases i with
        | zero => exact hpc
        | succ i =>
            rw [run_succ']
            exact hbefore i (by omega)
      · exact ⟨1, run_zero_pc hpc, by simp only [run, step, hpc, if_neg hpast], by
          simp only [run, step, hpc, if_neg hpast]⟩

theorem run_expectedTime_lt (h : s.expectedTime < 2 ^ 64) (n : ℕ) :
    (run sys mem file header s n).expectedTime < 2 ^ 64 := by
  induction n with
  | zero => exact h
  | succ n ih =>
      rw [run]
      generalize run sys mem file header s n = s' at ih
      unfold step
      cases s'.pc with
      | loop => exact ih
      | frames => dsimp only; split <;> exact ih
      | decode =>
          dsimp only
          split
          · obtain ⟨-, -, -, -, htime, -⟩ := readRun_fields mem s'
            rw [drawRun_expectedTime, htime]
            exact ih
          · exact ih
      | draw =>
          dsimp only
          exact CInt.toU64_lt _
      | wait => dsimp only; split <;> exact ih

theorem exists_draw_of_loop (sys : Syscalls W) (hstream : Stream mem file header stop P pix)
    (hframes : 0 < header.totalFrames) (hinv : s.Inv mem file header stop P pix)
    (hpc : s.pc = .loop) : ∃ n, (run sys mem file header s n).pc = .draw := by
  have hdecode : (run sys mem file header s 2).pc = .decode := by
    rw [run, run, run]
    simp only [step, hpc, if_pos hframes]
  obtain ⟨n, -, hn, -⟩ := exists_draw_of_decode sys hstream (run_inv sys hstream hinv 2) hdecode
  exact ⟨2 + n, by rw [run_add]; exact hn⟩

/-- From every state the invariant allows, the player goes on to draw a frame. -/
theorem exists_draw (hstream : Stream mem file header stop P pix) (hticks : sys.Ticks)
    (hframes : 0 < header.totalFrames) (hinv : s.Inv mem file header stop P pix)
    (htime : s.expectedTime < 2 ^ 64) : ∃ n, (run sys mem file header s n).pc = .draw := by
  have of_decode : ∀ k, (run sys mem file header s k).pc = .decode →
      ∃ n, (run sys mem file header s n).pc = .draw := by
    intro k hpc
    obtain ⟨n, -, hn, -⟩ := exists_draw_of_decode sys hstream (run_inv sys hstream hinv k) hpc
    exact ⟨k + n, by rw [run_add]; exact hn⟩
  have of_loop : ∀ k, (run sys mem file header s k).pc = .loop →
      ∃ n, (run sys mem file header s n).pc = .draw := by
    intro k hpc
    obtain ⟨n, hn⟩ := exists_draw_of_loop sys hstream hframes (run_inv sys hstream hinv k) hpc
    exact ⟨k + n, by rw [run_add]; exact hn⟩
  have of_frames : ∀ k, (run sys mem file header s k).pc = .frames →
      ∃ n, (run sys mem file header s n).pc = .draw := by
    intro k hpc
    by_cases hmore : (run sys mem file header s k).currentFrame < header.totalFrames
    · exact of_decode (k + 1) (by simp only [run, step, hpc, if_pos hmore])
    · exact of_loop (k + 1) (by simp only [run, step, hpc, if_neg hmore])
  have of_wait : s.pc = .wait → ∃ n, (run sys mem file header s n).pc = .draw := by
    intro hpc
    obtain ⟨n, hn⟩ := hticks s.world s.expectedTime htime
    obtain ⟨k, -, hk, -⟩ := exists_frames_of_wait mem file header n hpc hn
    exact of_frames k hk
  cases hpc : s.pc with
  | loop => exact of_loop 0 hpc
  | frames => exact of_frames 0 hpc
  | decode => exact of_decode 0 hpc
  | draw => exact ⟨0, hpc⟩
  | wait => exact of_wait hpc

/-! ## The frames drawn so far -/

theorem drawn_of_draw {n : ℕ} (hpc : (run sys mem file header s n).pc = .draw) :
    drawn sys mem file header s (n + 1) =
      drawn sys mem file header s n ++ [(run sys mem file header s n).frameBuffer] := by
  simp only [drawn, if_pos hpc]

theorem drawn_of_not_draw {n : ℕ} (hpc : (run sys mem file header s n).pc ≠ .draw) :
    drawn sys mem file header s (n + 1) = drawn sys mem file header s n := by
  simp only [drawn, if_neg hpc]

theorem length_drawn_mono (sys : Syscalls W) (mem : Memory) (file : ℕ) (header : Header)
    (s : Player W) {m n : ℕ} (h : m ≤ n) :
    (drawn sys mem file header s m).length ≤ (drawn sys mem file header s n).length := by
  induction n, h using Nat.le_induction with
  | base => exact le_refl _
  | succ n _ ih =>
      refine ih.trans ?_
      by_cases hpc : (run sys mem file header s n).pc = .draw
      · rw [drawn_of_draw hpc, List.length_append]
        omega
      · rw [drawn_of_not_draw hpc]

/-- The number of frames drawn, modulo the frame count, is the frame the player
is about to draw. -/
def Counted (header : Header) (count : ℕ) (s : Player W) : Prop :=
  match s.pc with
  | .loop => count ≡ 0 [MOD header.totalFrames]
  | .wait => count ≡ s.currentFrame + 1 [MOD header.totalFrames]
  | _ => count ≡ s.currentFrame [MOD header.totalFrames]

theorem drawn_counted (sys : Syscalls W) (hstream : Stream mem file header stop P pix)
    (hinv : s.Inv mem file header stop P pix) (hloop : s.pc = .loop) (n : ℕ) :
    Counted header (drawn sys mem file header s n).length (run sys mem file header s n) := by
  induction n with
  | zero =>
      simp only [run, Counted, hloop]
      rfl
  | succ n ih =>
      have hnow := (run_inv sys hstream hinv n).2
      unfold Counted at ih ⊢
      cases hpc : (run sys mem file header s n).pc with
      | loop =>
          rw [drawn_of_not_draw (by simp [hpc])]
          simp only [run, step, hpc] at ih ⊢
          exact ih
      | frames =>
          rw [drawn_of_not_draw (by simp [hpc])]
          by_cases hmore : (run sys mem file header s n).currentFrame < header.totalFrames
          · simp only [run, step, hpc, if_pos hmore] at ih ⊢
            exact ih
          · simp only [hpc] at hnow
            -- The last frame is drawn: the count is a multiple of the frame count.
            have heq : (run sys mem file header s n).currentFrame = header.totalFrames := by
              omega
            simp only [run, step, hpc, if_neg hmore] at ih ⊢
            rw [heq] at ih
            exact ih.trans (by simp [Nat.ModEq])
      | decode =>
          rw [drawn_of_not_draw (by simp [hpc])]
          by_cases hmore : ((run sys mem file header s n).pixelsDrawn : ℤ) <
              header.pixelsPerFrame
          · obtain ⟨hpc', hframe, -⟩ := readRun_fields mem (run sys mem file header s n)
            rw [run, step_decode sys mem file hpc hmore, drawRun_pc, drawRun_currentFrame, hpc',
              hframe, hpc]
            simpa only [hpc] using ih
          · simp only [run, step, hpc, if_neg hmore] at ih ⊢
            exact ih
      | draw =>
          rw [drawn_of_draw hpc, List.length_append]
          simp only [run, step, hpc] at ih ⊢
          exact ih.add_right 1
      | wait =>
          rw [drawn_of_not_draw (by simp [hpc])]
          by_cases hpast : (sys.uptime (run sys mem file header s n).world).1 <
              (run sys mem file header s n).expectedTime
          · simp only [run, step, hpc, if_pos hpast] at ih ⊢
            exact ih
          · simp only [hpc] at hnow
            simp only [run, step, hpc, if_neg hpast, hstream.nextFrame_eq hnow.1] at ih ⊢
            exact ih

/-- The `i`-th frame drawn shows frame `i` modulo the frame count: every loop
draws the same frames in the same order. -/
theorem drawn_shows (sys : Syscalls W) (hstream : Stream mem file header stop P pix)
    (hinv : s.Inv mem file header stop P pix) (hloop : s.pc = .loop) (n : ℕ) :
    ∀ i buf, (drawn sys mem file header s n)[i]? = some buf →
      i % header.totalFrames < header.totalFrames ∧
      (∀ px < 8 * ((P + 7) / 8), pixelBit buf px =
        (decide (px < P) && pix.getD (i % header.totalFrames * P + px) false)) ∧
      ∀ k, (P + 7) / 8 ≤ k → buf k = 0 := by
  induction n with
  | zero =>
      intro i buf hbuf
      simp [drawn] at hbuf
  | succ n ih =>
      by_cases hpc : (run sys mem file header s n).pc = .draw
      · have hcount := drawn_counted sys hstream hinv hloop n
        obtain ⟨huntouched, hnow⟩ := run_inv sys hstream hinv n
        simp only [hpc] at hnow
        obtain ⟨hlt, -, hshows⟩ := hnow
        simp only [Counted, hpc] at hcount
        have hmod : (drawn sys mem file header s n).length % header.totalFrames =
            (run sys mem file header s n).currentFrame := by
          rw [hcount, Nat.mod_eq_of_lt hlt]
        intro i buf hbuf
        rw [drawn_of_draw hpc] at hbuf
        by_cases hold : i < (drawn sys mem file header s n).length
        · rw [List.getElem?_append_left hold] at hbuf
          exact ih i buf hbuf
        · rw [List.getElem?_append_right (by omega), List.getElem?_singleton] at hbuf
          split at hbuf
          next hzero =>
            rw [show i = (drawn sys mem file header s n).length by omega, hmod,
              ← Option.some.inj hbuf]
            exact ⟨hlt, hshows, huntouched⟩
          next => cases hbuf
      · intro i buf hbuf
        rw [drawn_of_not_draw hpc] at hbuf
        exact ih i buf hbuf

/-- Playback draws any number of frames when the clock runs. -/
theorem exists_length_drawn (hstream : Stream mem file header stop P pix) (hticks : sys.Ticks)
    (hframes : 0 < header.totalFrames) (hinv : s.Inv mem file header stop P pix)
    (htime : s.expectedTime < 2 ^ 64) (k : ℕ) :
    ∃ n, k ≤ (drawn sys mem file header s n).length := by
  induction k with
  | zero => exact ⟨0, Nat.zero_le _⟩
  | succ k ih =>
      obtain ⟨n, hn⟩ := ih
      obtain ⟨m, hm⟩ := exists_draw hstream hticks hframes (run_inv sys hstream hinv n)
        (run_expectedTime_lt htime n)
      rw [← run_add] at hm
      refine ⟨n + m + 1, ?_⟩
      have hmono := length_drawn_mono sys mem file header s (show n ≤ n + m by omega)
      rw [drawn_of_draw hm, List.length_append, List.length_singleton]
      omega

end Player

end BadOS.Video
