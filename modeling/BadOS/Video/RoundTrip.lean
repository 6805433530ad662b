import BadOS.Video.Converter
import BadOS.Video.Progress

/-! # From the converter to the frame buffer

The file the converter writes is a stream of exactly its frames' pixels, so the
player shows the encoder's black and white frames.
-/

namespace BadOS.Video

open RunLength

/-- A video within the limits of the format and of the player's frame buffer. -/
structure Converter.Playable (conv : Converter) : Prop where
  width_pos : 1 ≤ conv.width
  height_pos : 1 ≤ conv.height
  width_le : conv.width ≤ 65535
  height_le : conv.height ≤ 65535
  area_le : conv.width * conv.height ≤ 524288
  frame_length : ∀ frame ∈ conv.frames, frame.length = conv.width * conv.height * 3
  frames_lt : conv.frames.length < 2 ^ 32

/-- The sum of the three channels of a pixel. -/
def brightness (frame : List UInt8) (px : ℕ) : ℕ :=
  (frame.getD (px * 3) 0).toNat + (frame.getD (px * 3 + 1) 0).toNat +
    (frame.getD (px * 3 + 2) 0).toNat

/-- The buffer holds the black and white picture of `frame`, padded with zeros. -/
def Converter.ShowsFrame (conv : Converter) (frame : List UInt8) (buf : ℕ → UInt8) : Prop :=
  (∀ px < conv.width * conv.height, pixelBit buf px = true ↔ 384 ≤ brightness frame px) ∧
    ∀ px, conv.width * conv.height ≤ px → pixelBit buf px = false

/-- The header the player reads from a converted file. -/
def Converter.header (conv : Converter) : Header :=
  ⟨conv.width, conv.height, conv.frames.length⟩

namespace Converter

variable {conv : Converter}

theorem Playable.isBright_iff (hconv : conv.Playable) {frame : List UInt8}
    (hframe : frame ∈ conv.frames) {px : ℕ} (hpx : px < conv.width * conv.height) :
    isBright frame px = true ↔ 384 ≤ brightness frame px := by
  have hlen := hconv.frame_length frame hframe
  rw [Video.isBright_iff (by omega), brightness, List.getD_eq_getElem _ _ (by omega),
    List.getD_eq_getElem _ _ (by omega), List.getD_eq_getElem _ _ (by omega)]

/-- Pixel `px` of frame `f` in the encoding order. -/
theorem getD_flatMap_blocks {frames : List (List UInt8)} {n f px : ℕ} {frame : List UInt8}
    (hf : frames[f]? = some frame) (hpx : px < n) :
    (frames.flatMap fun g => (List.range n).map (isBright g)).getD (f * n + px) false =
      isBright frame px := by
  induction frames generalizing f with
  | nil => simp at hf
  | cons first rest ih =>
      rw [List.flatMap_cons, List.getD_eq_getElem?_getD]
      cases f with
      | zero =>
          obtain rfl : first = frame := by simpa using hf
          rw [Nat.zero_mul, Nat.zero_add, List.getElem?_append_left (by simpa using hpx)]
          simp [hpx]
      | succ f =>
          rw [List.getElem?_append_right
            (by rw [List.length_map, List.length_range, Nat.succ_mul]; omega),
            List.length_map, List.length_range,
            show (f + 1) * n + px - n = f * n + px by rw [Nat.succ_mul]; omega,
            ← List.getD_eq_getElem?_getD]
          exact ih (by simpa using hf)

theorem getD_pixels {f px : ℕ} {frame : List UInt8} (hf : conv.frames[f]? = some frame)
    (hpx : px < conv.width * conv.height) :
    conv.pixels.getD (f * (conv.width * conv.height) + px) false = isBright frame px :=
  getD_flatMap_blocks hf hpx

/-- A buffer with the stream's pixels of frame `f` shows that frame. -/
theorem Playable.showsFrame (hconv : conv.Playable) {f : ℕ} (hf : f < conv.frames.length)
    {buf : ℕ → UInt8}
    (hbits : ∀ px < 8 * ((conv.width * conv.height + 7) / 8), pixelBit buf px =
      (decide (px < conv.width * conv.height) &&
        conv.pixels.getD (f * (conv.width * conv.height) + px) false))
    (hzero : ∀ k, (conv.width * conv.height + 7) / 8 ≤ k → buf k = 0) :
    ∃ frame, conv.frames[f]? = some frame ∧ conv.ShowsFrame frame buf := by
  refine ⟨conv.frames[f], List.getElem?_eq_getElem hf, ?_, ?_⟩
  · intro px hpx
    rw [hbits px (by omega), decide_eq_true hpx, Bool.true_and,
      getD_pixels (List.getElem?_eq_getElem hf) hpx]
    exact hconv.isBright_iff (List.getElem_mem hf) hpx
  · intro px hpx
    by_cases hin : px < 8 * ((conv.width * conv.height + 7) / 8)
    · rw [hbits px hin, decide_eq_false (by omega), Bool.false_and]
    · simp [pixelBit, hzero (px / 8) (by omega)]

/-! ## The player reads the header back -/

theorem or_shiftLeft_eq_add {a k : ℕ} (b : ℕ) (ha : a < 2 ^ k) :
    a ||| (b <<< k) = a + b * 2 ^ k := by
  rw [Nat.lor_comm, ← Nat.shiftLeft_add_eq_or_of_lt ha, Nat.shiftLeft_eq, Nat.add_comm]

theorem or_bytes_eq_add {a b c : ℕ} (d : ℕ) (ha : a < 256) (hb : b < 256) (hc : c < 256) :
    a ||| (b <<< 8) ||| (c <<< 16) ||| (d <<< 24) = a + b * 2 ^ 8 + c * 2 ^ 16 + d * 2 ^ 24 := by
  have hab := or_shiftLeft_eq_add b (show a < 2 ^ 8 by omega)
  have habc := or_shiftLeft_eq_add c (show a + b * 2 ^ 8 < 2 ^ 16 by omega)
  rw [hab, habc]
  exact or_shiftLeft_eq_add d (by omega)

theorem toNat_ofNat (v : ℕ) : (UInt8.ofNat v).toNat = v % 256 := UInt8.toNat_ofNat'

/-- The bytes of the file, as the player's memory shows them. -/
def FileAt (mem : Memory) (file : ℕ) (bytes : List UInt8) : Prop :=
  ∀ i (hi : i < bytes.length), mem (file + i) = bytes[i]

theorem readHeader_eq (hconv : conv.Playable) {mem : Memory} {file : ℕ} {uninit : ℕ → UInt8}
    {bytes : List UInt8} (hbytes : conv.process uninit = some bytes)
    (hfile : FileAt mem file bytes) : readHeader mem file = conv.header := by
  rw [process_eq conv uninit hconv.width_le hconv.height_le hconv.frames_lt] at hbytes
  have hget : ∀ k < 12, mem (file + k) =
      [0x42, 0x41, 0x44, 0, UInt8.ofNat conv.width, UInt8.ofNat (conv.width / 256),
        UInt8.ofNat conv.height, UInt8.ofNat (conv.height / 256),
        UInt8.ofNat conv.frames.length, UInt8.ofNat (conv.frames.length / 256),
        UInt8.ofNat (conv.frames.length / 256 ^ 2),
        UInt8.ofNat (conv.frames.length / 256 ^ 3)].getD k 0 := by
    intro k hk
    obtain rfl := Option.some.inj hbytes
    rw [hfile k (by simp; omega), List.getElem_append_left (by simpa using hk),
      List.getD_eq_getElem _ _ (by simpa using hk)]
  have hw := hconv.width_le
  have hh := hconv.height_le
  have hframes := hconv.frames_lt
  simp only [readHeader, header, Header.mk.injEq, hget 4 (by decide), hget 5 (by decide),
    hget 6 (by decide), hget 7 (by decide), hget 8 (by decide), hget 9 (by decide),
    hget 10 (by decide), hget 11 (by decide), List.getD_cons_succ, List.getD_cons_zero,
    toNat_ofNat]
  refine ⟨?_, ?_, ?_⟩
  · rw [or_shiftLeft_eq_add _ (by omega)]
    omega
  · rw [or_shiftLeft_eq_add _ (by omega)]
    omega
  · rw [or_bytes_eq_add _ (by omega) (by omega) (by omega)]
    omega

theorem findVideo_eq (hconv : conv.Playable) {mem : Memory} {file : ℕ} {uninit : ℕ → UInt8}
    {bytes : List UInt8} (hbytes : conv.process uninit = some bytes)
    (hfile : FileAt mem file bytes) : findVideo mem file = some file := by
  rw [process_eq conv uninit hconv.width_le hconv.height_le hconv.frames_lt] at hbytes
  obtain rfl := Option.some.inj hbytes
  have h0 := hfile 0 (by simp)
  have h1 := hfile 1 (by simp)
  have h2 := hfile 2 (by simp)
  have h3 := hfile 3 (by simp)
  simp only [List.cons_append, List.getElem_cons_zero, List.getElem_cons_succ] at h0 h1 h2 h3
  unfold findVideo
  rw [show (4096 : ℕ) = 4095 + 1 by rfl, List.range_succ_eq_map, List.find?_cons_of_pos]
  · rfl
  · simp only [decide_eq_true_eq]
    exact ⟨h0, h1, h2, h3⟩

theorem Playable.pixelsPerFrame_eq (hconv : conv.Playable) :
    conv.header.pixelsPerFrame = (conv.width * conv.height : ℕ) := by
  have harea := hconv.area_le
  exact Header.pixelsPerFrame_eq rfl (by omega)

theorem Playable.bytesPerFrame_eq (hconv : conv.Playable) :
    conv.header.bytesPerFrame = ((conv.width * conv.height + 7) / 8 : ℕ) := by
  have harea := hconv.area_le
  exact Header.bytesPerFrame_eq rfl (by omega)

theorem startup_eq (hconv : conv.Playable) {mem : Memory} {file : ℕ} {uninit : ℕ → UInt8}
    {bytes : List UInt8} (hbytes : conv.process uninit = some bytes)
    (hfile : FileAt mem file bytes) : startup mem file = .playing file conv.header := by
  have harea := hconv.area_le
  have hsmall : ¬ maxFrameBytes < conv.header.bytesPerFrame := by
    rw [hconv.bytesPerFrame_eq, maxFrameBytes]
    omega
  have hfind := findVideo_eq hconv hbytes hfile
  have hread := readHeader_eq hconv hbytes hfile
  unfold startup
  rw [hfind]
  dsimp only
  rw [hread, if_neg hsmall]

/-! ## The converted file as a stream -/

theorem rleBytes_at (hconv : conv.Playable) {mem : Memory} {file : ℕ} {uninit : ℕ → UInt8}
    {bytes : List UInt8} (hbytes : conv.process uninit = some bytes)
    (hfile : FileAt mem file bytes) :
    bytes.length = 12 + (conv.rleBytes uninit).length ∧
      FileAt mem (file + 12) (conv.rleBytes uninit) := by
  rw [process_eq conv uninit hconv.width_le hconv.height_le hconv.frames_lt] at hbytes
  obtain rfl := Option.some.inj hbytes
  refine ⟨by simp; omega, ?_⟩
  intro i hi
  have hget := hfile (12 + i) (by simp; omega)
  rw [List.getElem_append_right (by simp)] at hget
  rw [Nat.add_assoc, hget]
  simp

theorem stream (hconv : conv.Playable) {mem : Memory} {file : ℕ} {uninit : ℕ → UInt8}
    {bytes : List UInt8} (hbytes : conv.process uninit = some bytes)
    (hfile : FileAt mem file bytes) :
    Stream mem file conv.header (file + bytes.length) (conv.width * conv.height) conv.pixels := by
  obtain ⟨hlen, hrle⟩ := rleBytes_at hconv hbytes hfile
  obtain ⟨-, -, -, hexpand⟩ := conv.encode_spec uninit
  have hframes : conv.header.totalFrames = conv.frames.length := rfl
  refine ⟨by omega, ?_, ?_, ?_, hconv.pixelsPerFrame_eq, hconv.bytesPerFrame_eq⟩
  rotate_left
  · rw [hframes, conv.length_pixels]
  · rw [hframes]
    exact hconv.frames_lt
  rw [show file + bytes.length - (file + 12) = (conv.rleBytes uninit).length by omega,
    runsAt_eq_map hrle, hexpand]

/-- At each `draw_frame` the buffer holds the picture of the current frame. -/
theorem shows_of_draw {W : Type*} (hconv : conv.Playable) {mem : Memory} {file : ℕ}
    {uninit : ℕ → UInt8} {bytes : List UInt8} (hbytes : conv.process uninit = some bytes)
    (hfile : FileAt mem file bytes) {sys : Syscalls W} {world : W} {n : ℕ} {s : Player W}
    (hs : s = Player.run sys mem file conv.header (Player.start world) n) (hpc : s.pc = .draw) :
    ∃ frame, conv.frames[s.currentFrame]? = some frame ∧ conv.ShowsFrame frame s.frameBuffer := by
  obtain ⟨huntouched, hnow⟩ :=
    Player.run_inv sys (stream hconv hbytes hfile) (Player.start_inv world) n
  rw [← hs, hpc] at hnow
  rw [← hs] at huntouched
  exact hconv.showsFrame hnow.1 hnow.2.2 huntouched

/-- No zero-length runs are left unread after the last frame. -/
theorem rlePtr_eq_stop {W : Type*} (hconv : conv.Playable) {mem : Memory} {file : ℕ}
    {uninit : ℕ → UInt8} {bytes : List UInt8} (hbytes : conv.process uninit = some bytes)
    (hfile : FileAt mem file bytes) {s : Player W}
    (hat : s.At mem file (file + bytes.length) conv.pixels
      (conv.frames.length * (conv.width * conv.height))) : s.rlePtr = file + bytes.length := by
  obtain ⟨hlen, hrle⟩ := rleBytes_at hconv hbytes hfile
  obtain ⟨-, -, hpos, -⟩ := conv.encode_spec uninit
  have hstart := hat.start_le
  have hstop := hat.le_stop
  have hpending := hat.pending_eq
  rw [List.drop_of_length_le conv.length_pixels.le, Player.pending, List.append_eq_nil_iff]
    at hpending
  have hnone := eq_nil_of_expand_eq_nil (fun run hrun => ?_) hpending.2
  · have hcount := congrArg List.length hnone
    rw [length_runsAt, List.length_nil] at hcount
    omega
  · obtain ⟨i, hi, rfl⟩ := mem_runsAt hrun
    have hget := hrle (s.rlePtr + i - (file + 12)) (by omega)
    rw [show file + 12 + (s.rlePtr + i - (file + 12)) = s.rlePtr + i by omega] at hget
    rw [hget]
    exact hpos _ (List.getElem_mem _)

end Converter

/-- Playing a converted file shows the encoder's frames: the header is read
back, every `draw_frame` is issued with the picture of its frame, each loop ends
with the decoder at the end of the file and never beyond it, every loop draws
the same sequence, and the encoder stays within its buffer. -/
theorem process_startup_roundTrip {W : Type*} (conv : Converter) (hconv : conv.Playable)
    (uninit : ℕ → UInt8) (sys : Syscalls W) (world : W) :
    ∃ bytes, conv.process uninit = some bytes ∧
      (conv.encode uninit).rleIndex ≤ conv.frames.length * (conv.width * conv.height) ∧
      ∀ (mem : Memory) (file : ℕ), (∀ i (hi : i < bytes.length), mem (file + i) = bytes[i]) →
        let run := Player.run sys mem file conv.header (Player.start world)
        let drawn := Player.drawn sys mem file conv.header (Player.start world)
        startup mem file = .playing file ⟨conv.width, conv.height, conv.frames.length⟩ ∧
        (∀ n, (run n).pc = .draw → ∃ frame, conv.frames[(run n).currentFrame]? = some frame ∧
          conv.ShowsFrame frame (run n).frameBuffer) ∧
        (∀ n, (run n).pc = .frames → (run n).currentFrame = conv.frames.length →
          (run n).rlePtr = file + bytes.length) ∧
        (∀ n a, (run n).nextRead conv.header = some a →
          file + 12 ≤ a ∧ a < file + bytes.length) ∧
        (∀ n i buf, (drawn n)[i]? = some buf →
          ∃ frame, conv.frames[i % conv.frames.length]? = some frame ∧
            conv.ShowsFrame frame buf) ∧
        (sys.Ticks → 0 < conv.frames.length → ∀ k, ∃ n, k ≤ (drawn n).length) := by
  have hbytes := conv.process_eq uninit hconv.width_le hconv.height_le hconv.frames_lt
  refine ⟨_, hbytes, (conv.encode_spec uninit).1, ?_⟩
  intro mem file hfile
  have hstream := Converter.stream hconv hbytes hfile
  have hinv := fun n => Player.run_inv sys hstream
    (Player.start_inv world : (Player.start world).Inv mem file _ _ _ _) n
  refine ⟨Converter.startup_eq hconv hbytes hfile, ?_, ?_, ?_, ?_, ?_⟩
  · intro n hpc
    exact Converter.shows_of_draw hconv hbytes hfile rfl hpc
  · intro n hpc hlast
    obtain ⟨-, hnow⟩ := hinv n
    rw [hpc] at hnow
    obtain ⟨-, hat⟩ := hnow
    rw [hlast] at hat
    exact Converter.rlePtr_eq_stop hconv hbytes hfile hat
  · intro n a hread
    obtain ⟨-, hnow⟩ := hinv n
    unfold Player.nextRead at hread
    split at hread
    next hcond =>
      obtain ⟨hpc, hmore, hzero⟩ := hcond
      rw [hpc] at hnow
      obtain ⟨hlt, -, hat, -⟩ := hnow
      rw [hconv.pixelsPerFrame_eq] at hmore
      obtain rfl := Option.some.inj hread
      exact ⟨hat.start_le, hat.lt_stop (hstream.pixel_lt hlt (by omega)) hzero⟩
    next => cases hread
  · intro n i buf hbuf
    obtain ⟨hlt, hbits, hzero⟩ :=
      Player.drawn_shows sys hstream (Player.start_inv world) rfl n i buf hbuf
    exact hconv.showsFrame hlt hbits hzero
  · intro hticks hframes k
    exact Player.exists_length_drawn hstream hticks hframes (Player.start_inv world)
      (Nat.two_pow_pos 64) k

/-- One frame of a white and a black pixel. -/
def twoPixels : Converter := ⟨[[255, 255, 255, 0, 0, 0]], 2, 1⟩

/-- A world that is its own clock: every yield is one tick. -/
def tickingClock : Syscalls ℕ := ⟨fun t => (t, t), fun t _ _ _ => t, fun t => t + 1⟩

theorem tickingClock_ticks : tickingClock.Ticks := by
  intro world t _
  have hpoll : ∀ n, tickingClock.poll^[n] world = world + n := by
    intro n
    induction n with
    | zero => rfl
    | succ n ih =>
        rw [Function.iterate_succ_apply', ih]
        rfl
  refine ⟨t, ?_⟩
  rw [hpoll]
  exact Nat.le_add_left t world

/-- The two-pixel video is drawn over and over. -/
theorem twoPixels_roundTrip :
    ∃ bytes, twoPixels.process (fun _ => 0) = some bytes ∧
      startup (fun a => bytes.getD a 0) 0 = .playing 0 ⟨2, 1, 1⟩ ∧
      ∀ k, ∃ n, k ≤ (Player.drawn tickingClock (fun a => bytes.getD a 0) 0 twoPixels.header
        (Player.start 0) n).length := by
  obtain ⟨bytes, hbytes, -, hplay⟩ := process_startup_roundTrip twoPixels
    ⟨by decide, by decide, by decide, by decide, by decide, by decide, by decide⟩
    (fun _ => 0) tickingClock 0
  obtain ⟨hstart, -, -, -, -, hall⟩ := hplay (fun a => bytes.getD a 0) 0
    (fun i hi => by rw [Nat.zero_add, List.getD_eq_getElem _ _ hi])
  exact ⟨bytes, hbytes, hstart, hall tickingClock_ticks (by decide)⟩

end BadOS.Video
