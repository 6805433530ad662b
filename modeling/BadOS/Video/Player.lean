import BadOS.Foundation.CInt
import BadOS.Foundation.Loop
import BadOS.Foundation.PackedBits
import BadOS.Video.Format

/-! # The video player

`_start` of the `init` program as a state machine. Each step is one test or one
iteration of a loop of the source, so a run of any length is a run of the
program, and loops that do not end are runs that never leave them.
-/

namespace BadOS.Video

/-- `MAX_FRAME_BYTES`. -/
def maxFrameBytes : ℤ := 65536

/-- The system calls the player makes, acting on the world outside it. -/
structure Syscalls (W : Type*) where
  uptime : W → ℕ × W
  drawFrame : W → (ℕ → UInt8) → ℕ → ℕ → W
  yield : W → W

/-! ## Start-up -/

structure Header where
  w : ℕ
  h : ℕ
  totalFrames : ℕ
deriving DecidableEq

namespace Header

/-- `int pixels_per_frame = w * h`. -/
def pixelsPerFrame (header : Header) : ℤ := CInt.toI32 (header.w * header.h)

/-- `int bytes_per_frame = ((w * h) + 7) / 8`. -/
def bytesPerFrame (header : Header) : ℤ :=
  (CInt.toI32 (CInt.toI32 (header.w * header.h) + 7)).tdiv 8

variable {header : Header} {P : ℕ}

theorem pixelsPerFrame_eq (hP : header.w * header.h = P) (hlt : P < 2 ^ 31) :
    header.pixelsPerFrame = P := by
  unfold pixelsPerFrame
  rw [← Nat.cast_mul, hP]
  exact CInt.toI32_natCast hlt

theorem bytesPerFrame_eq (hP : header.w * header.h = P) (hlt : P + 7 < 2 ^ 31) :
    header.bytesPerFrame = ((P + 7) / 8 : ℕ) := by
  have hpixels := pixelsPerFrame_eq hP (by omega)
  unfold pixelsPerFrame at hpixels
  unfold bytesPerFrame
  rw [hpixels, CInt.toI32_of_range (by omega) (by omega)]
  norm_cast

end Header

/-- The scan for `BAD\0` in the first page of the window. -/
def findVideo (mem : Memory) (window : ℕ) : Option ℕ :=
  ((List.range 4096).find? fun i =>
    mem (window + i) = 0x42 ∧ mem (window + i + 1) = 0x41 ∧
      mem (window + i + 2) = 0x44 ∧ mem (window + i + 3) = 0).map (window + ·)

def readHeader (mem : Memory) (file : ℕ) : Header :=
  let byte := fun k => (mem (file + k)).toNat
  { w := byte 4 ||| (byte 5 <<< 8)
    h := byte 6 ||| (byte 7 <<< 8)
    totalFrames := byte 8 ||| (byte 9 <<< 8) ||| (byte 10 <<< 16) ||| (byte 11 <<< 24) }

inductive Startup
  | aborted (message : String)
  | playing (file : ℕ) (header : Header)
deriving DecidableEq

def startup (mem : Memory) (window : ℕ) : Startup :=
  match findVideo mem window with
  | none => .aborted "Error: Invalid or missing video.bad!\n"
  | some file =>
      let header := readHeader mem file
      if maxFrameBytes < header.bytesPerFrame then
        .aborted "Error: Video resolution too large for frame_buffer!\n"
      else .playing file header

/-! ## Playback -/

/-- Where the program stands. -/
inductive Pc
  | loop
  | frames
  | decode
  | draw
  | wait
deriving DecidableEq

structure Player (W : Type*) where
  pc : Pc
  startTime : ℕ
  currentFrame : ℕ
  rlePtr : ℕ
  currentColor : ℕ
  currentRun : ℕ
  pixelsDrawn : ℕ
  expectedTime : ℕ
  frameBuffer : ℕ → UInt8
  world : W

/-- `frame_buffer[px / 8] |= (1 << (px % 8))`. -/
def setPixel (buf : ℕ → UInt8) (px : ℕ) : ℕ → UInt8 :=
  Function.update buf (px / 8) (buf (px / 8) ||| UInt8.ofNat (1 <<< (px % 8)))

/-- Bit `px % 8` of byte `px / 8`. -/
def pixelBit (buf : ℕ → UInt8) (px : ℕ) : Bool := (buf (px / 8)).toNat.testBit (px % 8)

namespace Player

variable {W : Type*}

/-- The playback loop is entered with a zeroed frame buffer. -/
def start (world : W) : Player W :=
  { pc := .loop, startTime := 0, currentFrame := 0, rlePtr := 0, currentColor := 0,
    currentRun := 0, pixelsDrawn := 0, expectedTime := 0, frameBuffer := fun _ => 0, world }

/-- Fetch the next run byte when the current run is used up. -/
def readRun (mem : Memory) (s : Player W) : Player W :=
  if s.currentRun = 0 then
    let b := (mem s.rlePtr).toNat
    { s with rlePtr := s.rlePtr + 1, currentColor := b >>> 7, currentRun := b &&& 0x7F }
  else s

/-- The part of the current run that fits into the frame. -/
def toDraw (pixelsPerFrame : ℤ) (s : Player W) : ℕ :=
  if pixelsPerFrame < s.pixelsDrawn + s.currentRun then
    (pixelsPerFrame - s.pixelsDrawn).toNat
  else s.currentRun

def drawRun (pixelsPerFrame : ℤ) (s : Player W) : Player W :=
  let toDraw := s.toDraw pixelsPerFrame
  { s with
    frameBuffer :=
      if s.currentColor = 1 then
        Loop.times toDraw (fun i buf => setPixel buf (s.pixelsDrawn + i)) s.frameBuffer
      else s.frameBuffer
    currentRun := CInt.toU8 (s.currentRun - toDraw)
    pixelsDrawn := s.pixelsDrawn + toDraw }

section Fields

variable (pixelsPerFrame : ℤ) (s : Player W)

@[simp] theorem drawRun_pc : (s.drawRun pixelsPerFrame).pc = s.pc := rfl

@[simp] theorem drawRun_currentFrame :
    (s.drawRun pixelsPerFrame).currentFrame = s.currentFrame := rfl

@[simp] theorem drawRun_rlePtr : (s.drawRun pixelsPerFrame).rlePtr = s.rlePtr := rfl

@[simp] theorem drawRun_pixelsDrawn :
    (s.drawRun pixelsPerFrame).pixelsDrawn = s.pixelsDrawn + s.toDraw pixelsPerFrame := rfl

@[simp] theorem drawRun_expectedTime :
    (s.drawRun pixelsPerFrame).expectedTime = s.expectedTime := rfl

end Fields

/-- The loop zeroing the frame's bytes. -/
def clearFrame (bytesPerFrame : ℤ) (buf : ℕ → UInt8) : ℕ → UInt8 :=
  Loop.times bytesPerFrame.toNat (fun i buf => Function.update buf i 0) buf

/-- `start_time + (current_frame * 1000 / 30)`, the product in 32 bits. -/
def deadline (s : Player W) : ℕ :=
  CInt.toU64 (s.startTime + CInt.toU32 (s.currentFrame * 1000) / 30)

def step (sys : Syscalls W) (mem : Memory) (file : ℕ) (header : Header) (s : Player W) :
    Player W :=
  match s.pc with
  | .loop =>
      let now := sys.uptime s.world
      { s with
        pc := .frames, startTime := now.1, currentFrame := 0, rlePtr := file + 12,
        currentColor := 0, currentRun := 0, world := now.2 }
  | .frames =>
      if s.currentFrame < header.totalFrames then
        { s with
          pc := .decode, frameBuffer := clearFrame header.bytesPerFrame s.frameBuffer,
          pixelsDrawn := 0 }
      else { s with pc := .loop }
  | .decode =>
      if (s.pixelsDrawn : ℤ) < header.pixelsPerFrame then
        (s.readRun mem).drawRun header.pixelsPerFrame
      else { s with pc := .draw }
  | .draw =>
      { s with
        pc := .wait, expectedTime := s.deadline,
        world := sys.drawFrame s.world s.frameBuffer header.w header.h }
  | .wait =>
      let now := sys.uptime s.world
      if now.1 < s.expectedTime then { s with world := sys.yield now.2 }
      else { s with pc := .frames, currentFrame := CInt.toU32 (s.currentFrame + 1), world := now.2 }

/-- The state after `n` steps. -/
def run (sys : Syscalls W) (mem : Memory) (file : ℕ) (header : Header) (s : Player W) :
    ℕ → Player W
  | 0 => s
  | n + 1 => step sys mem file header (run sys mem file header s n)

/-- The frames drawn in the first `n` steps, oldest first. -/
def drawn (sys : Syscalls W) (mem : Memory) (file : ℕ) (header : Header) (s : Player W) :
    ℕ → List (ℕ → UInt8)
  | 0 => []
  | n + 1 =>
      let now := run sys mem file header s n
      if now.pc = .draw then drawn sys mem file header s n ++ [now.frameBuffer]
      else drawn sys mem file header s n

/-- The stream address the next step reads, if it reads one. -/
def nextRead (header : Header) (s : Player W) : Option ℕ :=
  if s.pc = .decode ∧ (s.pixelsDrawn : ℤ) < header.pixelsPerFrame ∧ s.currentRun = 0 then
    some s.rlePtr
  else none

end Player

/-! ## Drawing into the frame buffer -/

theorem pixelBit_eq_bit (buf : ℕ → UInt8) (px : ℕ) :
    pixelBit buf px = PackedBits.bit 8 (fun k => (buf k).toNat) px := rfl

theorem pixelBit_setPixel (buf : ℕ → UInt8) (px q : ℕ) :
    pixelBit (setPixel buf px) q = (decide (q = px) || pixelBit buf q) := by
  rw [pixelBit_eq_bit, pixelBit_eq_bit]
  apply PackedBits.bit_set
  · have hlt : 2 ^ (px % 8) < 256 := by
      have : px % 8 < 8 := Nat.mod_lt _ (by decide)
      calc 2 ^ (px % 8) ≤ 2 ^ 7 := Nat.pow_le_pow_right (by decide) (by omega)
        _ < 256 := by decide
    simp only [setPixel, Function.update_self, UInt8.toNat_or, UInt8.toNat_ofNat',
      Nat.one_shiftLeft]
    rw [Nat.mod_eq_of_lt hlt]
  · intro k hk
    simp only [setPixel, Function.update_of_ne hk]

theorem pixelBit_setPixels (buf : ℕ → UInt8) (p n q : ℕ) :
    pixelBit (Loop.times n (fun i buf => setPixel buf (p + i)) buf) q =
      (decide (p ≤ q ∧ q < p + n) || pixelBit buf q) := by
  induction n with
  | zero =>
      have hempty : decide (p ≤ q ∧ q < p + 0) = false := decide_eq_false (by omega)
      rw [hempty, Bool.false_or, Loop.times_zero]
  | succ n ih =>
      rw [Loop.times_succ, pixelBit_setPixel, ih, ← Bool.or_assoc]
      congr 1
      rw [← Bool.decide_or]
      congr 1
      rw [eq_iff_iff]
      omega

theorem setPixels_outside (buf : ℕ → UInt8) (p n k : ℕ) (hk : (p + n + 7) / 8 ≤ k) :
    Loop.times n (fun i buf => setPixel buf (p + i)) buf k = buf k := by
  induction n with
  | zero => rfl
  | succ n ih =>
      rw [Loop.times_succ, setPixel, Function.update_of_ne (by omega)]
      exact ih (by omega)

theorem clearFrame_apply (buf : ℕ → UInt8) (n k : ℕ) :
    Player.clearFrame n buf k = if k < n then 0 else buf k := by
  unfold Player.clearFrame
  rw [Int.toNat_natCast]
  induction n with
  | zero => rfl
  | succ n ih =>
      rw [Loop.times_succ]
      by_cases hk : k = n
      · subst hk
        simp
      · rw [Function.update_of_ne hk, ih]
        have : k < n ↔ k < n + 1 := by omega
        simp only [this]

end BadOS.Video
