import BadOS.Kernel.DrawRuns
import BadOS.Video.RoundTrip

/-! # The video on the screen

The converter, the player and the drawing system call together. The player packs
the pixels of a frame without gaps, the system call reads rows of `w / 8` bytes.
-/

namespace BadOS.Video

open Kernel Kernel.Display Execution

/-- A clock to read and to wait for. -/
structure Clock (T : Type*) where
  uptime : T → ℕ × T
  yield : T → T

/-- The world of the player. The display is gone once a call did not return. -/
structure Machine (T : Type*) where
  time : T
  display : Option Display

variable {T : Type*}

/-- The memory with `buf` in the `frame_buffer` at that address. -/
def setBuffer (frameBuffer : ℕ) (s : Display) (buf : ℕ → UInt8) : Display :=
  { s with mem := s.mem.blit frameBuffer buf 0 maxFrameBytes.toNat }

/-- `draw_frame(frame_buffer, w, h)`. Without memory for the back buffer the call
faults, as it clears it all the same. -/
def drawFrame (frameBuffer : ℕ) (s : Display) (buf : ℕ → UInt8) (w h : ℕ) : Option Display :=
  ((setBuffer frameBuffer s buf).drawFrame frameBuffer w h).filter fun s' =>
    s'.framebuffer = none ∨ s'.backbuffer ≠ 0

def Clock.syscalls (clock : Clock T) (frameBuffer : ℕ) : Syscalls (Machine T) where
  uptime world :=
    let now := clock.uptime world.time
    (now.1, { world with time := now.2 })
  drawFrame world buf w h :=
    { world with display := world.display.bind fun s => drawFrame frameBuffer s buf w h }
  yield world := { world with time := clock.yield world.time }

/-- The frame is in the centre of the screen, in black and white. -/
def Converter.OnScreen (conv : Converter) (fb : LimineFramebuffer) (m : Memory)
    (frame : List UInt8) : Prop :=
  ∀ x y : ℕ, x < conv.width → y < conv.height →
    pixelAt fb m (startX fb conv.width + x) (startY fb conv.height + y) =
      if 384 ≤ brightness frame (y * conv.width + x) then 0xFFFFFFFF else 0xFF000000

/-- Every `draw_frame` of a player that starts in `world` returns with its frame
on the screen. -/
def Converter.PlaysOnScreen (conv : Converter) (fb : LimineFramebuffer) (sys : Syscalls (Machine T))
    (mem : Memory) (file : ℕ) (world : Machine T) : Prop :=
  let run := Player.run sys mem file conv.header (Player.start world)
  ∀ n, (run n).pc = .draw → ∃ frame s, conv.frames[(run n).currentFrame]? = some frame ∧
    (run (n + 1)).world.display = some s ∧ conv.OnScreen fb s.mem frame

/-- The player's `frame_buffer` is memory of the program. -/
def BufferApart (fb : LimineFramebuffer) (frameBuffer : ℕ) : Prop :=
  ∀ k < maxFrameBytes.toNat, frameBuffer + k < 2 ^ 64 ∧
    ¬ InBuffer fb fb.address (frameBuffer + k) ∧ ¬ InHeap (frameBuffer + k)

/-- The display can serve a call. -/
structure Ready (fb : LimineFramebuffer) (s : Display) : Prop where
  inv : Inv fb s
  room : s.backbuffer = 0 → Kheap.HasRoom ⟨s.mem, s.freeList⟩ (fb.pitch * fb.height)

/-- The video fits on the screen. -/
structure Converter.FitsOn (conv : Converter) (fb : LimineFramebuffer) : Prop where
  width_le : conv.width ≤ fb.width
  height_le : conv.height ≤ fb.height

variable {conv : Converter} {fb : LimineFramebuffer} {s s' : Display} {frameBuffer : ℕ}
variable {buf : ℕ → UInt8} {frame : List UInt8}

/-! ## The frame in memory -/

section Frame

variable (hconv : conv.Playable) (hbuffer : BufferApart fb frameBuffer)

include hconv

theorem Converter.Playable.toI32_eq :
    CInt.toI32 conv.width = conv.width ∧ CInt.toI32 conv.height = conv.height := by
  have hw := hconv.width_le
  have hh := hconv.height_le
  exact ⟨CInt.toI32_natCast (by omega), CInt.toI32_natCast (by omega)⟩

/-- The bytes the system call reads lie in the frame buffer. -/
theorem Converter.Playable.byte_lt {y b : ℕ} (hy : y < conv.height) (hb : b < conv.width / 8) :
    y * (conv.width / 8) + b < maxFrameBytes.toNat := by
  have harea := hconv.area_le
  have hrow := Nat.mul_le_mul_right (conv.width / 8) (Nat.succ_le_of_lt hy)
  have hall : 8 * (conv.height * (conv.width / 8)) ≤ conv.width * conv.height := by
    calc 8 * (conv.height * (conv.width / 8)) = conv.height * (conv.width / 8 * 8) := by ring
      _ ≤ conv.height * conv.width := Nat.mul_le_mul_left _ (Nat.div_mul_le_self _ _)
      _ = conv.width * conv.height := Nat.mul_comm _ _
  rw [Nat.succ_mul] at hrow
  unfold maxFrameBytes
  omega

theorem Converter.Playable.offsetsFit : OffsetsFit fb conv.width conv.height := by
  intro y hy _
  have hy' : y < conv.height := by exact_mod_cast hy
  have hcast : (y : ℤ) * ((conv.width : ℤ) / 8) = (y * (conv.width / 8) : ℕ) := by
    push_cast
    rfl
  have hpos := hconv.width_pos
  rw [hcast]
  rcases Nat.eq_zero_or_pos (conv.width / 8) with hzero | hwide
  · rw [hzero, Nat.mul_zero]
    decide
  · have hlt := hconv.byte_lt hy' hwide
    unfold maxFrameBytes at hlt
    omega

include hbuffer

theorem Converter.Playable.frameApart : FrameApart fb frameBuffer conv.width conv.height := by
  intro y b hy _ hb
  rw [Int.toNat_natCast] at hb
  have hlt := hconv.byte_lt (show y < conv.height by exact_mod_cast hy) hb
  have hbyte := hbuffer _ hlt
  unfold frameByte
  rw [Int.toNat_natCast, Nat.add_assoc]
  exact hbyte

end Frame

theorem setBuffer_outside (hbuffer : BufferApart fb frameBuffer) {x : ℕ}
    (hx : InBuffer fb fb.address x ∨ InHeap x) :
    (setBuffer frameBuffer s buf).mem x = s.mem x := by
  refine Memory.blit_outside ?_
  by_contra hin
  obtain ⟨k, rfl⟩ := Nat.exists_eq_add_of_le (show frameBuffer ≤ x by omega)
  obtain ⟨-, hfront, hheap⟩ := hbuffer k (by omega)
  exact hx.elim hfront hheap

theorem setBuffer_inside {k : ℕ} (hk : k < maxFrameBytes.toNat) :
    (setBuffer frameBuffer s buf).mem (frameBuffer + k) = buf k := by
  dsimp only [setBuffer]
  rw [Memory.blit_inside hk, Nat.zero_add]

/-- In rows of whole bytes the two packings agree. -/
theorem pixelBit_row {w y x : ℕ} (hbytes : w % 8 = 0) :
    pixelBit buf (y * w + x) = (buf (y * (w / 8) + x / 8)).toNat.testBit (x % 8) := by
  have hw : y * w + x = 8 * (y * (w / 8)) + x := by
    have hdiv := Nat.mul_div_cancel' (Nat.dvd_of_mod_eq_zero hbytes)
    calc y * w + x = y * (8 * (w / 8)) + x := by rw [hdiv]
      _ = 8 * (y * (w / 8)) + x := by ring
  have hdiv : (8 * (y * (w / 8)) + x) / 8 = y * (w / 8) + x / 8 := by omega
  have hmod : (8 * (y * (w / 8)) + x) % 8 = x % 8 := by omega
  rw [pixelBit, hw, hdiv, hmod]

/-! ## One call -/

theorem Mapped.bufferSize_eq (hfb : Mapped fb) : bufferSize fb = fb.pitch * fb.height := by
  have hinside := hfb.wellFormed.inside
  exact Nat.mod_eq_of_lt (by omega)

theorem drawFrame_iff (hframebuffer : s.framebuffer = some fb) {w h : ℕ} :
    drawFrame frameBuffer s buf w h = some s' ↔
      (setBuffer frameBuffer s buf).drawFrame frameBuffer w h = some s' ∧ s'.backbuffer ≠ 0 := by
  rw [drawFrame, Option.filter_eq_some_iff]
  refine and_congr_right fun hreturn => ?_
  have hframebuffer' : (setBuffer frameBuffer s buf).framebuffer = some fb := hframebuffer
  obtain ⟨hsame, -⟩ := drawFrame_cases hframebuffer' hreturn
  rw [hsame]
  simp

theorem setBuffer_inv (hinv : Inv fb s) (hbuffer : BufferApart fb frameBuffer) :
    Inv fb (setBuffer frameBuffer s buf) :=
  hinv.congr fun _ hx => setBuffer_outside hbuffer hx

theorem setBuffer_hasRoom (hinv : Inv fb s) (hbuffer : BufferApart fb frameBuffer)
    (hclosed : s.backbuffer = 0) {n : ℕ} :
    Kheap.HasRoom ⟨(setBuffer frameBuffer s buf).mem, s.freeList⟩ n ↔
      Kheap.HasRoom ⟨s.mem, s.freeList⟩ n := by
  obtain ⟨live, blocks, hsound⟩ := hinv.closed hclosed
  exact hsound.hasRoom_congr fun x hlo hhi => setBuffer_outside hbuffer (Or.inr ⟨hlo, hhi⟩)

theorem Ready.setBuffer (hready : Ready fb s) (hbuffer : BufferApart fb frameBuffer) :
    Ready fb (setBuffer frameBuffer s buf) :=
  ⟨setBuffer_inv hready.inv hbuffer, fun hclosed =>
    (setBuffer_hasRoom hready.inv hbuffer hclosed).mpr (hready.room hclosed)⟩

theorem Ready.exists_draw (hready : Ready fb s) (hfb : Mapped fb) (frame rcx rdx : ℕ) :
    ∃ s', s.drawFrame frame rcx rdx = some s' ∧ s'.backbuffer ≠ 0 := by
  have hopen : ∃ opened, openBackbuffer s fb = some opened ∧ opened.backbuffer ≠ 0 := by
    by_cases hclosed : s.backbuffer = 0
    · obtain ⟨live, blocks, hsound⟩ := hready.inv.closed hclosed
      obtain ⟨ptr, heap, hreturn, hroom⟩ := hsound.kmalloc_room hfb.size_lt
      rw [openBackbuffer, if_pos hclosed, Mapped.bufferSize_eq hfb, hreturn]
      exact ⟨_, rfl, hroom.mpr (hready.room hclosed)⟩
    · exact ⟨s, openBackbuffer_opened hclosed, hclosed⟩
  obtain ⟨opened, hopened, hne⟩ := hopen
  obtain ⟨s', hreturn, hsame⟩ := drawFrame_of_open frame rcx rdx hready.inv.framebuffer_eq hopened
  exact ⟨s', hreturn, by rwa [hsame]⟩

theorem hasRoom_of_draw (hinv : Inv fb s) (hfb : Mapped fb) (hclosed : s.backbuffer = 0)
    {frame rcx rdx : ℕ} (hreturn : s.drawFrame frame rcx rdx = some s')
    (hopened : s'.backbuffer ≠ 0) : Kheap.HasRoom ⟨s.mem, s.freeList⟩ (fb.pitch * fb.height) := by
  obtain ⟨live, blocks, hsound⟩ := hinv.closed hclosed
  obtain ⟨ptr, heap, hmalloc, hroom⟩ := hsound.kmalloc_room hfb.size_lt
  obtain ⟨-, ⟨-, heap', hmalloc', -⟩ | ⟨hne, -⟩⟩ := drawFrame_cases hinv.framebuffer_eq hreturn
  · rw [Mapped.bufferSize_eq hfb, hmalloc, Option.some.injEq, Prod.mk.injEq] at hmalloc'
    exact hroom.mp (by rwa [hmalloc'.1])
  · exact absurd hclosed hne

theorem Converter.FitsOn.start_eq (hfits : conv.FitsOn fb) (hfb : Mapped fb) :
    startX fb conv.width = (fb.width - conv.width) / 2 ∧
      startY fb conv.height = (fb.height - conv.height) / 2 := by
  have hw := hfb.width_lt
  have hh := hfb.height_lt
  have hle := hfits.width_le
  have hle' := hfits.height_le
  exact ⟨centre_eq hw (by omega) (by omega), centre_eq hh (by omega) (by omega)⟩

/-- The first row's last pixel lies in no byte of the row, unless the row ends
with a whole byte. -/
theorem Converter.FitsOn.exists_last (hfits : conv.FitsOn fb) (hconv : conv.Playable)
    (hfb : Mapped fb) (hsmall : Small fb) (hbytes : conv.width % 8 ≠ 0) :
    ∃ X Y : ℕ, X < fbWidth fb ∧ Y < fb.height ∧
      startX fb conv.width + (conv.width - 1 : ℕ) = X ∧ startY fb conv.height + (0 : ℕ) = Y ∧
      ¬ Covered fb conv.width conv.height (wholeCols conv.width) (Y * fbWidth fb + X) := by
  obtain ⟨hstartX, hstartY⟩ := hfits.start_eq hfb
  rw [hstartX, hstartY]
  have hwidth := hsmall.width_le
  have hle := hfits.width_le
  have hle' := hfits.height_le
  have hwpos := hconv.width_pos
  have hhpos := hconv.height_pos
  clear hstartX hstartY
  obtain ⟨X, hX⟩ := Int.eq_ofNat_of_zero_le
    (show 0 ≤ ((fb.width : ℤ) - conv.width) / 2 + (conv.width - 1 : ℕ) by omega)
  obtain ⟨Y, hY⟩ := Int.eq_ofNat_of_zero_le
    (show 0 ≤ ((fb.height : ℤ) - conv.height) / 2 + (0 : ℕ) by omega)
  have hcol : X < fbWidth fb := by omega
  refine ⟨X, Y, hcol, by omega, hX, hY, ?_⟩
  rintro ⟨-, -, -, hlast⟩
  have hmod : (Y * fbWidth fb + X) % fbWidth fb = X := by
    rw [Nat.add_comm, Nat.add_mul_mod_self_right, Nat.mod_eq_of_lt hcol]
  rw [sourceCol, hmod, wholeCols, bytesPerRow_eq (by omega)] at hlast
  omega

section Call

variable (hconv : conv.Playable) (hfb : Mapped fb) (hfits : conv.FitsOn fb)
  (hbuffer : BufferApart fb frameBuffer)

include hconv hfb hfits hbuffer

/-- With rows of whole bytes the call puts the frame on the screen. -/
theorem Ready.drawFrame (hbytes : conv.width % 8 = 0) (hready : Ready fb s)
    (hbuf : conv.ShowsFrame frame buf) :
    ∃ s', Video.drawFrame frameBuffer s buf conv.width conv.height = some s' ∧ Ready fb s' ∧
      conv.OnScreen fb s'.mem frame := by
  have hready' : Ready fb (Video.setBuffer frameBuffer s buf) := hready.setBuffer hbuffer
  obtain ⟨s', hreturn, hopened⟩ := hready'.exists_draw hfb frameBuffer conv.width conv.height
  obtain ⟨hw, hh⟩ := hconv.toI32_eq
  have hle := hfits.width_le
  have hle' := hfits.height_le
  have hargs : DrawArguments fb frameBuffer conv.width conv.height :=
    ⟨by omega, by exact_mod_cast hle, by exact_mod_cast hbytes, by omega,
      hconv.frameApart hbuffer⟩
  obtain ⟨hshows, hinv⟩ := draw_shows hfb hready'.inv (by rw [hw, hh]; exact hargs)
    (by rw [hw, hh]; exact hconv.offsetsFit) hreturn hopened
  rw [hw, hh] at hshows
  refine ⟨s', (drawFrame_iff hready.inv.framebuffer_eq).mpr ⟨hreturn, hopened⟩,
    ⟨hinv, fun hclosed => absurd hclosed hopened⟩, ?_⟩
  intro x y hx hy
  obtain ⟨hstartX, hstartY⟩ := hfits.start_eq hfb
  have hpx : y * conv.width + x < conv.width * conv.height := by
    have hrow := Nat.mul_le_mul_right conv.width (Nat.succ_le_of_lt hy)
    rw [Nat.succ_mul, Nat.mul_comm conv.height] at hrow
    omega
  have hlt := hconv.byte_lt hy (show x / 8 < conv.width / 8 by omega)
  have hbyte : frameByte frameBuffer conv.width y (x / 8) =
      frameBuffer + (y * (conv.width / 8) + x / 8) := by
    rw [frameByte, Int.toNat_natCast, Nat.add_assoc]
  rw [hstartX, hstartY, hshows.drawn x y (by exact_mod_cast hx) (by exact_mod_cast hy) (by omega)
    (by omega), hbyte, setBuffer_inside hlt, ← pixelBit_row hbytes, colour]
  simp only [hbuf.1 _ hpx]

/-- The last pixels of a row that is no whole number of bytes stay black holes. -/
theorem pixel_not_drawn (hbytes : conv.width % 8 ≠ 0) (hinv : Inv fb s) (hclosed : s.backbuffer = 0)
    (hreturn : Video.drawFrame frameBuffer s buf conv.width conv.height = some s') :
    ¬ conv.OnScreen fb s'.mem frame := by
  obtain ⟨hreturn, hopened⟩ := (drawFrame_iff hinv.framebuffer_eq).mp hreturn
  have hinv' : Inv fb (setBuffer frameBuffer s buf) := setBuffer_inv hinv hbuffer
  obtain ⟨hw, hh⟩ := hconv.toI32_eq
  have hle := hfits.width_le
  have hheight := hconv.height_le
  have hnarrow : Narrow fb conv.width conv.height :=
    ⟨by omega, by exact_mod_cast hle, by omega, hfb.height_lt, hfb.width_lt⟩
  obtain ⟨m, hmem, -, hlo, hhi, hcoherent, -, hbefore⟩ := hinv'.drawFrame hfb hreturn hopened
  rw [hw, hh] at hmem
  have hbuffers := hfb.buffers hlo hhi
  have hreads : ReadsApart fb s'.backbuffer frameBuffer conv.width conv.height :=
    (hconv.frameApart hbuffer).readsApart hnarrow.nonneg hconv.offsetsFit fun x hx => by
      unfold InBuffer at hx
      exact Or.inr ⟨by omega, by omega⟩
  obtain ⟨X, Y, hX, hY, hcol, hrow, hnot⟩ :=
    hfits.exists_last hconv hfb hbuffers.small hbytes
  obtain ⟨hindex, hpixel⟩ := pixelAt_eq (m := s'.mem) hbuffers.small hX hY
  have hclosed' : (setBuffer frameBuffer s buf).backbuffer = 0 := hclosed
  intro hshown
  have hvalue := hshown (conv.width - 1) 0 (Nat.sub_one_lt_of_lt hconv.width_pos) hconv.height_pos
  rw [hcol, hrow, hpixel, hmem,
    rowOps_pixel_kept hnarrow hbuffers hreads hcoherent hindex hnot, hbefore _ hindex,
    if_pos hclosed'] at hvalue
  split at hvalue <;> cases hvalue

end Call

/-! ## Runs -/

namespace Player

variable {W : Type*} {sys : Syscalls W} {mem : Memory} {file stop P : ℕ} {header : Header}
variable {pix : List Bool} {s : Player W}

/-- Only the system calls of a step act on the world. -/
theorem step_world (I : W → Prop) (huptime : ∀ world, I world → I (sys.uptime world).2)
    (hyield : ∀ world, I world → I (sys.yield world))
    (hdraw : s.pc = .draw → I (sys.drawFrame s.world s.frameBuffer header.w header.h))
    (hworld : I s.world) : I (step sys mem file header s).world := by
  unfold step
  cases hpc : s.pc with
  | loop => exact huptime _ hworld
  | frames =>
      dsimp only
      split <;> exact hworld
  | decode =>
      dsimp only
      split
      · unfold drawRun readRun
        split <;> exact hworld
      · exact hworld
  | draw => exact hdraw hpc
  | wait =>
      dsimp only
      split
      · exact hyield _ (huptime _ hworld)
      · exact huptime _ hworld

theorem exists_first_draw (sys : Syscalls W) (hstream : Stream mem file header stop P pix)
    (hframes : 0 < header.totalFrames) (hinv : s.Inv mem file header stop P pix)
    (hloop : s.pc = .loop) :
    ∃ n, (run sys mem file header s n).pc = .draw ∧
      ∀ k < n, (run sys mem file header s k).pc ≠ .draw := by
  have hexists := exists_draw_of_loop sys hstream hframes hinv hloop
  exact ⟨Nat.find hexists, Nat.find_spec hexists, fun k hk => Nat.find_min hexists hk⟩

end Player

theorem Clock.drawFrame_display (clock : Clock T) (world : Machine T) (buf : ℕ → UInt8) (w h : ℕ) :
    ((clock.syscalls frameBuffer).drawFrame world buf w h).display =
      world.display.bind fun s => drawFrame frameBuffer s buf w h := rfl

theorem step_draw_display (clock : Clock T) {mem : Memory} {file : ℕ} {header : Header}
    {player : Player (Machine T)} (hpc : player.pc = .draw) :
    (Player.step (clock.syscalls frameBuffer) mem file header player).world.display =
      player.world.display.bind fun s =>
        drawFrame frameBuffer s player.frameBuffer header.w header.h := by
  simp only [Player.step, hpc]
  exact clock.drawFrame_display _ _ _ _

section Play

variable {uninit : ℕ → UInt8} {bytes : List UInt8} {mem : Memory} {file : ℕ}
variable (hconv : conv.Playable) (hbytes : conv.process uninit = some bytes)
  (hfile : Converter.FileAt mem file bytes) (hfb : Mapped fb) (hfits : conv.FitsOn fb)
  (hbuffer : BufferApart fb frameBuffer) (clock : Clock T)

include hconv hbytes hfile hfb hfits hbuffer

/-- The display is ready at every point of the playback. -/
theorem run_ready (hmod : conv.width % 8 = 0) {world : Machine T}
    (hworld : ∃ s, world.display = some s ∧ Ready fb s) (n : ℕ) :
    ∃ s, (Player.run (clock.syscalls frameBuffer) mem file conv.header (Player.start world)
      n).world.display = some s ∧ Ready fb s := by
  induction n with
  | zero => exact hworld
  | succ n ih =>
      refine Player.step_world (fun world : Machine T => ∃ s, world.display = some s ∧ Ready fb s)
        (fun _ h => h) (fun _ h => h) (fun hpc => ?_) ih
      obtain ⟨frame, -, hshows⟩ := Converter.shows_of_draw hconv hbytes hfile rfl hpc
      obtain ⟨s, hdisplay, hready⟩ := ih
      obtain ⟨s', hreturn, hready', -⟩ := hready.drawFrame hconv hfb hfits hbuffer hmod hshows
      refine ⟨s', ?_, hready'⟩
      rw [clock.drawFrame_display, hdisplay]
      exact hreturn

theorem playsOnScreen_of_ready (hmod : conv.width % 8 = 0) {world : Machine T}
    (hworld : ∃ s, world.display = some s ∧ Ready fb s) :
    conv.PlaysOnScreen fb (clock.syscalls frameBuffer) mem file world := by
  intro n hpc
  obtain ⟨frame, hframe, hshows⟩ := Converter.shows_of_draw hconv hbytes hfile rfl hpc
  obtain ⟨s, hdisplay, hready⟩ :=
    run_ready hconv hbytes hfile hfb hfits hbuffer clock hmod hworld n
  obtain ⟨s', hreturn, -, hscreen⟩ := hready.drawFrame hconv hfb hfits hbuffer hmod hshows
  refine ⟨frame, s', hframe, ?_, hscreen⟩
  rw [Player.run, step_draw_display clock hpc, hdisplay]
  exact hreturn

/-- The first call shows whether there is room, and whether whole rows are drawn. -/
theorem conditions_of_playsOnScreen (hframes : conv.frames ≠ []) {world : Machine T}
    (hdisplay : world.display = some s) (hinv : Inv fb s) (hclosed : s.backbuffer = 0)
    (hplays : conv.PlaysOnScreen fb (clock.syscalls frameBuffer) mem file world) :
    conv.width % 8 = 0 ∧ Kheap.HasRoom ⟨s.mem, s.freeList⟩ (fb.pitch * fb.height) := by
  obtain ⟨n, hpc, hbefore⟩ := Player.exists_first_draw (clock.syscalls frameBuffer)
    (Converter.stream hconv hbytes hfile) (List.length_pos_of_ne_nil hframes)
    (Player.start_inv world) rfl
  have hsame : ∀ k ≤ n, (Player.run (clock.syscalls frameBuffer) mem file conv.header
      (Player.start world) k).world.display = some s := by
    intro k hk
    induction k with
    | zero => exact hdisplay
    | succ k ih =>
        exact Player.step_world (fun world : Machine T => world.display = some s) (fun _ h => h)
          (fun _ h => h) (fun hdraw => absurd hdraw (hbefore k hk)) (ih (by omega))
  obtain ⟨frame, s', -, hafter, hscreen⟩ := hplays n hpc
  have hreturn : ∃ buf, drawFrame frameBuffer s buf conv.width conv.height = some s' := by
    rw [Player.run, step_draw_display clock hpc, hsame n le_rfl] at hafter
    exact ⟨_, hafter⟩
  obtain ⟨buf, hreturn⟩ := hreturn
  constructor
  · by_contra hmod
    exact pixel_not_drawn hconv hfb hfits hbuffer hmod hinv hclosed hreturn hscreen
  · obtain ⟨hcall, hopened⟩ := (drawFrame_iff hinv.framebuffer_eq).mp hreturn
    exact (setBuffer_hasRoom hinv hbuffer hclosed).mp
      (hasRoom_of_draw (setBuffer_inv hinv hbuffer) hfb hclosed hcall hopened)

end Play

/-- From a display not drawn on yet, every `draw_frame` of a converted video puts
its frame on the screen exactly when there is no frame, or the rows are whole
bytes and the heap has room for the back buffer. -/
theorem playsOnScreen_iff (hconv : conv.Playable) {uninit : ℕ → UInt8} {bytes : List UInt8}
    (hbytes : conv.process uninit = some bytes) {mem : Memory} {file : ℕ}
    (hfile : ∀ i (hi : i < bytes.length), mem (file + i) = bytes[i]) (hfb : Mapped fb)
    (hfits : conv.FitsOn fb) (hbuffer : BufferApart fb frameBuffer) {ram : Memory}
    {ops : List Kheap.Operation} {usage : Kheap.Usage}
    (hheap : Run (Kheap.Step Kheap.kernelRegion) (.start Kheap.kernelRegion ram) ops usage)
    (clock : Clock T) (time : T) :
    conv.PlaysOnScreen fb (clock.syscalls frameBuffer) mem file
        ⟨time, some (start fb usage.heap)⟩ ↔
      conv.frames = [] ∨
        conv.width % 8 = 0 ∧ Kheap.HasRoom usage.heap (fb.pitch * fb.height) := by
  have hinv : Inv fb (start fb usage.heap) := start_inv hheap
  constructor
  · intro hplays
    by_cases hframes : conv.frames = []
    · exact Or.inl hframes
    · exact Or.inr (conditions_of_playsOnScreen hconv hbytes hfile hfb hfits hbuffer clock hframes
        rfl hinv rfl hplays)
  · rintro (hempty | ⟨hmod, hroom⟩)
    · intro n hpc
      obtain ⟨frame, hframe, -⟩ := Converter.shows_of_draw hconv hbytes hfile rfl hpc
      rw [hempty] at hframe
      exact absurd hframe (by simp)
    · exact playsOnScreen_of_ready hconv hbytes hfile hfb hfits hbuffer clock hmod
        ⟨_, rfl, hinv, fun _ => hroom⟩

/-! ## Whole and broken rows -/

/-- A clock that counts how often it is waited for. -/
def counter : Clock ℕ := ⟨fun t => (t, t), fun t => t + 1⟩

theorem vga_bufferApart : BufferApart vga 0x400000 := by
  have hfront : vga.address = 0xFFFF8000FD000000 := rfl
  have hheap : Kheap.kernelRegion.start = 0xFFFF900000000000 := rfl
  intro k hk
  unfold maxFrameBytes at hk
  unfold InBuffer InHeap
  omega

theorem start_hasRoom (ram : Memory) :
    Kheap.HasRoom (Kheap.Usage.start Kheap.kernelRegion ram).heap (vga.pitch * vga.height) :=
  (Kheap.start_sound Kheap.kernelRegion ram).hasRoom_iff.mpr
    ⟨_, List.mem_singleton_self _, rfl, by decide⟩

/-- Four white and four black pixels. -/
def eightPixels : Converter := ⟨[List.replicate 12 255 ++ List.replicate 12 0], 8, 1⟩

theorem eightPixels_playsOnScreen :
    ∃ bytes, eightPixels.process (fun _ => 0) = some bytes ∧
      eightPixels.PlaysOnScreen vga (counter.syscalls 0x400000) (fun a => bytes.getD a 0) 0
        ⟨0, some (start vga (Kheap.Usage.start Kheap.kernelRegion fun _ => 0).heap)⟩ := by
  have hconv : eightPixels.Playable :=
    ⟨by decide, by decide, by decide, by decide, by decide, by decide, by decide⟩
  have hbytes := eightPixels.process_eq (fun _ => 0) hconv.width_le hconv.height_le hconv.frames_lt
  refine ⟨_, hbytes, ?_⟩
  refine (playsOnScreen_iff hconv hbytes (fun i hi => ?_) vga_mapped ⟨by decide, by decide⟩
    vga_bufferApart (.nil _) counter 0).mpr (Or.inr ⟨by decide, start_hasRoom _⟩)
  rw [Nat.zero_add, List.getD_eq_getElem _ _ hi]

/-- A row of two pixels is never drawn. -/
theorem twoPixels_not_on_screen :
    ∃ bytes, twoPixels.process (fun _ => 0) = some bytes ∧ twoPixels.Playable ∧
      twoPixels.FitsOn vga ∧ Mapped vga ∧ BufferApart vga 0x400000 ∧
      Kheap.HasRoom (Kheap.Usage.start Kheap.kernelRegion fun _ => 0).heap
        (vga.pitch * vga.height) ∧
      ¬ twoPixels.PlaysOnScreen vga (counter.syscalls 0x400000) (fun a => bytes.getD a 0) 0
        ⟨0, some (start vga (Kheap.Usage.start Kheap.kernelRegion fun _ => 0).heap)⟩ := by
  have hconv : twoPixels.Playable :=
    ⟨by decide, by decide, by decide, by decide, by decide, by decide, by decide⟩
  have hfits : twoPixels.FitsOn vga := ⟨by decide, by decide⟩
  have hbytes := twoPixels.process_eq (fun _ => 0) hconv.width_le hconv.height_le hconv.frames_lt
  refine ⟨_, hbytes, hconv, hfits, vga_mapped, vga_bufferApart, start_hasRoom _, fun hplays => ?_⟩
  have hmod := (conditions_of_playsOnScreen hconv hbytes
    (fun i hi => by rw [Nat.zero_add, List.getD_eq_getElem _ _ hi]) vga_mapped hfits
    vga_bufferApart counter (by decide) rfl (start_inv (.nil _)) rfl hplays).1
  exact absurd hmod (by decide)

end BadOS.Video
