import BadOS.Kernel.DrawEffect

/-! # Calls that draw, in any number

Programs write their frames and have them drawn, over and over. After every call
the framebuffer shows the back buffer, the frame is on the screen, and the rest
of the screen is as before.
-/

namespace BadOS.Kernel.Display

open Execution

/-- The byte lies in the memory of the kernel's heap. -/
def InHeap (x : ℕ) : Prop := Kheap.kernelRegion.start ≤ x ∧ x < Kheap.kernelRegion.stop

/-- A framebuffer apart from the kernel's heap. -/
structure Mapped (fb : LimineFramebuffer) : Prop where
  wellFormed : fb.WellFormed
  width_lt : fb.width < 2 ^ 31
  height_lt : fb.height < 2 ^ 31
  apart : fb.address + fb.pitch * fb.height ≤ Kheap.kernelRegion.start ∨
    Kheap.kernelRegion.stop ≤ fb.address

/-- The address of byte `b` of row `y` of a frame with rows of `w / 8` bytes. -/
def frameByte (frame : ℕ) (w : ℤ) (y b : ℕ) : ℕ := frame + y * (w.toNat / 8) + b

/-- The rows drawn lie in a program's memory. -/
def FrameApart (fb : LimineFramebuffer) (frame : ℕ) (w h : ℤ) : Prop :=
  ∀ y b : ℕ, y < h → Visible fb h y → b < w.toNat / 8 →
    frameByte frame w y b < 2 ^ 64 ∧ ¬ InBuffer fb fb.address (frameByte frame w y b) ∧
      ¬ InHeap (frameByte frame w y b)

/-- The offset of every row drawn is an `int`. -/
def OffsetsFit (fb : LimineFramebuffer) (w h : ℤ) : Prop :=
  ∀ y : ℕ, y < h → Visible fb h y → y * (w / 8) < 2 ^ 31

structure DrawArguments (fb : LimineFramebuffer) (frame : ℕ) (w h : ℤ) : Prop where
  width_nonneg : 0 ≤ w
  width_le : w ≤ fb.width
  bytes : w % 8 = 0
  height_nonneg : 0 ≤ h
  apart : FrameApart fb frame w h

inductive Event
  | poke (addr : ℕ) (byte : UInt8)
  | draw (frame rcx rdx : ℕ)

/-- A program writes a byte of its own, or has a frame drawn. -/
inductive Step (fb : LimineFramebuffer) (s : Display) : Event → Display → Prop
  | poke {addr : ℕ} {byte : UInt8} (hfb : ¬ InBuffer fb fb.address addr) (hheap : ¬ InHeap addr) :
      Step fb s (.poke addr byte) { s with mem := Function.update s.mem addr byte }
  | draw {frame rcx rdx : ℕ} {s' : Display}
      (hargs : DrawArguments fb frame (CInt.toI32 rcx) (CInt.toI32 rdx))
      (hoffsets : OffsetsFit fb (CInt.toI32 rcx) (CInt.toI32 rdx))
      (hreturn : s.drawFrame frame rcx rdx = some s') (hfits : s'.backbuffer ≠ 0) :
      Step fb s (.draw frame rcx rdx) s'

/-- No frame has been drawn yet. -/
def start (fb : LimineFramebuffer) (heap : Kheap) : Display :=
  { mem := heap.mem, freeList := heap.freeList, backbuffer := 0, backbufferSize := 0,
    framebuffer := some fb }

/-- The pixel in column `X` and row `Y` of the framebuffer. -/
def pixelAt (fb : LimineFramebuffer) (m : Memory) (X Y : ℤ) : ℕ :=
  m.load (pixelAddr fb.address (Y * fbWidth fb + X)) 4

/-- What a call from `s` to `s'` draws. -/
structure Shows (fb : LimineFramebuffer) (s : Display) (frame : ℕ) (w h : ℤ) (s' : Display) :
    Prop where
  coherent : ∀ i < fb.pitch * fb.height, s'.mem (fb.address + i) = s'.mem (s'.backbuffer + i)
  drawn : ∀ x y : ℕ, x < w → y < h → 0 ≤ (fb.height - h) / 2 + y →
    (fb.height - h) / 2 + y < fb.height →
    pixelAt fb s'.mem ((fb.width - w) / 2 + x) ((fb.height - h) / 2 + y) =
      colour ((s.mem (frameByte frame w y (x / 8))).toNat.testBit (x % 8))
  kept : ∀ X Y : ℕ, X < fbWidth fb → Y < fb.height →
    (¬ ∃ x y : ℕ, x < w ∧ y < h ∧ (X : ℤ) = (fb.width - w) / 2 + x ∧
      (Y : ℤ) = (fb.height - h) / 2 + y) →
    pixelAt fb s'.mem X Y = if s.backbuffer = 0 then 0 else pixelAt fb s.mem X Y

/-- The heap can still be allocated from, or the back buffer is in it and on the
screen. -/
structure Inv (fb : LimineFramebuffer) (s : Display) : Prop where
  framebuffer_eq : s.framebuffer = some fb
  closed : s.backbuffer = 0 → ∃ live blocks,
    Kheap.Sound Kheap.kernelRegion ⟨⟨s.mem, s.freeList⟩, live⟩ blocks
  opened : s.backbuffer ≠ 0 → Kheap.kernelRegion.start ≤ s.backbuffer ∧
    s.backbuffer + fb.pitch * fb.height ≤ Kheap.kernelRegion.stop ∧
    Coherent fb s.backbuffer s.mem

variable {fb : LimineFramebuffer} {s s' : Display} {frame rcx rdx backbuffer : ℕ} {w h : ℤ}
variable {m : Memory} {event : Event} {events : List Event}

/-! ## The arguments -/

theorem DrawArguments.narrow (hargs : DrawArguments fb frame w h) (hfb : Mapped fb)
    (hh : h < 2 ^ 31) : Narrow fb w h :=
  ⟨hargs.width_nonneg, hargs.width_le, hh, hfb.height_lt, hfb.width_lt⟩

theorem DrawArguments.wholeCols_eq (hargs : DrawArguments fb frame w h) : wholeCols w = w := by
  have hmod := hargs.bytes
  rw [wholeCols, bytesPerRow_eq hargs.width_nonneg]
  omega

theorem srcAddr_eq (hw : 0 ≤ w) {y b : ℕ} (hoffset : y * (w / 8) < 2 ^ 31)
    (hrange : frameByte frame w y b < 2 ^ 64) : srcAddr frame w y b = frameByte frame w y b := by
  obtain ⟨n, rfl⟩ := Int.eq_ofNat_of_zero_le hw
  have hnonneg : 0 ≤ (y : ℤ) * ((n : ℤ) / 8) := by positivity
  have hcast : (y : ℤ) * ((n : ℤ) / 8) = (y * (n / 8) : ℕ) := by
    push_cast
    rfl
  unfold frameByte at hrange ⊢
  rw [Int.toNat_natCast] at hrange ⊢
  rw [srcAddr, bytesPerRow_eq hw, CInt.toI32_of_range (by omega) hoffset, hcast, ← Nat.cast_add,
    ← Nat.cast_add, CInt.toU64_natCast hrange]

theorem FrameApart.readsApart (hapart : FrameApart fb frame w h) (hw : 0 ≤ w)
    (hoffsets : OffsetsFit fb w h) {buffer : ℕ}
    (hbuffer : ∀ x, InBuffer fb buffer x → InBuffer fb fb.address x ∨ InHeap x) :
    ReadsApart fb buffer frame w h := by
  intro y b hy hvisible hb
  rw [bytesPerRow_eq hw] at hb
  obtain ⟨hrange, hfront, hheap⟩ := hapart y b hy hvisible (by omega)
  rw [srcAddr_eq hw (hoffsets y hy hvisible) hrange]
  intro hinside
  rcases hbuffer _ hinside with h' | h'
  · exact hfront h'
  · exact hheap h'

theorem Mapped.size_lt (hfb : Mapped fb) :
    fb.pitch * fb.height + 2 * Kheap.headerSize < 2 ^ 64 := by
  have hinside := hfb.wellFormed.inside
  have hapart := hfb.apart
  have hstart : 2 ^ 63 ≤ Kheap.kernelRegion.start ∧ Kheap.kernelRegion.start ≤ 2 ^ 64 - 2 ^ 24 := by
    decide
  have hstop : 2 ^ 63 ≤ Kheap.kernelRegion.stop := by decide
  unfold Kheap.headerSize
  omega

/-! ## The picture -/

theorem pixelAt_eq (hsmall : Small fb) {X Y : ℕ} (hX : X < fbWidth fb) (hY : Y < fb.height) :
    Y * fbWidth fb + X < fb.pitch * fb.height / 4 ∧
      pixelAt fb m X Y = pixel fb m (Y * fbWidth fb + X) := by
  have hmul := Nat.mul_le_mul_right (fbWidth fb) (Nat.succ_le_of_lt hY)
  rw [Nat.succ_mul] at hmul
  have hlt : Y * fbWidth fb + X < fb.pitch * fb.height / 4 := by
    rw [hsmall.capacity_eq, Nat.mul_comm (fbWidth fb)]
    omega
  have hinside := hsmall.wellFormed.inside
  refine ⟨hlt, ?_⟩
  rw [pixelAt, ← Nat.cast_mul, ← Nat.cast_add, pixelAddr_natCast (by omega), pixel]

theorem covered_iff {X Y : ℕ} (hX : X < fbWidth fb) :
    Covered fb w h w (Y * fbWidth fb + X) ↔ ∃ x y : ℕ, x < w ∧ y < h ∧
      (X : ℤ) = (fb.width - w) / 2 + x ∧ (Y : ℤ) = (fb.height - h) / 2 + y := by
  have hdiv : (Y * fbWidth fb + X) / fbWidth fb = Y := by
    rw [Nat.add_comm, Nat.add_mul_div_right _ _ (by omega), Nat.div_eq_of_lt hX, Nat.zero_add]
  have hmod : (Y * fbWidth fb + X) % fbWidth fb = X := by
    rw [Nat.add_comm, Nat.add_mul_mod_self_right, Nat.mod_eq_of_lt hX]
  unfold Covered sourceRow sourceCol
  rw [hdiv, hmod]
  constructor
  · rintro ⟨hrow, hrowLt, hcol, hcolLt⟩
    obtain ⟨y, hy⟩ := Int.eq_ofNat_of_zero_le hrow
    obtain ⟨x, hx⟩ := Int.eq_ofNat_of_zero_le hcol
    exact ⟨x, y, by omega, by omega, by omega, by omega⟩
  · rintro ⟨x, y, hx, hy, hX, hY⟩
    omega

/-- A call that draws its rows on memory `m`, which shows what the screen shows
before the call. -/
theorem shows_of_rows (hfb : Mapped fb) (hargs : DrawArguments fb frame w h) (hh : h < 2 ^ 31)
    (hoffsets : OffsetsFit fb w h) (hbuffers : Buffers fb s'.backbuffer)
    (hback : ∀ x, InBuffer fb s'.backbuffer x → InHeap x)
    (hmem : s'.mem = (rowOps fb frame w h).foldl (exec fb.address s'.backbuffer) m)
    (hcoherent : Coherent fb s'.backbuffer m)
    (hframe : ∀ x, ¬ InBuffer fb fb.address x → ¬ InHeap x → m x = s.mem x)
    (hbefore : ∀ i < fb.pitch * fb.height / 4,
      pixel fb m i = if s.backbuffer = 0 then 0 else pixel fb s.mem i) :
    Shows fb s frame w h s' := by
  have hsmall := hbuffers.small
  have hnarrow := hargs.narrow hfb hh
  have hwidth := hsmall.width_le
  have hnonneg := hargs.width_nonneg
  have hle := hargs.width_le
  have hreads := hargs.apart.readsApart hnonneg hoffsets fun x hx => Or.inr (hback x hx)
  constructor
  · have hafter := rowOps_coherent hnarrow hbuffers hreads hcoherent
    rw [← hmem] at hafter
    exact hafter
  -- A visible pixel of the frame: the row and the column it is drawn from.
  · intro x y hx hy htop hbottom
    obtain ⟨X, hX⟩ := Int.eq_ofNat_of_zero_le
      (show 0 ≤ ((fb.width : ℤ) - w) / 2 + x by omega)
    obtain ⟨Y, hY⟩ := Int.eq_ofNat_of_zero_le htop
    have hvisible : Visible fb h y :=
      (visible_iff hfb.height_lt hh hy).mpr ⟨htop, hbottom⟩
    have hcol : X < fbWidth fb := by omega
    have hrow : Y < fb.height := by omega
    have hcovered : Covered fb w h (wholeCols w) (Y * fbWidth fb + X) := by
      rw [hargs.wholeCols_eq]
      exact (covered_iff hcol).mpr ⟨x, y, hx, hy, hX.symm, hY.symm⟩
    obtain ⟨hindex, hpixel⟩ := pixelAt_eq (m := s'.mem) hsmall hcol hrow
    obtain ⟨s₀, c₀, hrowAt⟩ := hnarrow.rowAt hsmall hy hvisible
    have hs₀ : s₀ = Y := by
      have := hrowAt.row_eq
      omega
    have hc₀ : c₀ + x = X := by
      have := hrowAt.col_eq
      omega
    obtain ⟨hsourceRow, hsourceCol⟩ := hrowAt.source hx
    rw [Nat.add_assoc, hs₀, hc₀] at hsourceRow hsourceCol
    have hmod := hargs.bytes
    obtain ⟨hrange, hfront, hheap⟩ := hargs.apart y (x / 8) hy hvisible (by omega)
    rw [hX, hY, hpixel, hmem,
      rowOps_pixel_covered hnarrow hbuffers hreads hcoherent hindex hcovered, picture,
      hsourceRow, hsourceCol, Int.toNat_natCast, Int.toNat_natCast,
      srcAddr_eq hnonneg (hoffsets y hy hvisible) hrange, hframe _ hfront hheap]
  -- A pixel outside the frame keeps what the screen showed before.
  · intro X Y hX hY hnot
    have hcovered : ¬ Covered fb w h (wholeCols w) (Y * fbWidth fb + X) := by
      rw [hargs.wholeCols_eq]
      exact (covered_iff hX).not.mpr hnot
    obtain ⟨hindex, hpixel⟩ := pixelAt_eq (m := s'.mem) hsmall hX hY
    obtain ⟨-, hpixel'⟩ := pixelAt_eq (m := s.mem) hsmall hX hY
    rw [hpixel, hmem, rowOps_pixel_kept hnarrow hbuffers hreads hcoherent hindex hcovered,
      hbefore _ hindex, hpixel']

/-! ## One call -/

theorem openBackbuffer_closed {opened : Display} (hclosed : s.backbuffer = 0)
    (hreturn : openBackbuffer s fb = some opened) :
    ∃ heap, Kheap.kmalloc ⟨s.mem, s.freeList⟩ (bufferSize fb) = some (opened.backbuffer, heap) ∧
      opened.mem = heap.mem ∧ opened.framebuffer = s.framebuffer := by
  rw [openBackbuffer, if_pos hclosed, Option.map_eq_some_iff] at hreturn
  obtain ⟨⟨ptr, heap⟩, hmalloc, hopened⟩ := hreturn
  refine ⟨heap, ?_, by rw [← hopened], by rw [← hopened]⟩
  rw [hmalloc, ← hopened]

theorem openBackbuffer_opened (hopened : s.backbuffer ≠ 0) : openBackbuffer s fb = some s := by
  rw [openBackbuffer, if_neg hopened]

theorem drawFrame_eq (hframebuffer : s.framebuffer = some fb)
    (hreturn : s.drawFrame frame rcx rdx = some s') :
    ∃ opened, openBackbuffer s fb = some opened ∧ s'.backbuffer = opened.backbuffer ∧
      s'.framebuffer = opened.framebuffer ∧
      s'.mem = (drawOps fb (s.backbuffer = 0) frame rcx rdx).foldl
        (exec fb.address opened.backbuffer) opened.mem := by
  rw [Display.drawFrame, hframebuffer] at hreturn
  obtain ⟨opened, hopen, hs'⟩ := Option.map_eq_some_iff.mp hreturn
  exact ⟨opened, hopen, by rw [← hs'], by rw [← hs'], by rw [← hs']⟩

/-- What a call can do: allocate the back buffer and clear both buffers, or not,
and then draw the rows. -/
theorem drawFrame_cases (hframebuffer : s.framebuffer = some fb)
    (hreturn : s.drawFrame frame rcx rdx = some s') :
    s'.framebuffer = some fb ∧
    ((s.backbuffer = 0 ∧ ∃ heap,
      Kheap.kmalloc ⟨s.mem, s.freeList⟩ (bufferSize fb) = some (s'.backbuffer, heap) ∧
      s'.mem = (rowOps fb frame (CInt.toI32 rcx) (CInt.toI32 rdx)).foldl
        (exec fb.address s'.backbuffer)
        ((openOps fb).foldl (exec fb.address s'.backbuffer) heap.mem)) ∨
    (s.backbuffer ≠ 0 ∧ s'.backbuffer = s.backbuffer ∧
      s'.mem = (rowOps fb frame (CInt.toI32 rcx) (CInt.toI32 rdx)).foldl
        (exec fb.address s'.backbuffer) s.mem)) := by
  obtain ⟨opened, hopen, hbackbuffer, hfb, hmem⟩ := drawFrame_eq hframebuffer hreturn
  rw [hmem, hbackbuffer, hfb, drawOps, List.foldl_append]
  by_cases hclosed : s.backbuffer = 0
  · obtain ⟨heap, hmalloc, hheap, hsame⟩ := openBackbuffer_closed hclosed hopen
    rw [decide_eq_true hclosed, if_pos rfl, hheap, hsame]
    exact ⟨hframebuffer, Or.inl ⟨hclosed, heap, hmalloc, rfl⟩⟩
  · rw [openBackbuffer_opened hclosed, Option.some.injEq] at hopen
    rw [decide_eq_false hclosed, if_neg Bool.false_ne_true, ← hopen]
    exact ⟨hframebuffer, Or.inr ⟨hclosed, rfl, rfl⟩⟩

theorem Mapped.buffers (hfb : Mapped fb) (hlo : Kheap.kernelRegion.start ≤ backbuffer)
    (hhi : backbuffer + fb.pitch * fb.height ≤ Kheap.kernelRegion.stop) :
    Buffers fb backbuffer := by
  have hregion : Kheap.kernelRegion.stop = Kheap.kernelRegion.start + 2 ^ 24 := by decide
  have hstop := Kheap.kernelRegion.stop_lt
  have hapart := hfb.apart
  generalize Kheap.kernelRegion.start = first at *
  generalize Kheap.kernelRegion.stop = last at *
  exact ⟨⟨hfb.wellFormed, by omega⟩, by omega, by omega⟩

/-- The buffers just cleared. -/
theorem openOps_shows (hbuffers : Buffers fb backbuffer) :
    Coherent fb backbuffer ((openOps fb).foldl (exec fb.address backbuffer) m) ∧
      ∀ i < fb.pitch * fb.height / 4,
        pixel fb ((openOps fb).foldl (exec fb.address backbuffer) m) i = 0 := by
  obtain ⟨hzero, -⟩ := openOps_effect (m := m) hbuffers
  constructor
  · intro i hi
    rw [hzero _ (Or.inr ⟨by omega, by omega⟩), hzero _ (Or.inl ⟨by omega, by omega⟩)]
  · intro i hi
    have hbytes : ∀ j < 4, (openOps fb).foldl (exec fb.address backbuffer) m
        (fb.address + 4 * i + j) = UInt8.ofNat (0 / 256 ^ j) := by
      intro j hj
      rw [hzero _ (Or.inr ⟨by omega, by omega⟩), Nat.zero_div]
      rfl
    rw [pixel, Memory.load_eq_of_bytes hbytes, Nat.zero_mod]

/-- The memory the rows are drawn on, and where: after the first call's clearing,
or as it is. -/
theorem Inv.drawFrame (hinv : Inv fb s) (hfb : Mapped fb)
    (hreturn : s.drawFrame frame rcx rdx = some s') (hfits : s'.backbuffer ≠ 0) :
    ∃ m, s'.mem = (rowOps fb frame (CInt.toI32 rcx) (CInt.toI32 rdx)).foldl
        (exec fb.address s'.backbuffer) m ∧
      s'.framebuffer = some fb ∧ Kheap.kernelRegion.start ≤ s'.backbuffer ∧
      s'.backbuffer + fb.pitch * fb.height ≤ Kheap.kernelRegion.stop ∧
      Coherent fb s'.backbuffer m ∧
      (∀ x, ¬ InBuffer fb fb.address x → ¬ InHeap x → m x = s.mem x) ∧
      ∀ i < fb.pitch * fb.height / 4,
        pixel fb m i = if s.backbuffer = 0 then 0 else pixel fb s.mem i := by
  obtain ⟨hframebuffer, ⟨hclosed, heap, hmalloc, hmem⟩ | ⟨hopened, heq, hmem⟩⟩ :=
    drawFrame_cases hinv.framebuffer_eq hreturn
  · obtain ⟨live, blocks, hsound⟩ := hinv.closed hclosed
    have hinside := hfb.wellFormed.inside
    have hcount : bufferSize fb = fb.pitch * fb.height := Nat.mod_eq_of_lt (by omega)
    have hsize : fb.pitch * fb.height + 2 * Kheap.headerSize < 2 ^ 64 := hfb.size_lt
    rw [hcount] at hmalloc
    obtain ⟨hlo, hhi, houtside⟩ := hsound.kmalloc_inside hsize hmalloc hfits
    have hbuffers := hfb.buffers hlo hhi
    obtain ⟨-, hkeep⟩ := openOps_effect (m := heap.mem) hbuffers
    obtain ⟨hcoherent, hzero⟩ := openOps_shows (m := heap.mem) hbuffers
    refine ⟨_, hmem, hframebuffer, hlo, hhi, hcoherent, fun x hfront hheap => ?_, fun i hi => ?_⟩
    · unfold InHeap at hheap
      have hback : ¬ InBuffer fb s'.backbuffer x := by
        unfold InBuffer
        omega
      rw [hkeep x hback hfront]
      exact houtside x (by omega)
    · rw [if_pos hclosed]
      exact hzero i hi
  · obtain ⟨hlo, hhi, hcoherent⟩ := hinv.opened hopened
    rw [← heq] at hlo hhi hcoherent
    refine ⟨s.mem, hmem, hframebuffer, hlo, hhi, hcoherent, fun _ _ _ => rfl, fun i hi => ?_⟩
    rw [if_neg hopened]

theorem draw_shows (hfb : Mapped fb) (hinv : Inv fb s)
    (hargs : DrawArguments fb frame (CInt.toI32 rcx) (CInt.toI32 rdx))
    (hoffsets : OffsetsFit fb (CInt.toI32 rcx) (CInt.toI32 rdx))
    (hreturn : s.drawFrame frame rcx rdx = some s') (hfits : s'.backbuffer ≠ 0) :
    Shows fb s frame (CInt.toI32 rcx) (CInt.toI32 rdx) s' ∧ Inv fb s' := by
  obtain ⟨m, hmem, hframebuffer, hlo, hhi, hcoherent, hframe, hbefore⟩ :=
    hinv.drawFrame hfb hreturn hfits
  have hbuffers := hfb.buffers hlo hhi
  have hback : ∀ x, InBuffer fb s'.backbuffer x → InHeap x := by
    intro x hx
    unfold InBuffer at hx
    unfold InHeap
    omega
  have hshows := shows_of_rows hfb hargs (CInt.toI32_bounds _).2 hoffsets hbuffers hback hmem
    hcoherent hframe hbefore
  exact ⟨hshows, hframebuffer, fun hzero => absurd hzero hfits,
    fun _ => ⟨hlo, hhi, hshows.coherent⟩⟩

/-! ## Runs -/

/-- What a program writes lies neither in the heap nor in the framebuffer. -/
theorem Inv.congr (hinv : Inv fb s)
    (hsame : ∀ x, InBuffer fb fb.address x ∨ InHeap x → m x = s.mem x) :
    Inv fb { s with mem := m } := by
  refine ⟨hinv.framebuffer_eq, fun hclosed => ?_, fun hopened => ?_⟩
  · obtain ⟨live, blocks, hsound⟩ := hinv.closed hclosed
    exact ⟨live, blocks, hsound.congr fun x hlo hhi => hsame x (Or.inr ⟨hlo, hhi⟩)⟩
  · obtain ⟨hlo, hhi, hcoherent⟩ := hinv.opened hopened
    refine ⟨hlo, hhi, fun i hi => ?_⟩
    dsimp only
    rw [hsame _ (Or.inl ⟨by omega, by omega⟩), hsame _ (Or.inr ⟨by omega, by omega⟩)]
    exact hcoherent i hi

theorem step_inv (hfb : Mapped fb) (hstep : Step fb s event s') (hinv : Inv fb s) : Inv fb s' := by
  cases hstep with
  | poke hfront hheap =>
      refine hinv.congr fun x hx => Function.update_of_ne ?_ _ _
      rintro rfl
      exact hx.elim hfront hheap
  | draw hargs hoffsets hreturn hfits =>
      exact (draw_shows hfb hinv hargs hoffsets hreturn hfits).2

theorem start_inv {mem : Memory} {ops : List Kheap.Operation} {usage : Kheap.Usage}
    (hheap : Run (Kheap.Step Kheap.kernelRegion) (.start Kheap.kernelRegion mem) ops usage) :
    Inv fb (start fb usage.heap) := by
  obtain ⟨blocks, hsound, -⟩ := Kheap.run_sound hheap (Kheap.start_sound Kheap.kernelRegion mem)
  exact ⟨rfl, fun _ => ⟨usage.live, blocks, hsound⟩, fun hne => absurd rfl hne⟩

/-- In every run of calls whose row offsets fit in an `int`, every call leaves
the framebuffer equal to the back buffer, puts its frame in the centre and keeps
the rest of the screen. -/
theorem run_shows (hfb : Mapped fb) {mem : Memory} {ops : List Kheap.Operation}
    {usage : Kheap.Usage}
    (hheap : Run (Kheap.Step Kheap.kernelRegion) (.start Kheap.kernelRegion mem) ops usage)
    (hrun : Run (Step fb) (start fb usage.heap) events s)
    (hstep : Step fb s (.draw frame rcx rdx) s') :
    Shows fb s frame (CInt.toI32 rcx) (CInt.toI32 rdx) s' := by
  have hinv := hrun.invariant (Inv fb) (start_inv hheap) fun _ _ _ hstep => step_inv hfb hstep
  cases hstep with
  | draw hargs hoffsets hreturn hfits =>
      exact (draw_shows hfb hinv hargs hoffsets hreturn hfits).1

/-! ## First calls -/

theorem drawFrame_of_open (frame rcx rdx : ℕ) {opened : Display}
    (hframebuffer : s.framebuffer = some fb)
    (hopen : openBackbuffer s fb = some opened) :
    ∃ s', s.drawFrame frame rcx rdx = some s' ∧ s'.backbuffer = opened.backbuffer := by
  rw [Display.drawFrame, hframebuffer]
  dsimp only
  rw [hopen, Option.map_some]
  exact ⟨_, rfl, rfl⟩

/-- The first call on a fresh heap gets its back buffer. -/
theorem exists_first_draw (fb : LimineFramebuffer) (mem : Memory) (frame rcx rdx : ℕ)
    (hsize : bufferSize fb + Kheap.headerSize ≤ Kheap.kernelRegion.total) :
    ∃ s', (start fb (Kheap.Usage.start Kheap.kernelRegion mem).heap).drawFrame frame rcx rdx =
      some s' ∧ s'.backbuffer ≠ 0 := by
  have htotal : Kheap.kernelRegion.total = 2 ^ 24 := rfl
  have hreturn := Kheap.start_kmalloc Kheap.kernelRegion mem
    (show bufferSize fb + 2 * Kheap.headerSize < 2 ^ 64 by unfold Kheap.headerSize at *; omega)
    hsize
  have hopen : ∃ opened, openBackbuffer (start fb (Kheap.Usage.start Kheap.kernelRegion mem).heap)
      fb = some opened ∧ opened.backbuffer = Kheap.kernelRegion.start + Kheap.headerSize := by
    have hclosed : (start fb (Kheap.Usage.start Kheap.kernelRegion mem).heap).backbuffer = 0 := rfl
    rw [openBackbuffer, if_pos hclosed]
    exact ⟨_, congrArg _ hreturn, rfl⟩
  obtain ⟨opened, hopened, hbackbuffer⟩ := hopen
  obtain ⟨s', hreturn', heq⟩ := drawFrame_of_open frame rcx rdx
    (show (start fb (Kheap.Usage.start Kheap.kernelRegion mem).heap).framebuffer = some fb from rfl)
    hopened
  refine ⟨s', hreturn', ?_⟩
  rw [heq, hbackbuffer]
  decide

/-- The heap's set-up writes in the heap only. -/
theorem start_mem (fb : LimineFramebuffer) (mem : Memory) {x : ℕ}
    (hx : x < Kheap.kernelRegion.start) :
    (start fb (Kheap.Usage.start Kheap.kernelRegion mem).heap).mem x = mem x := by
  dsimp only [start, Kheap.Usage.start, Kheap.kheapInitialize, Kheap.setSize, Kheap.setIsFree,
    Kheap.setNext]
  rw [Memory.store_outside (Or.inl hx), Memory.store_outside (Or.inl (by omega)),
    Memory.store_outside (Or.inl (by omega))]

theorem vga_mapped : Mapped vga :=
  ⟨vga_wellFormed, by decide, by decide, by decide⟩

theorem vga_arguments {w h : ℕ} (hw : w ≤ 640) (hbytes : w % 8 = 0) (hh : h ≤ 480) :
    DrawArguments vga 0x400000 w h ∧ OffsetsFit vga w h := by
  have hrows : ∀ y < h, y * (w / 8) ≤ 480 * 80 := fun y hy => Nat.mul_le_mul (by omega) (by omega)
  constructor
  · refine ⟨by omega, by exact_mod_cast hw, by omega, by omega, fun y b hy _ hb => ?_⟩
    have hrow := hrows y (by omega)
    rw [Int.toNat_natCast] at hb
    unfold frameByte InBuffer InHeap
    rw [Int.toNat_natCast]
    have hheap : Kheap.kernelRegion.start = 0xFFFF900000000000 := rfl
    have hfront : vga.address = 0xFFFF8000FD000000 := rfl
    omega
  · intro y hy _
    have hrow := hrows y (by omega)
    have hcast : (y : ℤ) * ((w : ℤ) / 8) = (y * (w / 8) : ℕ) := by
      push_cast
      rfl
    rw [hcast]
    omega

/-- Eight pixels, and then two rows of 24 with another byte in front. -/
theorem vga_draws : ∃ s s',
    Run (Step vga) (start vga (Kheap.Usage.start Kheap.kernelRegion fun _ => 0).heap)
      [.draw 0x400000 8 1, .poke 0x400000 0x81] s ∧
    Step vga s (.draw 0x400000 24 2) s' ∧ Shows vga s 0x400000 24 2 s' ∧
    pixelAt vga s'.mem 308 239 = 0xFFFFFFFF ∧ pixelAt vga s'.mem 309 239 = 0xFF000000 := by
  have hcast : ∀ n < 2 ^ 31, CInt.toI32 (n : ℕ) = n := fun n hn => CInt.toI32_natCast hn
  obtain ⟨s₁, hreturn, hfits⟩ := exists_first_draw vga (fun _ => 0) 0x400000 8 1 (by decide)
  obtain ⟨hargs, hoffsets⟩ := vga_arguments (show 8 ≤ 640 by decide) rfl (show 1 ≤ 480 by decide)
  rw [← hcast 8 (by decide), ← hcast 1 (by decide)] at hargs hoffsets
  have hfirst : Step vga (start vga (Kheap.Usage.start Kheap.kernelRegion fun _ => 0).heap)
      (.draw 0x400000 8 1) s₁ := .draw hargs hoffsets hreturn hfits
  have hpoke : Step vga s₁ (.poke 0x400000 0x81) _ :=
    .poke (by unfold InBuffer; decide) (by unfold InHeap; decide)
  have hrun := Run.cons hfirst (.cons hpoke (.nil _))
  have hbyte : Function.update s₁.mem 0x400000 0x81 0x400000 = 0x81 := Function.update_self _ _ _
  -- The back buffer is there.
  have hinv := hrun.invariant (Inv vga) (start_inv (.nil _)) fun _ _ _ hstep =>
    step_inv vga_mapped hstep
  obtain ⟨s₂, hreturn₂, hsame⟩ := drawFrame_of_open 0x400000 24 2 hinv.framebuffer_eq
    (show openBackbuffer _ vga = some _ from if_neg hfits)
  obtain ⟨hargs₂, hoffsets₂⟩ :=
    vga_arguments (show 24 ≤ 640 by decide) rfl (show 2 ≤ 480 by decide)
  rw [← hcast 24 (by decide), ← hcast 2 (by decide)] at hargs₂ hoffsets₂
  have hsecond : Step vga _ (.draw 0x400000 24 2) s₂ :=
    .draw hargs₂ hoffsets₂ hreturn₂ (by rw [hsame]; exact hfits)
  have hshows := run_shows vga_mapped (.nil _) hrun hsecond
  rw [hcast 24 (by decide), hcast 2 (by decide)] at hshows
  have hcentre : ((vga.width : ℤ) - (24 : ℕ)) / 2 = 308 ∧
      ((vga.height : ℤ) - (2 : ℕ)) / 2 = 239 := by decide
  have hpixel : ∀ x : ℕ, x < 8 →
      pixelAt vga s₂.mem (308 + x) 239 = colour ((0x81 : UInt8).toNat.testBit x) := by
    intro x hx
    have hdrawn := hshows.drawn x 0 (by omega) (by decide) (by decide) (by decide)
    rw [hcentre.1, hcentre.2, Nat.div_eq_of_lt hx, Nat.mod_eq_of_lt hx] at hdrawn
    exact hdrawn.trans (congrArg (fun b : UInt8 => colour (b.toNat.testBit x)) hbyte)
  exact ⟨_, s₂, hrun, hsecond, hshows, hpixel 0 (by decide), hpixel 1 (by decide)⟩

/-- One row of 24 pixels. -/
def strip : LimineFramebuffer := ⟨0xFFFF8000FD000000, 24, 1, 96⟩

theorem strip_mapped : Mapped strip :=
  ⟨⟨by decide, by decide, by decide⟩, by decide, by decide, by decide⟩

/-- Ones below 1 TiB and zeros from there on. -/
def halfMemory : Memory := fun x => if x < 2 ^ 40 then 0xFF else 0

theorem strip_visible {y : ℕ} (hy : y < (2 ^ 31 - 1 : ℤ))
    (hvisible : Visible strip (2 ^ 31 - 1) y) : y = 2 ^ 30 - 1 := by
  obtain ⟨hlo, hhi⟩ := (visible_iff (by decide) (by decide) hy).mp hvisible
  have hheight : (strip.height : ℤ) = 1 := rfl
  omega

/-- The one row drawn of a frame of zeros at 1 TiB starts 3 * (2 ^ 30 - 1) bytes
into it. That is no `int`, so bytes before the frame are drawn. -/
theorem strip_overflow : ∃ s',
    (start strip (Kheap.Usage.start Kheap.kernelRegion halfMemory).heap).drawFrame (2 ^ 40) 24
      (2 ^ 31 - 1) = some s' ∧ s'.backbuffer ≠ 0 ∧ Mapped strip ∧
    DrawArguments strip (2 ^ 40) (CInt.toI32 (24 : ℕ)) (CInt.toI32 (2 ^ 31 - 1 : ℕ)) ∧
    ¬ Shows strip (start strip (Kheap.Usage.start Kheap.kernelRegion halfMemory).heap) (2 ^ 40)
      (CInt.toI32 (24 : ℕ)) (CInt.toI32 (2 ^ 31 - 1 : ℕ)) s' := by
  obtain ⟨s', hreturn, hfits⟩ := exists_first_draw strip halfMemory (2 ^ 40) 24 (2 ^ 31 - 1)
    (by decide)
  have hw : CInt.toI32 (24 : ℕ) = 24 := CInt.toI32_natCast (by decide)
  have hh : CInt.toI32 (2 ^ 31 - 1 : ℕ) = 2 ^ 31 - 1 := by
    rw [CInt.toI32_natCast (by decide)]
    rfl
  have hinv : Inv strip (start strip (Kheap.Usage.start Kheap.kernelRegion halfMemory).heap) :=
    start_inv (.nil _)
  have hbytes : ∀ b : ℕ, b < 3 → frameByte (2 ^ 40) 24 (2 ^ 30 - 1) b < 2 ^ 64 ∧
      ¬ InBuffer strip strip.address (frameByte (2 ^ 40) 24 (2 ^ 30 - 1) b) ∧
      ¬ InHeap (frameByte (2 ^ 40) 24 (2 ^ 30 - 1) b) := by
    unfold InBuffer InHeap
    decide
  have hargs : DrawArguments strip (2 ^ 40) 24 (2 ^ 31 - 1) := by
    refine ⟨by decide, by decide, by decide, by decide, ?_⟩
    intro y b hy hvisible hb
    rw [strip_visible hy hvisible]
    exact hbytes b hb
  refine ⟨s', hreturn, hfits, strip_mapped, by rw [hw, hh]; exact hargs, ?_⟩
  rw [hw, hh]
  intro hshows
  obtain ⟨m, hmem, -, hlo, hhi, hcoherent, hframe, -⟩ := hinv.drawFrame strip_mapped hreturn hfits
  rw [hw, hh] at hmem
  have hbuffers := strip_mapped.buffers hlo hhi
  have hnarrow := hargs.narrow strip_mapped (by decide)
  have hsource : ∀ b : ℕ, b < 3 → srcAddr (2 ^ 40) 24 (2 ^ 30 - 1) b = 2 ^ 40 - 2 ^ 30 - 3 + b := by
    decide +kernel
  have hreads : ReadsApart strip s'.backbuffer (2 ^ 40) 24 (2 ^ 31 - 1) := by
    intro y b hy hvisible hb
    rw [strip_visible hy hvisible, hsource b (by rw [bytesPerRow_eq (by decide)] at hb; omega)]
    have hstart : 2 ^ 63 ≤ Kheap.kernelRegion.start := by decide
    rintro ⟨hinside, -⟩
    have hb' : (b : ℤ) < 3 := by
      rw [bytesPerRow_eq (by decide)] at hb
      omega
    omega
  -- The pixel should show a byte of the frame; the byte read lies before the frame.
  have hpixel := hshows.drawn 0 (2 ^ 30 - 1) (by decide) (by decide) (by decide) (by decide)
  have hmiddle : ((strip.width : ℤ) - 24) / 2 + (0 : ℕ) = (0 : ℕ) ∧
      ((strip.height : ℤ) - (2 ^ 31 - 1)) / 2 + (2 ^ 30 - 1 : ℕ) = (0 : ℕ) := by decide
  obtain ⟨hindex, heq⟩ := pixelAt_eq (m := s'.mem) hbuffers.small (X := 0) (Y := 0) (by decide)
    (by decide)
  have hcovered : Covered strip 24 (2 ^ 31 - 1) (wholeCols 24) (0 * fbWidth strip + 0) := by
    unfold Covered
    decide
  have hrow : sourceRow strip (2 ^ 31 - 1) (0 * fbWidth strip + 0) = (2 ^ 30 - 1 : ℕ) := by decide
  have hcol : sourceCol strip 24 (0 * fbWidth strip + 0) = (0 : ℕ) := by decide
  have hbefore := hframe (2 ^ 40 - 2 ^ 30 - 3) (by unfold InBuffer; decide)
    (by unfold InHeap; decide)
  rw [hmiddle.1, hmiddle.2, heq, hmem,
    rowOps_pixel_covered hnarrow hbuffers hreads hcoherent hindex hcovered,
    picture, hrow, hcol, Int.toNat_natCast, Int.toNat_natCast, Nat.zero_div, hsource 0 (by decide),
    Nat.add_zero, hbefore, start_mem strip _ (by decide), start_mem strip _ (by decide)] at hpixel
  exact absurd hpixel (by decide)

end BadOS.Kernel.Display
