import BadOS.Kernel.DrawBounds

/-! # What a call draws

The rows of a call, as one picture in the back buffer that is then copied to the
framebuffer. Every byte of the buffers is either a byte of the picture or left
as it was.
-/

namespace BadOS.Kernel.Display

/-- The buffers lie apart in the address space. -/
structure Buffers (fb : LimineFramebuffer) (backbuffer : ℕ) : Prop where
  small : Small fb
  fits : backbuffer + fb.pitch * fb.height < 2 ^ 64
  apart : fb.address + fb.pitch * fb.height ≤ backbuffer ∨
    backbuffer + fb.pitch * fb.height ≤ fb.address

/-- A byte of a buffer. -/
def InBuffer (fb : LimineFramebuffer) (buffer x : ℕ) : Prop :=
  buffer ≤ x ∧ x < buffer + fb.pitch * fb.height

/-- The arguments of a call that draws inside the framebuffer. -/
structure Narrow (fb : LimineFramebuffer) (w h : ℤ) : Prop where
  nonneg : 0 ≤ w
  width_le : w ≤ fb.width
  height_lt : h < 2 ^ 31
  rows_lt : fb.height < 2 ^ 31
  cols_lt : fb.width < 2 ^ 31

/-- Row and column of the frame that land on the pixel. -/
def sourceRow (fb : LimineFramebuffer) (h : ℤ) (i : ℕ) : ℤ :=
  (i / fbWidth fb : ℕ) - (fb.height - h) / 2

def sourceCol (fb : LimineFramebuffer) (w : ℤ) (i : ℕ) : ℤ :=
  (i % fbWidth fb : ℕ) - (fb.width - w) / 2

/-- The pixel lies in the first `n` columns of the frame. -/
def Covered (fb : LimineFramebuffer) (w h n : ℤ) (i : ℕ) : Prop :=
  0 ≤ sourceRow fb h i ∧ sourceRow fb h i < h ∧ 0 ≤ sourceCol fb w i ∧ sourceCol fb w i < n

/-- The colour the frame gives to the pixel. -/
def picture (fb : LimineFramebuffer) (m : Memory) (frame : ℕ) (w h : ℤ) (i : ℕ) : ℕ :=
  let x := (sourceCol fb w i).toNat
  colour ((m (srcAddr frame w (sourceRow fb h i).toNat (x / 8))).toNat.testBit (x % 8))

variable {fb : LimineFramebuffer} {m : Memory} {frame backbuffer x i : ℕ} {w h n : ℤ}

/-! ## One operation -/

theorem pixelAddr_natCast {buffer : ℕ} (hrange : buffer + 4 * i < 2 ^ 64) :
    pixelAddr buffer i = buffer + 4 * i := by
  unfold pixelAddr CInt.toU64
  omega

/-- The byte at `x` of a buffer whose pixels are `image`. -/
def imageByte (image : ℕ → ℕ) (buffer x : ℕ) : UInt8 :=
  UInt8.ofNat (image ((x - buffer) / 4) / 256 ^ ((x - buffer) % 4))

theorem store_pixel (image : ℕ → ℕ) {buffer : ℕ} (hrange : buffer + 4 * i < 2 ^ 64) :
    (buffer + 4 * i ≤ x ∧ x < buffer + 4 * (i + 1) →
      m.store (pixelAddr buffer i) 4 (image i) x = imageByte image buffer x) ∧
    (¬ (buffer + 4 * i ≤ x ∧ x < buffer + 4 * (i + 1)) →
      m.store (pixelAddr buffer i) 4 (image i) x = m x) := by
  rw [pixelAddr_natCast hrange]
  constructor
  · rintro ⟨hlo, hhi⟩
    obtain ⟨j, rfl⟩ := Nat.exists_eq_add_of_le hlo
    have hpixel : (buffer + 4 * i + j - buffer) / 4 = i := by omega
    have hbyte : (buffer + 4 * i + j - buffer) % 4 = j := by omega
    rw [Memory.store_inside (by omega), imageByte, hpixel, hbyte]
  · intro hout
    exact Memory.store_outside (by omega)

/-- Eight pixels in a row. -/
theorem unpackByte_window (image : ℕ → ℕ) {bits : UInt8}
    (hrange : backbuffer + 4 * (i + 8) < 2 ^ 64)
    (himage : ∀ k < 8, image (i + k) = colour (bits.toNat.testBit k)) :
    (backbuffer + 4 * i ≤ x ∧ x < backbuffer + 4 * (i + 8) →
      unpackByte m backbuffer i bits x = imageByte image backbuffer x) ∧
    (¬ (backbuffer + 4 * i ≤ x ∧ x < backbuffer + 4 * (i + 8)) →
      unpackByte m backbuffer i bits x = m x) := by
  have hpre : ∀ n ≤ 8,
      (backbuffer + 4 * i ≤ x ∧ x < backbuffer + 4 * (i + n) →
        Loop.times n (fun k m => m.store (pixelAddr backbuffer ((i : ℤ) + k)) 4
          (colour (bits.toNat.testBit k))) m x = imageByte image backbuffer x) ∧
      (¬ (backbuffer + 4 * i ≤ x ∧ x < backbuffer + 4 * (i + n)) →
        Loop.times n (fun k m => m.store (pixelAddr backbuffer ((i : ℤ) + k)) 4
          (colour (bits.toNat.testBit k))) m x = m x) := by
    intro n hn
    induction n with
    | zero => exact ⟨fun hx => by omega, fun _ => rfl⟩
    | succ n ih =>
        obtain ⟨hin, hout⟩ := ih (by omega)
        obtain ⟨hnew, hold⟩ := store_pixel (x := x) (i := i + n)
          (m := Loop.times n (fun k m => m.store (pixelAddr backbuffer ((i : ℤ) + k)) 4
            (colour (bits.toNat.testBit k))) m) image
          (show backbuffer + 4 * (i + n) < 2 ^ 64 by omega)
        rw [himage n (by omega), Nat.cast_add] at hnew hold
        rw [Loop.times_succ]
        by_cases hlast : backbuffer + 4 * (i + n) ≤ x ∧ x < backbuffer + 4 * (i + n + 1)
        · exact ⟨fun _ => hnew hlast, fun hx => by omega⟩
        · rw [hold hlast]
          exact ⟨fun hx => hin (by omega), fun hx => hout (by omega)⟩
  exact hpre 8 le_rfl

/-! ## The pixels of a row -/

/-- A row of the frame on the screen: row `s`, from column `c` on. -/
structure RowAt (fb : LimineFramebuffer) (w h : ℤ) (y s c : ℕ) : Prop where
  row_eq : (s : ℤ) = (fb.height - h) / 2 + y
  row_lt : s < fb.height
  col_eq : (c : ℤ) = (fb.width - w) / 2
  col_le : c + w ≤ fbWidth fb
  offset_eq : rowOffset fb w h y = (s * fbWidth fb + c : ℕ)

theorem Narrow.rowAt (hnarrow : Narrow fb w h) (hsmall : Small fb) {y : ℕ} (hy : y < h)
    (hvisible : Visible fb h y) : ∃ s c, RowAt fb w h y s c := by
  obtain ⟨hnonneg, hle, hheight, hrows, hcols⟩ := hnarrow
  have hwidth := hsmall.width_le
  have hscreen := screenY_eq hrows hheight hy
  obtain ⟨htop, hbottom⟩ := (visible_iff hrows hheight hy).mp hvisible
  obtain ⟨s, hs⟩ := Int.eq_ofNat_of_zero_le htop
  obtain ⟨c, hc⟩ := Int.eq_ofNat_of_zero_le (show 0 ≤ (fb.width - w) / 2 by omega)
  refine ⟨s, c, hs.symm, by omega, hc.symm, by omega, ?_⟩
  rw [rowOffset, hscreen, hs, startX, centre_eq hcols (by omega) (by omega), hc]
  push_cast
  rfl

/-- The frame's coordinates of a pixel of the row. -/
theorem RowAt.source {y s c : ℕ} (hrow : RowAt fb w h y s c) (hx : x < w) :
    sourceRow fb h (s * fbWidth fb + c + x) = y ∧ sourceCol fb w (s * fbWidth fb + c + x) = x := by
  have hcol : c + x < fbWidth fb := by
    have := hrow.col_le
    omega
  have hdiv : (s * fbWidth fb + c + x) / fbWidth fb = s := by
    rw [Nat.add_assoc, Nat.add_comm, Nat.add_mul_div_right _ _ (by omega), Nat.div_eq_of_lt hcol,
      Nat.zero_add]
  have hmod : (s * fbWidth fb + c + x) % fbWidth fb = c + x := by
    rw [Nat.add_assoc, Nat.add_comm, Nat.add_mul_mod_self_right, Nat.mod_eq_of_lt hcol]
  have hrowEq := hrow.row_eq
  have hcolEq := hrow.col_eq
  unfold sourceRow sourceCol
  rw [hdiv, hmod]
  omega

theorem RowAt.covered {y s c : ℕ} (hrow : RowAt fb w h y s c) (hy : y < h) (hn : n ≤ w)
    (hx : x < n) : Covered fb w h n (s * fbWidth fb + c + x) := by
  obtain ⟨hrowEq, hcolEq⟩ := hrow.source (show x < w by omega)
  unfold Covered
  omega

theorem RowAt.index_lt {y s c : ℕ} (hrow : RowAt fb w h y s c) (hsmall : Small fb) (hx : x ≤ w) :
    s * fbWidth fb + c + x ≤ fb.pitch * fb.height / 4 := by
  have hcol := hrow.col_le
  have hmul := Nat.mul_le_mul_right (fbWidth fb) (Nat.succ_le_of_lt hrow.row_lt)
  rw [hsmall.capacity_eq, Nat.mul_comm (fbWidth fb)]
  rw [Nat.succ_mul] at hmul
  omega

/-- Every covered pixel belongs to a row that is drawn. -/
theorem Narrow.exists_row (hnarrow : Narrow fb w h) (hsmall : Small fb)
    (hi : i < fb.pitch * fb.height / 4) (hcovered : Covered fb w h n i) :
    ∃ y s c x : ℕ, y < h ∧ Visible fb h y ∧ RowAt fb w h y s c ∧ x < n ∧
      i = s * fbWidth fb + c + x := by
  obtain ⟨hrow, hrowLt, hcol, hcolLt⟩ := hcovered
  obtain ⟨y, hy⟩ := Int.eq_ofNat_of_zero_le hrow
  obtain ⟨x, hx⟩ := Int.eq_ofNat_of_zero_le hcol
  rw [hy] at hrowLt
  rw [hx] at hcolLt
  have hsplit : fbWidth fb * (i / fbWidth fb) + i % fbWidth fb = i := Nat.div_add_mod i _
  have hbottom : i / fbWidth fb < fb.height := by
    rw [hsmall.capacity_eq] at hi
    exact Nat.div_lt_of_lt_mul hi
  unfold sourceRow at hy
  unfold sourceCol at hx
  generalize i / fbWidth fb = q at hy hbottom hsplit
  generalize i % fbWidth fb = r at hx hsplit
  have hvisible : Visible fb h y := by
    rw [visible_iff hnarrow.rows_lt hnarrow.height_lt hrowLt]
    omega
  obtain ⟨s, c, hrowAt⟩ := hnarrow.rowAt hsmall hrowLt hvisible
  have hrowEq := hrowAt.row_eq
  have hcolEq := hrowAt.col_eq
  have hs : q = s := by omega
  have hc : r = c + x := by omega
  refine ⟨y, s, c, x, hrowLt, hvisible, hrowAt, hcolLt, ?_⟩
  rw [← hsplit, hs, hc, Nat.mul_comm, Nat.add_assoc]

/-! ## The two loops -/

/-- The bytes of the back buffer an operation writes. -/
def unpackWindow (backbuffer : ℕ) : DrawOp → ℕ → Prop
  | .unpack index _, x => backbuffer + 4 * index ≤ x ∧ x < backbuffer + 4 * (index + 8)
  | _, _ => False

/-- The bytes of the framebuffer an operation writes. -/
def copyWindow (vram : ℕ) : DrawOp → ℕ → Prop
  | .copy offset count, x => vram + 4 * offset ≤ x ∧ x < vram + 4 * offset + count
  | _, _ => False

/-- No byte of the frame that is read lies in the buffer. -/
def ReadsApart (fb : LimineFramebuffer) (buffer frame : ℕ) (w h : ℤ) : Prop :=
  ∀ y b : ℕ, y < h → Visible fb h y → b < bytesPerRow w → ¬ InBuffer fb buffer (srcAddr frame w y b)

theorem mem_visibleRows {ops : ℕ → List DrawOp} {op : DrawOp} :
    op ∈ (List.range h.toNat).flatMap (fun y => if Visible fb h y then ops y else []) ↔
      ∃ y : ℕ, y < h ∧ Visible fb h y ∧ op ∈ ops y := by
  simp only [List.mem_flatMap, List.mem_range]
  constructor
  · rintro ⟨y, hy, hop⟩
    split at hop
    next hvisible => exact ⟨y, by omega, hvisible, hop⟩
    next => exact absurd hop List.not_mem_nil
  · rintro ⟨y, hy, hvisible, hop⟩
    exact ⟨y, by omega, by rwa [if_pos hvisible]⟩

theorem mem_unpackRows {op : DrawOp} :
    op ∈ (List.range h.toNat).flatMap (unpackRow fb frame w h) ↔
      ∃ y b : ℕ, y < h ∧ Visible fb h y ∧ b < bytesPerRow w ∧
        op = .unpack (rowOffset fb w h y + 8 * b) (srcAddr frame w y b) := by
  refine mem_visibleRows.trans ⟨?_, ?_⟩
  · rintro ⟨y, hy, hvisible, hop⟩
    obtain ⟨b, hb, rfl⟩ := List.mem_map.mp hop
    rw [List.mem_range] at hb
    exact ⟨y, b, hy, hvisible, by omega, rfl⟩
  · rintro ⟨y, b, hy, hvisible, hb, rfl⟩
    exact ⟨y, hy, hvisible, List.mem_map.mpr ⟨b, List.mem_range.mpr (by omega), rfl⟩⟩

theorem mem_copyRows {op : DrawOp} :
    op ∈ (List.range h.toNat).flatMap (copyRow fb w h) ↔
      ∃ y : ℕ, y < h ∧ Visible fb h y ∧ op = .copy (rowOffset fb w h y) (rowCount w) := by
  refine mem_visibleRows.trans ?_
  simp only [List.mem_singleton]

/-- The byte belongs to a pixel in the first `n` columns of the frame. -/
def CoveredByte (fb : LimineFramebuffer) (buffer : ℕ) (w h n : ℤ) (x : ℕ) : Prop :=
  InBuffer fb buffer x ∧ Covered fb w h n ((x - buffer) / 4)

/-- The bytes of the first `n` columns, row by row. -/
theorem coveredByte_iff (hnarrow : Narrow fb w h) (hsmall : Small fb) {buffer : ℕ} (hn : n ≤ w) :
    CoveredByte fb buffer w h n x ↔ ∃ y : ℕ, y < h ∧ Visible fb h y ∧
      buffer + 4 * rowOffset fb w h y ≤ x ∧ (x : ℤ) < buffer + 4 * (rowOffset fb w h y + n) := by
  have hmultiple : 4 * (fb.pitch * fb.height / 4) ≤ fb.pitch * fb.height := Nat.mul_div_le _ _
  constructor
  · rintro ⟨⟨hlo, hhi⟩, hcovered⟩
    have hfour : fb.pitch * fb.height % 4 = 0 := by
      rw [Nat.mul_mod, hsmall.wellFormed.pitch_mod, Nat.zero_mul]
    obtain ⟨y, s, c, x', hy, hvisible, hrow, hx', hpixel⟩ :=
      hnarrow.exists_row hsmall (show (x - buffer) / 4 < fb.pitch * fb.height / 4 by omega) hcovered
    refine ⟨y, hy, hvisible, ?_⟩
    rw [hrow.offset_eq]
    omega
  · rintro ⟨y, hy, hvisible, hx⟩
    obtain ⟨s, c, hrow⟩ := hnarrow.rowAt hsmall hy hvisible
    rw [hrow.offset_eq] at hx
    obtain ⟨k, hk⟩ := Nat.exists_eq_add_of_le (show buffer + 4 * (s * fbWidth fb + c) ≤ x by omega)
    have hpixel : (x - buffer) / 4 = s * fbWidth fb + c + k / 4 := by omega
    have hlast := hrow.index_lt hsmall (x := k / 4 + 1) (by omega)
    refine ⟨⟨by omega, by omega⟩, ?_⟩
    rw [hpixel]
    exact hrow.covered hy hn (by omega)

theorem unpackRows_window (hnarrow : Narrow fb w h) (hsmall : Small fb) :
    (∃ op ∈ (List.range h.toNat).flatMap (unpackRow fb frame w h), unpackWindow backbuffer op x) ↔
      CoveredByte fb backbuffer w h (8 * bytesPerRow w) x := by
  have hbytes := bytesPerRow_eq hnarrow.nonneg
  rw [coveredByte_iff hnarrow hsmall (show 8 * (bytesPerRow w : ℤ) ≤ w by omega)]
  constructor
  · rintro ⟨op, hop, hx⟩
    obtain ⟨y, b, hy, hvisible, hb, rfl⟩ := mem_unpackRows.mp hop
    dsimp only [unpackWindow] at hx
    exact ⟨y, hy, hvisible, by omega, by omega⟩
  · rintro ⟨y, hy, hvisible, hlo, hhi⟩
    -- eight pixels come from byte `b` of the row
    obtain ⟨b, hb⟩ := Int.eq_ofNat_of_zero_le
      (show 0 ≤ (x - (backbuffer + 4 * rowOffset fb w h y)) / 32 by omega)
    refine ⟨_, mem_unpackRows.mpr ⟨y, b, hy, hvisible, by omega, rfl⟩, ?_⟩
    dsimp only [unpackWindow]
    omega

/-- The first loop puts the picture into the back buffer. -/
theorem unpackRows_effect (hnarrow : Narrow fb w h) (hbuffers : Buffers fb backbuffer)
    (hreads : ReadsApart fb backbuffer frame w h) (vram : ℕ) :
    (∀ x, CoveredByte fb backbuffer w h (8 * bytesPerRow w) x →
      ((List.range h.toNat).flatMap (unpackRow fb frame w h)).foldl (exec vram backbuffer) m x =
        imageByte (picture fb m frame w h) backbuffer x) ∧
    ∀ x, ¬ CoveredByte fb backbuffer w h (8 * bytesPerRow w) x →
      ((List.range h.toNat).flatMap (unpackRow fb frame w h)).foldl (exec vram backbuffer) m x =
        m x := by
  have hsmall := hbuffers.small
  have hfits := hbuffers.fits
  have hbytes := bytesPerRow_eq hnarrow.nonneg
  have hstep : ∀ op ∈ (List.range h.toNat).flatMap (unpackRow fb frame w h), ∀ m',
      (∀ x, ¬ InBuffer fb backbuffer x → m' x = m x) →
      (∀ x, ¬ InBuffer fb backbuffer x → exec vram backbuffer m' op x = m x) ∧
        ∀ x, (unpackWindow backbuffer op x → exec vram backbuffer m' op x =
          imageByte (picture fb m frame w h) backbuffer x) ∧
        (¬ unpackWindow backbuffer op x → exec vram backbuffer m' op x = m' x) := by
    intro op hop m' hsame
    have hinside : ∀ x, unpackWindow backbuffer op x → InBuffer fb backbuffer x := fun x hx =>
      ((unpackRows_window hnarrow hsmall).mp ⟨op, hop, hx⟩).1
    obtain ⟨y, b, hy, hvisible, hb, rfl⟩ := mem_unpackRows.mp hop
    obtain ⟨s, c, hrow⟩ := hnarrow.rowAt hsmall hy hvisible
    have hindex : rowOffset fb w h y + 8 * b = (s * fbWidth fb + c + 8 * b : ℕ) := by
      rw [hrow.offset_eq]
      push_cast
      rfl
    have hlast := hrow.index_lt hsmall (x := 8 * b + 8) (by omega)
    have hsource : m' (srcAddr frame w y b) = m (srcAddr frame w y b) :=
      hsame _ (hreads y b hy hvisible hb)
    have himage : ∀ k < 8, picture fb m frame w h (s * fbWidth fb + c + 8 * b + k) =
        colour ((m (srcAddr frame w y b)).toNat.testBit k) := by
      intro k hk
      obtain ⟨hrowEq, hcolEq⟩ := hrow.source (show (8 * b + k : ℕ) < w by omega)
      rw [← Nat.add_assoc] at hrowEq hcolEq
      have hdiv : (8 * b + k) / 8 = b := by omega
      have hbit : (8 * b + k) % 8 = k := by omega
      rw [picture, hrowEq, hcolEq, Int.toNat_natCast, Int.toNat_natCast, hdiv, hbit]
    have heffect : ∀ x, (unpackWindow backbuffer
          (.unpack (rowOffset fb w h y + 8 * b) (srcAddr frame w y b)) x →
        exec vram backbuffer m' (.unpack (rowOffset fb w h y + 8 * b) (srcAddr frame w y b)) x =
          imageByte (picture fb m frame w h) backbuffer x) ∧
        (¬ unpackWindow backbuffer
          (.unpack (rowOffset fb w h y + 8 * b) (srcAddr frame w y b)) x →
        exec vram backbuffer m' (.unpack (rowOffset fb w h y + 8 * b) (srcAddr frame w y b)) x =
          m' x) := by
      intro x
      obtain ⟨hin, hout⟩ := @unpackByte_window m' backbuffer x _
        (picture fb m frame w h) _ (by omega) himage
      dsimp only [exec, unpackWindow]
      rw [hindex, hsource]
      exact ⟨fun hx => hin (by omega), fun hx => hout (by omega)⟩
    refine ⟨fun x hx => ?_, heffect⟩
    rw [(heffect x).2 (fun hwindow => hx (hinside x hwindow)), hsame x hx]
  obtain ⟨-, heffect⟩ := Memory.foldl_windows _ (fun _ _ => rfl) hstep
  constructor
  · intro x hx
    exact (heffect x).1 ((unpackRows_window hnarrow hsmall).mpr hx)
  · intro x hx
    refine (heffect x).2 fun op hop hwindow => ?_
    exact hx ((unpackRows_window hnarrow hsmall).mp ⟨op, hop, hwindow⟩)

theorem Narrow.rowCount_eq (hnarrow : Narrow fb w h) (hsmall : Small fb) {y : ℕ}
    (hvisible : Visible fb h y) : (rowCount w : ℤ) = 4 * w := by
  have hwidth := hsmall.width_le
  have hle := hnarrow.width_le
  refine Display.rowCount_eq hnarrow.nonneg ?_
  rcases hsmall.bounds hvisible with hzero | ⟨-, -, hcols⟩ <;> omega

theorem copyRows_window (hnarrow : Narrow fb w h) (hsmall : Small fb) {vram : ℕ} :
    (∃ op ∈ (List.range h.toNat).flatMap (copyRow fb w h), copyWindow vram op x) ↔
      CoveredByte fb vram w h w x := by
  rw [coveredByte_iff hnarrow hsmall le_rfl]
  constructor
  · rintro ⟨op, hop, hx⟩
    obtain ⟨y, hy, hvisible, rfl⟩ := mem_copyRows.mp hop
    have hcount := hnarrow.rowCount_eq hsmall hvisible
    dsimp only [copyWindow] at hx
    exact ⟨y, hy, hvisible, by omega, by omega⟩
  · rintro ⟨y, hy, hvisible, hlo, hhi⟩
    have hcount := hnarrow.rowCount_eq hsmall hvisible
    refine ⟨_, mem_copyRows.mpr ⟨y, hy, hvisible, rfl⟩, ?_⟩
    dsimp only [copyWindow]
    omega

/-- The second loop copies the picture to the framebuffer. -/
theorem copyRows_effect (hnarrow : Narrow fb w h) (hbuffers : Buffers fb backbuffer) :
    (∀ x, CoveredByte fb fb.address w h w x →
      ((List.range h.toNat).flatMap (copyRow fb w h)).foldl (exec fb.address backbuffer) m x =
        m (backbuffer + (x - fb.address))) ∧
    ∀ x, ¬ CoveredByte fb fb.address w h w x →
      ((List.range h.toNat).flatMap (copyRow fb w h)).foldl (exec fb.address backbuffer) m x =
        m x := by
  have hsmall := hbuffers.small
  have hinside := hsmall.wellFormed.inside
  have hfits := hbuffers.fits
  have hapart := hbuffers.apart
  have hmultiple : 4 * (fb.pitch * fb.height / 4) ≤ fb.pitch * fb.height := Nat.mul_div_le _ _
  -- A copy reads the back buffer, which no copy writes, so it reads the picture on `m`.
  have hstep : ∀ op ∈ (List.range h.toNat).flatMap (copyRow fb w h), ∀ m',
      (∀ x, ¬ InBuffer fb fb.address x → m' x = m x) →
      (∀ x, ¬ InBuffer fb fb.address x → exec fb.address backbuffer m' op x = m x) ∧
        ∀ x, (copyWindow fb.address op x → exec fb.address backbuffer m' op x =
          m (backbuffer + (x - fb.address))) ∧
        (¬ copyWindow fb.address op x → exec fb.address backbuffer m' op x = m' x) := by
    intro op hop m' hsame
    have hinside' : ∀ x, copyWindow fb.address op x → InBuffer fb fb.address x := fun x hx =>
      ((copyRows_window hnarrow hsmall).mp ⟨op, hop, hx⟩).1
    obtain ⟨offset, count, rfl, hcount, hlast⟩ : ∃ offset count : ℕ,
        op = .copy offset count ∧ count = 4 * w.toNat ∧
          offset + w.toNat ≤ fb.pitch * fb.height / 4 := by
      obtain ⟨y, hy, hvisible, rfl⟩ := mem_copyRows.mp hop
      obtain ⟨s, c, hrow⟩ := hnarrow.rowAt hsmall hy hvisible
      have hcount := hnarrow.rowCount_eq hsmall hvisible
      have hnonneg := hnarrow.nonneg
      refine ⟨s * fbWidth fb + c, rowCount w, by rw [hrow.offset_eq], ?_, ?_⟩
      · generalize rowCount w = count at hcount
        omega
      · exact hrow.index_lt hsmall (by omega)
    have hexec : exec fb.address backbuffer m' (.copy offset count) =
        m'.blit (fb.address + 4 * offset) m' (backbuffer + 4 * offset) count := by
      dsimp only [exec]
      rw [pixelAddr_natCast (by omega), pixelAddr_natCast (by omega)]
      refine Libc.fastMemcpy_eq_blit ?_
      unfold Libc.Disjoint
      omega
    have heffect : ∀ x,
        (copyWindow fb.address (.copy offset count) x →
          exec fb.address backbuffer m' (.copy offset count) x =
            m (backbuffer + (x - fb.address))) ∧
        (¬ copyWindow fb.address (.copy offset count) x →
          exec fb.address backbuffer m' (.copy offset count) x = m' x) := by
      intro x
      rw [hexec]
      dsimp only [copyWindow]
      constructor
      · rintro ⟨hlo, hhi⟩
        obtain ⟨k, rfl⟩ := Nat.exists_eq_add_of_le
          (show fb.address + 4 * offset ≤ x by omega)
        have hsource : backbuffer + (fb.address + 4 * offset + k - fb.address) =
            backbuffer + 4 * offset + k := by omega
        rw [Memory.blit_inside (by omega), hsource]
        refine hsame _ ?_
        unfold InBuffer
        omega
      · intro hout
        exact Memory.blit_outside (by omega)
    refine ⟨fun x hx => ?_, heffect⟩
    rw [(heffect x).2 (fun hwindow => hx (hinside' x hwindow)), hsame x hx]
  obtain ⟨-, heffect⟩ := Memory.foldl_windows _ (fun _ _ => rfl) hstep
  constructor
  · intro x hx
    exact (heffect x).1 ((copyRows_window hnarrow hsmall).mpr hx)
  · intro x hx
    refine (heffect x).2 fun op hop hwindow => ?_
    exact hx ((copyRows_window hnarrow hsmall).mp ⟨op, hop, hwindow⟩)

/-! ## All rows -/

/-- The framebuffer shows the back buffer. -/
def Coherent (fb : LimineFramebuffer) (backbuffer : ℕ) (m : Memory) : Prop :=
  ∀ i < fb.pitch * fb.height, m (fb.address + i) = m (backbuffer + i)

/-- A pixel of the framebuffer. -/
def pixel (fb : LimineFramebuffer) (m : Memory) (i : ℕ) : ℕ := m.load (fb.address + 4 * i) 4

theorem colour_lt (bit : Bool) : colour bit < 256 ^ 4 := by
  cases bit <;> decide

/-- The columns the first loop draws. -/
def wholeCols (w : ℤ) : ℤ := 8 * bytesPerRow w

theorem Narrow.wholeCols_le (hnarrow : Narrow fb w h) : wholeCols w ≤ w := by
  rw [wholeCols, bytesPerRow_eq hnarrow.nonneg]
  omega

theorem Covered.mono {k : ℤ} (hcovered : Covered fb w h n i) (hle : n ≤ k) :
    Covered fb w h k i := by
  obtain ⟨hrow, hrowLt, hcol, hcolLt⟩ := hcovered
  exact ⟨hrow, hrowLt, hcol, by omega⟩

section Rows

variable (hnarrow : Narrow fb w h) (hbuffers : Buffers fb backbuffer)
  (hreads : ReadsApart fb backbuffer frame w h)

include hnarrow hbuffers hreads

/-- The memory after both loops: the back buffer holds the picture, and the rows
of the framebuffer are those of the back buffer. -/
theorem rowOps_bytes :
    (∀ x, CoveredByte fb backbuffer w h (wholeCols w) x →
      (rowOps fb frame w h).foldl (exec fb.address backbuffer) m x =
        imageByte (picture fb m frame w h) backbuffer x) ∧
    (∀ x, ¬ CoveredByte fb backbuffer w h (wholeCols w) x → ¬ CoveredByte fb fb.address w h w x →
      (rowOps fb frame w h).foldl (exec fb.address backbuffer) m x = m x) ∧
    ∀ x, CoveredByte fb fb.address w h w x →
      (rowOps fb frame w h).foldl (exec fb.address backbuffer) m x =
        (rowOps fb frame w h).foldl (exec fb.address backbuffer) m
          (backbuffer + (x - fb.address)) := by
  obtain ⟨hunpack, hkeep⟩ := unpackRows_effect (m := m) hnarrow hbuffers hreads fb.address
  rw [rowOps, List.foldl_append]
  generalize ((List.range h.toNat).flatMap (unpackRow fb frame w h)).foldl
    (exec fb.address backbuffer) m = middle at hunpack hkeep ⊢
  obtain ⟨hcopy, hkeep'⟩ := copyRows_effect (m := middle) hnarrow hbuffers
  have hapart := hbuffers.apart
  have hback : ∀ x, InBuffer fb backbuffer x → ¬ CoveredByte fb fb.address w h w x := by
    rintro x hback ⟨hfront, -⟩
    unfold InBuffer at hfront hback
    omega
  refine ⟨fun x hx => ?_, fun x hx hfront => ?_, fun x hx => ?_⟩
  · rw [hkeep' x (hback x hx.1), hunpack x hx]
  · rw [hkeep' x hfront, hkeep x hx]
  · obtain ⟨hlo, hhi⟩ := hx.1
    have hsource : InBuffer fb backbuffer (backbuffer + (x - fb.address)) := ⟨by omega, by omega⟩
    rw [hcopy x hx, hkeep' _ (hback _ hsource)]

variable (hcoherent : Coherent fb backbuffer m)

include hcoherent

/-- Buffers that agree before the call agree after it. -/
theorem rowOps_coherent :
    Coherent fb backbuffer ((rowOps fb frame w h).foldl (exec fb.address backbuffer) m) := by
  obtain ⟨-, hkeep, hcopy⟩ := rowOps_bytes (m := m) hnarrow hbuffers hreads
  have hapart := hbuffers.apart
  intro i hi
  have hnotFront : ¬ InBuffer fb fb.address (backbuffer + i) := by
    unfold InBuffer
    omega
  have hnotBack : ¬ InBuffer fb backbuffer (fb.address + i) := by
    unfold InBuffer
    omega
  have hoffset : fb.address + i - fb.address = i := by omega
  have hoffset' : backbuffer + i - backbuffer = i := by omega
  by_cases hcovered : Covered fb w h w (i / 4)
  · have hfront : CoveredByte fb fb.address w h w (fb.address + i) :=
      ⟨⟨by omega, by omega⟩, by rwa [hoffset]⟩
    rw [hcopy _ hfront, hoffset]
  · have hfront : ¬ CoveredByte fb fb.address w h w (fb.address + i) := by
      rintro ⟨-, hx⟩
      rw [hoffset] at hx
      exact hcovered hx
    have hback : ¬ CoveredByte fb backbuffer w h (wholeCols w) (backbuffer + i) := by
      rintro ⟨-, hx⟩
      rw [hoffset'] at hx
      exact hcovered (hx.mono hnarrow.wholeCols_le)
    rw [hkeep _ (fun hx => hnotBack hx.1) hfront, hkeep _ hback (fun hx => hnotFront hx.1),
      hcoherent i hi]

/-- The framebuffer's pixel is that of the back buffer. -/
theorem rowOps_pixel (hi : i < fb.pitch * fb.height / 4) :
    pixel fb ((rowOps fb frame w h).foldl (exec fb.address backbuffer) m) i =
      Memory.load ((rowOps fb frame w h).foldl (exec fb.address backbuffer) m)
        (backbuffer + 4 * i) 4 := by
  have hafter := rowOps_coherent hnarrow hbuffers hreads hcoherent
  unfold pixel
  generalize (rowOps fb frame w h).foldl (exec fb.address backbuffer) m = m' at hafter
  refine Memory.load_congr_at fun j hj => ?_
  rw [Nat.add_assoc, hafter (4 * i + j) (by omega), Nat.add_assoc]

theorem rowOps_pixel_covered (hi : i < fb.pitch * fb.height / 4)
    (hcovered : Covered fb w h (wholeCols w) i) :
    pixel fb ((rowOps fb frame w h).foldl (exec fb.address backbuffer) m) i =
      picture fb m frame w h i := by
  obtain ⟨hback, -, -⟩ := rowOps_bytes (m := m) hnarrow hbuffers hreads
  have hbytes : ∀ j < 4, (rowOps fb frame w h).foldl (exec fb.address backbuffer) m
      (backbuffer + 4 * i + j) = UInt8.ofNat (picture fb m frame w h i / 256 ^ j) := by
    intro j hj
    have hdiv : (backbuffer + 4 * i + j - backbuffer) / 4 = i := by omega
    have hmod : (backbuffer + 4 * i + j - backbuffer) % 4 = j := by omega
    rw [hback _ ⟨⟨by omega, by omega⟩, by rwa [hdiv]⟩, imageByte, hdiv, hmod]
  have hlt : picture fb m frame w h i < 256 ^ 4 := colour_lt _
  rw [rowOps_pixel hnarrow hbuffers hreads hcoherent hi, Memory.load_eq_of_bytes hbytes,
    Nat.mod_eq_of_lt hlt]

theorem rowOps_pixel_kept (hi : i < fb.pitch * fb.height / 4)
    (hcovered : ¬ Covered fb w h (wholeCols w) i) :
    pixel fb ((rowOps fb frame w h).foldl (exec fb.address backbuffer) m) i = pixel fb m i := by
  obtain ⟨-, hkeep, -⟩ := rowOps_bytes (m := m) hnarrow hbuffers hreads
  have hapart := hbuffers.apart
  rw [rowOps_pixel hnarrow hbuffers hreads hcoherent hi, pixel]
  refine Memory.load_congr_at fun j hj => ?_
  have hback : ¬ CoveredByte fb backbuffer w h (wholeCols w) (backbuffer + 4 * i + j) := by
    rintro ⟨-, hx⟩
    have hdiv : (backbuffer + 4 * i + j - backbuffer) / 4 = i := by omega
    rw [hdiv] at hx
    exact hcovered hx
  have hfront : ¬ CoveredByte fb fb.address w h w (backbuffer + 4 * i + j) := by
    rintro ⟨hx, -⟩
    unfold InBuffer at hx
    omega
  rw [hkeep _ hback hfront, Nat.add_assoc, Nat.add_assoc, hcoherent (4 * i + j) (by omega)]

end Rows

/-- The first call leaves both buffers zero and everything else alone. -/
theorem openOps_effect (hbuffers : Buffers fb backbuffer) :
    (∀ x, InBuffer fb backbuffer x ∨ InBuffer fb fb.address x →
      (openOps fb).foldl (exec fb.address backbuffer) m x = 0) ∧
    ∀ x, ¬ InBuffer fb backbuffer x → ¬ InBuffer fb fb.address x →
      (openOps fb).foldl (exec fb.address backbuffer) m x = m x := by
  have hsize := hbuffers.small.size_le
  have hinside := hbuffers.small.wellFormed.inside
  have hfits := hbuffers.fits
  have hapart := hbuffers.apart
  have hcount : bufferSize fb = fb.pitch * fb.height := by
    unfold bufferSize
    omega
  have haddr : ∀ buffer < 2 ^ 64, pixelAddr buffer 0 = buffer := by
    intro buffer hbuffer
    unfold pixelAddr CInt.toU64
    omega
  have hmemory : (openOps fb).foldl (exec fb.address backbuffer) m =
      (m.fill backbuffer (fb.pitch * fb.height) 0).blit fb.address
        (m.fill backbuffer (fb.pitch * fb.height) 0) backbuffer (fb.pitch * fb.height) := by
    simp only [openOps, List.foldl_cons, List.foldl_nil, exec]
    rw [haddr _ (by omega), haddr _ (by omega), hcount, Libc.memset_zero,
      Libc.fastMemcpy_eq_blit]
    unfold Libc.Disjoint
    omega
  rw [hmemory]
  unfold InBuffer
  constructor
  · intro x hx
    by_cases hfront : fb.address ≤ x ∧ x < fb.address + fb.pitch * fb.height
    · obtain ⟨k, rfl⟩ := Nat.exists_eq_add_of_le hfront.1
      rw [Memory.blit_inside (by omega), Memory.fill_inside (by omega) (by omega)]
    · rw [Memory.blit_outside (by omega), Memory.fill_inside (by omega) (by omega)]
  · intro x hback hfront
    rw [Memory.blit_outside (by omega), Memory.fill_outside (by omega)]

end BadOS.Kernel.Display
