import BadOS.Kernel.Display
import BadOS.Kernel.HeapRuns

/-! # Where a frame is drawn

Rows are clipped at the top and the bottom, but a row is as wide as the caller
says. Which arguments keep every pixel inside the buffers.
-/

namespace BadOS.Kernel

/-- What the bootloader promises of a framebuffer. -/
structure LimineFramebuffer.WellFormed (fb : LimineFramebuffer) : Prop where
  pitch_mod : fb.pitch % 4 = 0
  width_le : 4 * fb.width ≤ fb.pitch
  inside : fb.address + fb.pitch * fb.height < 2 ^ 64

/-- The pixels an operation writes or copies. -/
def DrawOp.Touches : DrawOp → ℤ → Prop
  | .clear count, i => ∃ k < count, i = (k / 4 : ℕ)
  | .copy offset count, i => ∃ k < count, i = offset + (k / 4 : ℕ)
  | .unpack index _, i => index ≤ i ∧ i < index + 8

namespace Display

/-- Every pixel written or copied lies in the buffers. -/
def InBounds (fb : LimineFramebuffer) (ops : List DrawOp) : Prop :=
  ∀ op ∈ ops, ∀ i, op.Touches i → 0 ≤ i ∧ i < (fb.pitch * fb.height / 4 : ℕ)

/-- The first row drawn. -/
def firstRow (fb : LimineFramebuffer) (h : ℤ) : ℤ := max 0 ((fb.height - h) / 2)

/-- The last row drawn. -/
def lastRow (fb : LimineFramebuffer) (h : ℤ) : ℤ := min (fb.height : ℤ) ((fb.height + h) / 2) - 1

/-- No row is drawn; or the width is that of the framebuffer at most; or its
length in bytes wraps to zero; or what is too wide on the left and on the right
lies in the rows above the first one and below the last one. -/
def SafeArguments (fb : LimineFramebuffer) (w h : ℤ) : Prop :=
  (∀ y : ℕ, y < h → ¬ Visible fb h y) ∨ (0 ≤ w ∧ w ≤ fb.width) ∨ w = -2 ^ 30 ∨ w = -2 ^ 31 ∨
    (fb.width < w ∧ (w - fb.width + 1) / 2 ≤ firstRow fb h * fbWidth fb ∧
      (w + fb.width) / 2 ≤ (fb.height - lastRow fb h) * fbWidth fb)

variable {fb : LimineFramebuffer} {w h : ℤ} {frame extent y : ℕ} {n : ℤ} {ops ops' : List DrawOp}

/-! ## The arithmetic of the call -/

/-- Wrapping and truncation give the rounded half of a negative difference. -/
theorem centre_eq (hextent : extent < 2 ^ 31) (hlo : -2 ^ 31 ≤ n) (hhi : n < 2 ^ 31) :
    centre extent n = (extent - n) / 2 := by
  unfold centre
  by_cases hle : n ≤ extent
  · have hvalue : ((CInt.toU64 (extent - n) / 2 : ℕ) : ℤ) = (extent - n) / 2 := by
      unfold CInt.toU64
      omega
    rw [hvalue, CInt.toI32_of_range (by omega) (by omega)]
  · have hvalue : ((CInt.toU64 (extent - n) / 2 : ℕ) : ℤ) =
        (extent - n) / 2 + 2 ^ 31 * 2 ^ 32 := by
      unfold CInt.toU64
      omega
    rw [hvalue, CInt.toI32_add_mul, CInt.toI32_of_range (by omega) (by omega)]

theorem screenY_eq (hheight : fb.height < 2 ^ 31) (hh : h < 2 ^ 31) (hy : y < h) :
    screenY fb h y = (fb.height - h) / 2 + y := by
  rw [screenY, startY, centre_eq hheight (by omega) hh, CInt.toI32_of_range (by omega) (by omega)]

theorem visible_iff (hheight : fb.height < 2 ^ 31) (hh : h < 2 ^ 31) (hy : y < h) :
    Visible fb h y ↔ 0 ≤ (fb.height - h) / 2 + y ∧ (fb.height - h) / 2 + y < fb.height := by
  rw [Visible, screenY_eq hheight hh hy, CInt.toI32_natCast hheight, not_or, not_lt, not_le]

theorem bytesPerRow_eq (hw : 0 ≤ w) : bytesPerRow w = w / 8 := Int.tdiv_eq_ediv_of_nonneg hw

theorem bytesPerRow_nonpos (hw : w ≤ 0) : bytesPerRow w ≤ 0 := by
  obtain ⟨n, rfl⟩ := Int.exists_eq_neg_ofNat hw
  have hdiv : (n : ℤ).tdiv 8 = (n / 8 : ℕ) := rfl
  rw [bytesPerRow, Int.neg_tdiv, hdiv]
  omega

theorem rowCount_eq (hlo : 0 ≤ w) (hhi : w < 2 ^ 29) : (rowCount w : ℤ) = 4 * w := by
  rw [rowCount, CInt.toI32_of_range (by omega) (by omega)]
  unfold CInt.toU64
  omega

/-- The length in bytes of a negative width is zero, or enormous, or that of a
width below `-2 ^ 29`. -/
theorem rowCount_of_neg (hlo : -2 ^ 31 ≤ w) (hneg : w < 0) :
    (rowCount w = 0 ↔ w = -2 ^ 30 ∨ w = -2 ^ 31) ∧ (-2 ^ 29 ≤ w → 2 ^ 63 ≤ rowCount w) := by
  obtain ⟨k, hk⟩ := CInt.exists_toI32_add_mul (w * 4)
  obtain ⟨hlo', hhi'⟩ := CInt.toI32_bounds (w * 4)
  unfold rowCount
  generalize CInt.toI32 (w * 4) = v at hk hlo' hhi' ⊢
  unfold CInt.toU64
  constructor
  · constructor <;> omega
  · omega

/-! ## The rows of a call -/

theorem inBounds_append :
    InBounds fb (ops ++ ops') ↔ InBounds fb ops ∧ InBounds fb ops' := by
  unfold InBounds
  exact List.forall_mem_append

theorem inBounds_flatMap {f : ℕ → List DrawOp} :
    InBounds fb ((List.range h.toNat).flatMap f) ↔ ∀ y : ℕ, y < h → InBounds fb (f y) := by
  have hrange : ∀ y : ℕ, y < h.toNat ↔ (y : ℤ) < h := fun y => by omega
  unfold InBounds
  simp only [List.mem_flatMap, List.mem_range, hrange, forall_exists_index, and_imp]
  constructor
  · exact fun hall y hy op hop => hall op y hy hop
  · exact fun hall op y hy hop => hall y hy op hop

/-- The `n` pixels from `offset` lie in the buffers. -/
def Fits (fb : LimineFramebuffer) (offset n : ℤ) : Prop :=
  0 ≤ offset ∧ offset + n ≤ (fb.pitch * fb.height / 4 : ℕ)

theorem inBounds_unpackRow (hvisible : Visible fb h y) :
    InBounds fb (unpackRow fb frame w h y) ↔
      (0 < bytesPerRow w → Fits fb (rowOffset fb w h y) (8 * bytesPerRow w)) := by
  unfold InBounds Fits
  rw [unpackRow, if_pos hvisible]
  simp only [List.mem_map, List.mem_range, forall_exists_index, and_imp, forall_apply_eq_imp_iff₂,
    DrawOp.Touches]
  constructor
  · intro hall hpos
    have hfirst := hall 0 (by omega) (rowOffset fb w h y) (by omega) (by omega)
    have hlast := hall ((bytesPerRow w).toNat - 1) (by omega)
      (rowOffset fb w h y + 8 * bytesPerRow w - 1) (by omega) (by omega)
    omega
  · intro hfits b hb i hlo hhi
    have hrow := hfits (by omega)
    omega

theorem inBounds_copyRow (hvisible : Visible fb h y) :
    InBounds fb (copyRow fb w h y) ↔
      (0 < rowCount w → Fits fb (rowOffset fb w h y) ((rowCount w + 3) / 4 : ℕ)) := by
  unfold InBounds Fits
  rw [copyRow, if_pos hvisible]
  simp only [List.mem_singleton, forall_eq, DrawOp.Touches, forall_exists_index, and_imp]
  constructor
  · intro hall hpos
    have hfirst := hall _ 0 hpos rfl
    have hlast := hall _ (rowCount w - 1) (by omega) rfl
    omega
  · intro hfits i k hk hi
    have hrow := hfits (by omega)
    omega

/-- The rows that are not skipped decide. -/
theorem inBounds_rowOps :
    InBounds fb (rowOps fb frame w h) ↔ ∀ y : ℕ, y < h → Visible fb h y →
      (0 < bytesPerRow w → Fits fb (rowOffset fb w h y) (8 * bytesPerRow w)) ∧
      (0 < rowCount w → Fits fb (rowOffset fb w h y) ((rowCount w + 3) / 4 : ℕ)) := by
  rw [rowOps, inBounds_append, inBounds_flatMap, inBounds_flatMap]
  constructor
  · rintro ⟨hunpack, hcopy⟩ y hy hvisible
    exact ⟨(inBounds_unpackRow hvisible).mp (hunpack y hy),
      (inBounds_copyRow hvisible).mp (hcopy y hy)⟩
  · intro hall
    constructor
    · intro y hy
      by_cases hvisible : Visible fb h y
      · exact (inBounds_unpackRow hvisible).mpr (hall y hy hvisible).1
      · rw [unpackRow, if_neg hvisible]
        exact fun op hop => absurd hop List.not_mem_nil
    · intro y hy
      by_cases hvisible : Visible fb h y
      · exact (inBounds_copyRow hvisible).mpr (hall y hy hvisible).2
      · rw [copyRow, if_neg hvisible]
        exact fun op hop => absurd hop List.not_mem_nil

/-! ## The arguments that stay inside -/

/-- A framebuffer whose back buffer fits in the kernel's heap. -/
structure Small (fb : LimineFramebuffer) : Prop where
  wellFormed : fb.WellFormed
  size_le : fb.pitch * fb.height ≤ 2 ^ 24

theorem Small.capacity_eq (hsmall : Small fb) :
    fb.pitch * fb.height / 4 = fbWidth fb * fb.height := by
  have hmod := hsmall.wellFormed.pitch_mod
  have hpitch : fb.pitch = 4 * fbWidth fb := by
    unfold fbWidth
    omega
  rw [hpitch, Nat.mul_assoc, Nat.mul_div_cancel_left _ (by decide)]

theorem Small.width_le (hsmall : Small fb) : fb.width ≤ fbWidth fb := by
  have hwidth := hsmall.wellFormed.width_le
  unfold fbWidth
  omega

/-- With a row to draw, either rows have no pixels or all extents are small. -/
theorem Small.bounds (hsmall : Small fb) (hvisible : Visible fb h y) :
    fbWidth fb = 0 ∨ 0 < fb.height ∧ fb.height ≤ 2 ^ 22 ∧ fbWidth fb ≤ 2 ^ 22 := by
  have hcapacity := hsmall.capacity_eq
  have hsize := hsmall.size_le
  rcases Nat.eq_zero_or_pos (fbWidth fb) with hzero | hpos
  · exact Or.inl hzero
  · rcases Nat.eq_zero_or_pos fb.height with hheight | hheight
    · rw [Visible, hheight, CInt.toI32_natCast (by decide)] at hvisible
      omega
    · refine Or.inr ⟨hheight, ?_, ?_⟩
      · have := Nat.le_mul_of_pos_left fb.height hpos
        omega
      · have := Nat.le_mul_of_pos_right (fbWidth fb) hheight
        omega

/-- A row drawn, with all its quantities in range. -/
structure Drawn (fb : LimineFramebuffer) (w h : ℤ) (y : ℕ) : Prop where
  screenY_eq : screenY fb h y = (fb.height - h) / 2 + y
  top : 0 ≤ screenY fb h y
  bottom : screenY fb h y < fb.height
  offset_eq : rowOffset fb w h y = screenY fb h y * fbWidth fb + (fb.width - w) / 2
  inside : screenY fb h y * fbWidth fb + fbWidth fb ≤ (fb.pitch * fb.height / 4 : ℕ)

theorem Small.drawn (hsmall : Small fb) (hw : -2 ^ 31 ≤ w ∧ w < 2 ^ 31) (hh : h < 2 ^ 31)
    (hy : y < h) (hvisible : Visible fb h y) (hpos : 0 < fbWidth fb) : Drawn fb w h y := by
  obtain ⟨-, hheight, hrow⟩ := (hsmall.bounds hvisible).resolve_left (by omega)
  have hwidth := hsmall.width_le
  have heq : screenY fb h y = (fb.height - h) / 2 + y := screenY_eq (by omega) hh hy
  obtain ⟨htop, hbottom⟩ := (visible_iff (by omega) hh hy).mp hvisible
  rw [← heq] at htop hbottom
  refine ⟨heq, htop, hbottom, ?_, ?_⟩
  · rw [rowOffset, startX, centre_eq (by omega) hw.1 hw.2]
  · have hmul : (screenY fb h y + 1) * fbWidth fb ≤ fb.height * fbWidth fb :=
      Int.mul_le_mul_of_nonneg_right (by omega) (by omega)
    rw [hsmall.capacity_eq, Nat.cast_mul, mul_comm (fbWidth fb : ℤ)]
    rwa [add_one_mul] at hmul

theorem Drawn.fits_of_le (hdrawn : Drawn fb w h y) {n : ℤ} (hle : n ≤ w)
    (hleft : 0 ≤ screenY fb h y * fbWidth fb + (fb.width - w) / 2)
    (hright : screenY fb h y * fbWidth fb + (fb.width + w) / 2 ≤
      (fb.pitch * fb.height / 4 : ℕ)) : Fits fb (rowOffset fb w h y) n := by
  unfold Fits
  rw [hdrawn.offset_eq]
  omega

/-- The pixels unpacked and copied are at most the width asked for. -/
theorem lengths_le (hlo : 0 ≤ w) (hhi : w < 2 ^ 29) :
    8 * bytesPerRow w ≤ w ∧ ((rowCount w + 3) / 4 : ℕ) = w := by
  have hcount := rowCount_eq hlo hhi
  rw [bytesPerRow_eq hlo]
  omega

theorem Small.fits_of_width_le (hsmall : Small fb) (hh : h < 2 ^ 31) (hlo : 0 ≤ w)
    (hle : w ≤ fb.width) (hw : w < 2 ^ 31) (hy : y < h) (hvisible : Visible fb h y) :
    (0 < bytesPerRow w → Fits fb (rowOffset fb w h y) (8 * bytesPerRow w)) ∧
      (0 < rowCount w → Fits fb (rowOffset fb w h y) ((rowCount w + 3) / 4 : ℕ)) := by
  have hwidth := hsmall.width_le
  have hbounds := hsmall.bounds hvisible
  obtain ⟨hbytes, hcount⟩ := lengths_le hlo (by omega)
  rcases Nat.eq_zero_or_pos (fbWidth fb) with hzero | hpos
  · exact ⟨fun _ => by omega, fun _ => by omega⟩
  · have hdrawn := hsmall.drawn (w := w) ⟨by omega, hw⟩ hh hy hvisible hpos
    have htop := mul_nonneg hdrawn.top (Int.natCast_nonneg (fbWidth fb))
    have hinside := hdrawn.inside
    clear hbounds
    have hleft : 0 ≤ screenY fb h y * fbWidth fb + (fb.width - w) / 2 := by omega
    have hright : screenY fb h y * fbWidth fb + (fb.width + w) / 2 ≤
        (fb.pitch * fb.height / 4 : ℕ) := by omega
    exact ⟨fun _ => hdrawn.fits_of_le hbytes hleft hright,
      fun _ => hdrawn.fits_of_le hcount.le hleft hright⟩

/-- A row between the first and the last. -/
theorem Drawn.between (hdrawn : Drawn fb w h y) (hy : y < h) :
    firstRow fb h ≤ screenY fb h y ∧ screenY fb h y ≤ lastRow fb h := by
  have heq := hdrawn.screenY_eq
  have htop := hdrawn.top
  have hbottom := hdrawn.bottom
  unfold firstRow lastRow
  omega

theorem Small.fits_of_margins (hsmall : Small fb) (hw : w < 2 ^ 31) (hh : h < 2 ^ 31)
    (hwide : fb.width < w) (hleft : (w - fb.width + 1) / 2 ≤ firstRow fb h * fbWidth fb)
    (hright : (w + fb.width) / 2 ≤ (fb.height - lastRow fb h) * fbWidth fb) (hy : y < h)
    (hvisible : Visible fb h y) :
    (0 < bytesPerRow w → Fits fb (rowOffset fb w h y) (8 * bytesPerRow w)) ∧
      (0 < rowCount w → Fits fb (rowOffset fb w h y) ((rowCount w + 3) / 4 : ℕ)) := by
  have hpos : 0 < fbWidth fb := by
    rcases Nat.eq_zero_or_pos (fbWidth fb) with hzero | hpos
    · rw [hzero, Nat.cast_zero, mul_zero] at hleft
      omega
    · exact hpos
  have hdrawn := hsmall.drawn (w := w) ⟨by omega, hw⟩ hh hy hvisible hpos
  obtain ⟨hfirst, hlast⟩ := hdrawn.between hy
  have hcapacity : ((fb.pitch * fb.height / 4 : ℕ) : ℤ) = fb.height * fbWidth fb := by
    rw [hsmall.capacity_eq, Nat.cast_mul, mul_comm]
  have hsize := hsmall.size_le
  have hfirst' := mul_le_mul_of_nonneg_right hfirst (Int.natCast_nonneg (fbWidth fb))
  have hlast' := mul_le_mul_of_nonneg_right hlast (Int.natCast_nonneg (fbWidth fb))
  have hlast_nonneg := mul_nonneg (hdrawn.top.trans hlast) (Int.natCast_nonneg (fbWidth fb))
  rw [sub_mul] at hright
  -- The row index hides conversions, so the steps below treat it as opaque.
  have hround : (fb.width - w) / 2 = -((w - fb.width + 1) / 2) := by omega
  have hleft' : 0 ≤ screenY fb h y * fbWidth fb + (fb.width - w) / 2 := by
    rw [hround]
    linarith
  have hright' : screenY fb h y * fbWidth fb + (fb.width + w) / 2 ≤
      (fb.pitch * fb.height / 4 : ℕ) := by
    rw [add_comm (fb.width : ℤ) w]
    linarith
  have hcapacity' : ((fb.pitch * fb.height / 4 : ℕ) : ℤ) ≤ 2 ^ 22 := by
    clear hright' hleft' hcapacity
    omega
  have hhalf : (w + fb.width) / 2 ≤ 2 ^ 22 := by linarith
  have hnarrow : w < 2 ^ 29 := by
    clear * - hhalf hwide
    omega
  obtain ⟨hbytes, hcount⟩ := lengths_le (show 0 ≤ w by omega) hnarrow
  exact ⟨fun _ => hdrawn.fits_of_le hbytes hleft' hright',
    fun _ => hdrawn.fits_of_le hcount.le hleft' hright'⟩

/-- The first and the last row of the screen that a call draws. -/
theorem Small.exists_row (hsmall : Small fb) (hh : h < 2 ^ 31) (hy : y < h)
    (hvisible : Visible fb h y) (hpos : 0 < fbWidth fb) {s : ℤ}
    (hs : s = firstRow fb h ∨ s = lastRow fb h) :
    ∃ z : ℕ, z < h ∧ Visible fb h z ∧ screenY fb h z = s := by
  obtain ⟨hheight, hrows, -⟩ := (hsmall.bounds hvisible).resolve_left (by omega)
  have hvalue : ∃ z : ℕ, z < h ∧ (fb.height - h) / 2 + z = s ∧ 0 ≤ s ∧ s < fb.height := by
    refine ⟨(s - (fb.height - h) / 2).toNat, ?_⟩
    unfold firstRow lastRow at hs
    omega
  obtain ⟨z, hz, hzs, htop, hbottom⟩ := hvalue
  refine ⟨z, hz, (visible_iff (by omega) hh hz).mpr ?_, ?_⟩
  · rw [hzs]
    exact ⟨htop, hbottom⟩
  · rw [screenY_eq (by omega) hh hz, hzs]

/-- A row wider than the framebuffer fits only between the margins. -/
theorem Small.margins_of_fits (hsmall : Small fb) (hw : w < 2 ^ 31) (hh : h < 2 ^ 31)
    (hwide : fb.width < w) (hy : y < h) (hvisible : Visible fb h y)
    (hfits : ∀ z : ℕ, z < h → Visible fb h z →
      (0 < bytesPerRow w → Fits fb (rowOffset fb w h z) (8 * bytesPerRow w)) ∧
      (0 < rowCount w → Fits fb (rowOffset fb w h z) ((rowCount w + 3) / 4 : ℕ))) :
    (w - fb.width + 1) / 2 ≤ firstRow fb h * fbWidth fb ∧
      (w + fb.width) / 2 ≤ (fb.height - lastRow fb h) * fbWidth fb := by
  have hsize := hsmall.size_le
  have hcapacity := hsmall.capacity_eq
  have hnarrow : w < 2 ^ 29 := by
    by_contra hlarge
    have hbytes := bytesPerRow_eq (show 0 ≤ w by omega)
    obtain ⟨hlo, hhi⟩ := (hfits y hy hvisible).1 (by omega)
    have hcap : ((fb.pitch * fb.height / 4 : ℕ) : ℤ) ≤ 2 ^ 22 := by
      clear * - hsize
      omega
    have hlength : 8 * bytesPerRow w ≤ 2 ^ 22 := by linarith
    rw [hbytes] at hlength
    clear * - hlength hlarge
    omega
  have hcount := rowCount_eq (show 0 ≤ w by omega) hnarrow
  have hpixels : ((rowCount w + 3) / 4 : ℕ) = w := (lengths_le (by omega) hnarrow).2
  have hrow : ∀ z : ℕ, z < h → Visible fb h z → Fits fb (rowOffset fb w h z) w := by
    intro z hz hvisible'
    have := (hfits z hz hvisible').2 (by omega)
    rwa [hpixels] at this
  have hpos : 0 < fbWidth fb := by
    rcases Nat.eq_zero_or_pos (fbWidth fb) with hzero | hpos
    · obtain ⟨hlo, hhi⟩ := hrow y hy hvisible
      rw [hcapacity, hzero, Nat.zero_mul, Nat.cast_zero] at hhi
      linarith [Int.natCast_nonneg fb.width]
    · exact hpos
  -- The first row reaches farthest to the left, the last one farthest to the right.
  obtain ⟨z, hz, hzvisible, hzfirst⟩ := hsmall.exists_row hh hy hvisible hpos (Or.inl rfl)
  obtain ⟨z', hz', hzvisible', hzlast⟩ := hsmall.exists_row hh hy hvisible hpos (Or.inr rfl)
  have hdrawn := hsmall.drawn (w := w) ⟨by omega, hw⟩ hh hz hzvisible hpos
  have hdrawn' := hsmall.drawn (w := w) ⟨by omega, hw⟩ hh hz' hzvisible' hpos
  have hleft := (hrow z hz hzvisible).1
  have hright := (hrow z' hz' hzvisible').2
  rw [hdrawn.offset_eq, hzfirst] at hleft
  rw [hdrawn'.offset_eq, hzlast, hcapacity, Nat.cast_mul, mul_comm (fbWidth fb : ℤ)] at hright
  have hround : (fb.width - w) / 2 = -((w - fb.width + 1) / 2) := by
    clear * -
    omega
  have hround' : (fb.width - w) / 2 + w = (w + fb.width) / 2 := by
    clear * -
    omega
  constructor
  · linarith
  · rw [sub_mul]
    linarith

/-- Of the negative widths, only those whose row has no bytes draw nothing outside. -/
theorem Small.neg_of_fits (hsmall : Small fb) (hw : -2 ^ 31 ≤ w) (hneg : w < 0)
    (hvisible : Visible fb h y)
    (hfits : 0 < rowCount w → Fits fb (rowOffset fb w h y) ((rowCount w + 3) / 4 : ℕ)) :
    w = -2 ^ 30 ∨ w = -2 ^ 31 := by
  obtain ⟨hzero, hlarge⟩ := rowCount_of_neg hw hneg
  by_contra hne
  have hcount : 0 < rowCount w := Nat.pos_of_ne_zero (hzero.not.mpr hne)
  obtain ⟨hlo, hhi⟩ := hfits hcount
  have hsize := hsmall.size_le
  have hcap : ((fb.pitch * fb.height / 4 : ℕ) : ℤ) ≤ 2 ^ 22 := by
    clear * - hsize
    omega
  have hlength : (((rowCount w + 3) / 4 : ℕ) : ℤ) ≤ 2 ^ 22 := by linarith
  have hbelow : w < -2 ^ 29 := by
    by_contra habove
    have := hlarge (not_lt.mp habove)
    omega
  have hwidth : fb.width ≤ 2 ^ 22 := by
    have hle := hsmall.width_le
    rcases hsmall.bounds hvisible with hnone | ⟨-, -, hrow⟩ <;> omega
  have htop : 0 ≤ screenY fb h y := by
    by_contra hnot
    exact hvisible (Or.inl (not_le.mp hnot))
  have hoffset : rowOffset fb w h y = screenY fb h y * fbWidth fb + (fb.width - w) / 2 := by
    rw [rowOffset, startX, centre_eq (by omega) hw (by omega)]
  have hstart := mul_nonneg htop (Int.natCast_nonneg (fbWidth fb))
  have hhalf : 2 ^ 28 ≤ (fb.width - w) / 2 := by
    clear * - hbelow
    omega
  rw [hoffset] at hhi
  linarith [Int.natCast_nonneg ((rowCount w + 3) / 4)]

/-- The rows of a call stay inside the buffers exactly for safe arguments. -/
theorem Small.rowOps_iff (hsmall : Small fb) (hw : -2 ^ 31 ≤ w ∧ w < 2 ^ 31) (hh : h < 2 ^ 31) :
    InBounds fb (rowOps fb frame w h) ↔ SafeArguments fb w h := by
  rw [inBounds_rowOps]
  constructor
  · intro hfits
    by_cases hnone : ∀ y : ℕ, y < h → ¬ Visible fb h y
    · exact Or.inl hnone
    · simp only [not_forall, not_not] at hnone
      obtain ⟨y, hy, hvisible⟩ := hnone
      right
      rcases lt_or_ge w 0 with hneg | hnonneg
      · right
        rcases hsmall.neg_of_fits hw.1 hneg hvisible (hfits y hy hvisible).2 with heq | heq
        · exact Or.inl heq
        · exact Or.inr (Or.inl heq)
      · rcases le_or_gt w fb.width with hle | hwide
        · exact Or.inl ⟨hnonneg, hle⟩
        · have hmargins := hsmall.margins_of_fits hw.2 hh hwide hy hvisible hfits
          exact Or.inr (Or.inr (Or.inr ⟨hwide, hmargins⟩))
  · intro hsafe y hy hvisible
    rcases hsafe with hnone | ⟨hlo, hle⟩ | rfl | rfl | ⟨hwide, hleft, hright⟩
    · exact absurd hvisible (hnone y hy)
    · exact hsmall.fits_of_width_le hh hlo hle hw.2 hy hvisible
    · have hzero := (rowCount_of_neg (w := -2 ^ 30) (by decide) (by decide)).1.mpr (Or.inl rfl)
      have hbytes := bytesPerRow_nonpos (w := -2 ^ 30) (by decide)
      exact ⟨fun hpos => absurd hpos (not_lt.mpr hbytes), fun hpos => absurd hzero hpos.ne'⟩
    · have hzero := (rowCount_of_neg (w := -2 ^ 31) (by decide) (by decide)).1.mpr (Or.inr rfl)
      have hbytes := bytesPerRow_nonpos (w := -2 ^ 31) (by decide)
      exact ⟨fun hpos => absurd hpos (not_lt.mpr hbytes), fun hpos => absurd hzero hpos.ne'⟩
    · exact hsmall.fits_of_margins hw.2 hh hwide hleft hright hy hvisible

/-! ## The call -/

section Heap

open Execution Kheap

/-- A live block of the kernel's heap is as large as the buffer at most. -/
theorem small_of_live (hfb : fb.WellFormed) {mem : Memory} {calls : List Operation} {s : Usage}
    {backbuffer : ℕ} (hrun : Run (Step kernelRegion) (.start kernelRegion mem) calls s)
    (hlive : s.live backbuffer = some (bufferSize fb)) : Small fb := by
  obtain ⟨blocks, hsound, -⟩ := run_sound hrun (start_sound kernelRegion mem)
  have hformed := hsound.wellFormed
  have hroom := hformed.large_enough backbuffer _ hlive
  obtain ⟨hlo, hhi⟩ := hformed.inside backbuffer _ hlive
  have hinside := hfb.inside
  have hregion : kernelRegion.stop = kernelRegion.start + 2 ^ 24 := by decide
  unfold bufferSize at hroom
  refine ⟨hfb, ?_⟩
  omega

theorem Small.openOps_inBounds (hsmall : Small fb) : InBounds fb (openOps fb) := by
  have hcapacity := hsmall.capacity_eq
  have hmod := hsmall.wellFormed.pitch_mod
  have hsize : bufferSize fb = 4 * (fb.pitch * fb.height / 4) := by
    have hinside := hsmall.wellFormed.inside
    have hfour : fb.pitch * fb.height % 4 = 0 := by rw [Nat.mul_mod, hmod, Nat.zero_mul]
    unfold bufferSize
    omega
  unfold InBounds openOps
  simp only [List.mem_cons, List.not_mem_nil, or_false, forall_eq_or_imp, forall_eq,
    DrawOp.Touches, forall_exists_index, and_imp, hsize]
  constructor
  · intro i k hk hi
    omega
  · intro i k hk hi
    omega

/-- With a back buffer from the heap, a call draws inside the buffers exactly
for safe arguments. -/
theorem drawOps_inBounds_iff (hfb : fb.WellFormed) {mem : Memory} {calls : List Operation}
    {s : Usage} {backbuffer : ℕ}
    (hrun : Run (Step kernelRegion) (.start kernelRegion mem) calls s)
    (hlive : s.live backbuffer = some (bufferSize fb)) (first : Bool) (frame rcx rdx : ℕ) :
    InBounds fb (drawOps fb first frame rcx rdx) ↔
      SafeArguments fb (CInt.toI32 rcx) (CInt.toI32 rdx) := by
  have hsmall := small_of_live hfb hrun hlive
  have hopen : InBounds fb (if first then openOps fb else []) := by
    split
    · exact hsmall.openOps_inBounds
    · exact fun op hop => absurd hop List.not_mem_nil
  rw [drawOps, inBounds_append, and_iff_right hopen]
  exact hsmall.rowOps_iff (CInt.toI32_bounds _) (CInt.toI32_bounds _).2

/-- 640 by 480 pixels in the higher half. -/
def vga : LimineFramebuffer := ⟨0xFFFF8000FD000000, 640, 480, 2560⟩

theorem vga_wellFormed : vga.WellFormed := by
  constructor <;> decide

/-- Its back buffer, allocated first. -/
theorem exists_vga_backbuffer : ∃ calls s backbuffer,
    Run (Step kernelRegion) (.start kernelRegion fun _ => 0) calls s ∧
      s.live backbuffer = some (bufferSize vga) := by
  have hreturn := start_kmalloc kernelRegion (fun _ => 0)
    (show bufferSize vga + 2 * headerSize < 2 ^ 64 by decide) (by decide)
  have hstep : Step kernelRegion (.start kernelRegion fun _ => 0) (.kmalloc (bufferSize vga)) _ :=
    .kmalloc (by decide) hreturn
  rw [if_neg (by decide)] at hstep
  exact ⟨_, _, _, .cons hstep (.nil _), Function.update_self _ _ _⟩

theorem vga_fullscreen : ∃ calls s backbuffer,
    Run (Step kernelRegion) (.start kernelRegion fun _ => 0) calls s ∧
      s.live backbuffer = some (bufferSize vga) ∧
      InBounds vga (drawOps vga true 0x400000 640 480) := by
  obtain ⟨calls, s, backbuffer, hrun, hlive⟩ := exists_vga_backbuffer
  refine ⟨calls, s, backbuffer, hrun, hlive, ?_⟩
  refine (drawOps_inBounds_iff vga_wellFormed hrun hlive true 0x400000 640 480).mpr ?_
  rw [CInt.toI32_natCast (by decide), CInt.toI32_natCast (by decide)]
  exact Or.inr (Or.inl (by decide))

/-- One column too many: the first row starts before the buffer. -/
theorem vga_tooWide : ∃ calls s backbuffer,
    Run (Step kernelRegion) (.start kernelRegion fun _ => 0) calls s ∧
      s.live backbuffer = some (bufferSize vga) ∧
      ¬ InBounds vga (drawOps vga true 0x400000 641 480) := by
  obtain ⟨calls, s, backbuffer, hrun, hlive⟩ := exists_vga_backbuffer
  refine ⟨calls, s, backbuffer, hrun, hlive, ?_⟩
  have hsmall := small_of_live vga_wellFormed hrun hlive
  rw [drawOps, inBounds_append, hsmall.rowOps_iff (CInt.toI32_bounds _) (CInt.toI32_bounds _).2,
    CInt.toI32_natCast (by decide), CInt.toI32_natCast (by decide)]
  rintro ⟨-, hnone | ⟨-, hle⟩ | heq | heq | ⟨-, hleft, -⟩⟩
  · exact hnone 0 (by decide) ((visible_iff (by decide) (by decide) (by decide)).mpr (by decide))
  · exact absurd hle (by decide)
  · exact absurd heq (by decide)
  · exact absurd heq (by decide)
  · exact absurd hleft (by decide)

end Heap

end Display

end BadOS.Kernel
