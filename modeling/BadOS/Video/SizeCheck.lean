import BadOS.Kernel.DrawBounds
import BadOS.Video.Decoding
import BadOS.Video.Scan

/-! # The size check of the player

The player compares the bytes of a frame with its buffer in signed 32-bit arithmetic,
and the kernel computes a row size of its own. The check covers every frame whose
pixels are an `int`.
-/

namespace BadOS.Video

open Kernel

/-- The frame bytes that the draw call reads, with some framebuffer. -/
def MayRead (w h offset : ℕ) : Prop :=
  ∃ fb first index, DrawOp.unpack index offset ∈ Display.drawOps fb first 0 w h

/-- A video of this size is refused, or the decoder and the draw call stay in
`frame_buffer`. -/
def Checked (w h : ℕ) : Prop :=
  ∀ mem window file header, startup mem window = .playing file header →
    header.w = w → header.h = h →
    (∀ (W : Type) (sys : Syscalls W) world n,
      ∀ k ∈ (Player.run sys mem file header (.start world) n).nextWrites mem header,
        (k : ℤ) < maxFrameBytes) ∧
      ∀ offset, MayRead w h offset → (offset : ℤ) < maxFrameBytes

variable {w h offset y b : ℕ} {header : Header}

/-! ## The draw call -/

theorem srcAddr_eq (hw : w < 2 ^ 16) (hh : h < 2 ^ 16) (hy : y < h) (hb : b < w / 8) :
    Display.srcAddr 0 w y b = y * (w / 8) + b := by
  have hrow : Display.bytesPerRow w = (w / 8 : ℕ) := rfl
  have hlt : y * (w / 8) < 2 ^ 16 * 2 ^ 13 := Nat.mul_lt_mul'' (by omega) (by omega)
  unfold Display.srcAddr
  rw [hrow, ← Nat.cast_mul, CInt.toI32_natCast (by omega), Nat.cast_zero, zero_add,
    ← Nat.cast_add, CInt.toU64_natCast (by omega)]

/-- The reads of a call come from the rows that are not skipped. -/
theorem mem_drawOps_unpack {fb : LimineFramebuffer} {first : Bool} {index : ℤ}
    (hw : w < 2 ^ 16) (hh : h < 2 ^ 16) :
    DrawOp.unpack index offset ∈ Display.drawOps fb first 0 w h ↔
      ∃ y < h, Display.Visible fb h y ∧ ∃ b < w / 8,
        index = Display.rowOffset fb w h y + 8 * b ∧ offset = y * (w / 8) + b := by
  have hrow : Display.bytesPerRow w = (w / 8 : ℕ) := rfl
  have hwidth : CInt.toI32 w = w := CInt.toI32_natCast (by omega)
  have hheight : CInt.toI32 h = h := CInt.toI32_natCast (by omega)
  have hopen : DrawOp.unpack index offset ∉ (if first then Display.openOps fb else []) := by
    cases first <;> simp [Display.openOps]
  have hcopy : DrawOp.unpack index offset ∉ (List.range h).flatMap (Display.copyRow fb w h) := by
    rw [List.mem_flatMap]
    rintro ⟨y, -, hy⟩
    unfold Display.copyRow at hy
    split at hy <;> simp at hy
  rw [Display.drawOps, hwidth, hheight, Display.rowOps, Int.toNat_natCast, List.mem_append,
    List.mem_append, or_iff_right hopen, or_iff_left hcopy, List.mem_flatMap]
  simp only [List.mem_range]
  refine exists_congr fun y => and_congr_right fun hy => ?_
  by_cases hvisible : Display.Visible fb h y
  · rw [Display.unpackRow, if_pos hvisible, List.mem_map, and_iff_right hvisible, hrow,
      Int.toNat_natCast]
    simp only [List.mem_range]
    refine exists_congr fun b => and_congr_right fun hb => ?_
    rw [srcAddr_eq hw hh hy hb, DrawOp.unpack.injEq, eq_comm, @eq_comm _ offset]
  · rw [Display.unpackRow, if_neg hvisible]
    exact iff_of_false List.not_mem_nil fun hmem => hvisible hmem.1

/-- The call reads `w / 8` bytes for each row. -/
theorem mayRead_iff (hw : w < 2 ^ 16) (hh : h < 2 ^ 16) :
    MayRead w h offset ↔ ∃ y < h, ∃ b < w / 8, offset = y * (w / 8) + b := by
  unfold MayRead
  simp only [mem_drawOps_unpack hw hh]
  constructor
  · rintro ⟨fb, first, index, y, hy, -, b, hb, -, hoffset⟩
    exact ⟨y, hy, b, hb, hoffset⟩
  · rintro ⟨y, hy, b, hb, hoffset⟩
    have hvisible : Display.Visible ⟨0, 0, h, 0⟩ h y := by
      have hwide : (h : ℤ) < 2 ^ 31 := by omega
      rw [Display.visible_iff (by dsimp only; omega) hwide (by omega)]
      dsimp only
      omega
    exact ⟨⟨0, 0, h, 0⟩, false, _, y, hy, hvisible, b, hb, rfl, hoffset⟩

/-! ## The check -/

theorem mayRead_lt (hw : w < 2 ^ 16) (hh : h < 2 ^ 16) (hread : MayRead w h offset) :
    offset < (w * h + 7) / 8 := by
  obtain ⟨y, hy, b, hb, rfl⟩ := (mayRead_iff hw hh).mp hread
  have hrows : (y + 1) * (w / 8) ≤ h * (w / 8) := Nat.mul_le_mul_right _ hy
  have hrow : 8 * (w / 8) * h ≤ w * h := Nat.mul_le_mul_right h (Nat.mul_div_le w 8)
  have hcomm : 8 * (w / 8) * h = 8 * (h * (w / 8)) := by ring
  rw [Nat.succ_mul] at hrows
  omega

theorem bytesPerFrame_nonpos (hlt : header.w * header.h < 2 ^ 32)
    (hlarge : 2 ^ 31 ≤ header.w * header.h + 7) : header.bytesPerFrame ≤ 0 := by
  have hsum : CInt.toI32 (CInt.toI32 (header.w * header.h) + 7) < 8 := by
    rw [CInt.toI32_toI32_add, ← Nat.cast_mul]
    obtain ⟨k, hk⟩ := CInt.exists_toI32_add_mul ((header.w * header.h : ℕ) + 7)
    have hbounds := CInt.toI32_bounds ((header.w * header.h : ℕ) + 7)
    omega
  unfold Header.bytesPerFrame
  generalize CInt.toI32 (CInt.toI32 (header.w * header.h) + 7) = x at hsum
  rcases le_total 0 x with hpos | hneg
  · rw [Int.tdiv_eq_zero_of_lt hpos hsum]
  · exact Display.bytesPerRow_nonpos hneg

theorem startup_eq_playing_iff {mem : Memory} {window file : ℕ} :
    startup mem window = .playing file header ↔ findVideo mem window = some file ∧
      readHeader mem file = header ∧ header.bytesPerFrame ≤ maxFrameBytes := by
  unfold startup
  cases hfind : findVideo mem window with
  | none => simp
  | some found =>
      dsimp only
      by_cases hguard : maxFrameBytes < (readHeader mem found).bytesPerFrame
      · rw [if_pos hguard]
        refine iff_of_false (fun h => Startup.noConfusion h) ?_
        rintro ⟨heq, rfl, hle⟩
        obtain rfl := Option.some.inj heq
        exact absurd hguard (not_lt.mpr hle)
      · rw [if_neg hguard, Startup.playing.injEq, Option.some.injEq]
        constructor
        · rintro ⟨rfl, rfl⟩
          exact ⟨rfl, rfl, not_lt.mp hguard⟩
        · rintro ⟨rfl, rfl, -⟩
          exact ⟨rfl, rfl⟩

/-- A small product is checked as it is. -/
theorem checked_of_small (hw : w < 2 ^ 16) (hh : h < 2 ^ 16) (hsmall : w * h + 7 < 2 ^ 31) :
    Checked w h := by
  rintro mem window file header hstartup rfl rfl
  have hbytes : header.bytesPerFrame = ((header.w * header.h + 7) / 8 : ℕ) :=
    Header.bytesPerFrame_eq rfl hsmall
  have hpixels : header.pixelsPerFrame = (header.w * header.h : ℕ) :=
    Header.pixelsPerFrame_eq rfl (by omega)
  have hguard := (startup_eq_playing_iff.mp hstartup).2.2
  rw [hbytes] at hguard
  constructor
  · intro W sys world n k hk
    have hlt := Player.nextWrites_lt hpixels hbytes hk
    omega
  · intro offset hread
    have hlt := mayRead_lt hw hh hread
    omega

/-! ## Products that wrap around -/

/-- A file of one frame of `w` by `h` pixels, with runs of one pixel. -/
def sizedVideo (w h : ℕ) : Memory := fun a =>
  [0x42, 0x41, 0x44, 0, UInt8.ofNat w, UInt8.ofNat (w / 256), UInt8.ofNat h,
    UInt8.ofNat (h / 256), 1, 0, 0, 0].getD a 1

theorem readHeader_sizedVideo (hw : w < 2 ^ 16) (hh : h < 2 ^ 16) :
    readHeader (sizedVideo w h) 0 = ⟨w, h, 1⟩ := by
  simp only [readHeader, sizedVideo, Header.mk.injEq, Nat.zero_add, List.getD_cons_succ,
    List.getD_cons_zero, Converter.toNat_ofNat]
  refine ⟨?_, ?_, rfl⟩
  · rw [Converter.or_shiftLeft_eq_add _ (by omega)]
    omega
  · rw [Converter.or_shiftLeft_eq_add _ (by omega)]
    omega

/-- A product that is no `int` passes the check. -/
theorem sizedVideo_startup (hw : w < 2 ^ 16) (hh : h < 2 ^ 16) (hlarge : 2 ^ 31 ≤ w * h + 7) :
    startup (sizedVideo w h) 0 = .playing 0 ⟨w, h, 1⟩ := by
  have hlt : w * h < 2 ^ 16 * 2 ^ 16 := Nat.mul_lt_mul'' hw hh
  have hmagic : Magic (sizedVideo w h) (0 + 0) := ⟨rfl, rfl, rfl, rfl⟩
  have hnonpos : (⟨w, h, 1⟩ : Header).bytesPerFrame ≤ 0 := bytesPerFrame_nonpos hlt hlarge
  rw [startup_eq_playing_iff]
  refine ⟨(findVideo_eq_some_iff (n := 0)).mpr ⟨by decide, hmagic, fun i hi => ?_⟩,
    readHeader_sizedVideo hw hh, hnonpos.trans (by decide)⟩
  exact absurd hi (Nat.not_lt_zero i)

/-- The last byte of such a frame lies far behind the buffer. -/
theorem exists_mayRead (hw : w < 2 ^ 16) (hh : h < 2 ^ 16) (hlarge : 2 ^ 31 ≤ w * h + 7) :
    ∃ offset, MayRead w h offset ∧ maxFrameBytes ≤ offset := by
  have hrows : 32768 ≤ h := by nlinarith
  have hcolumns : 32768 ≤ w := by nlinarith
  refine ⟨(h - 1) * (w / 8) + (w / 8 - 1),
    (mayRead_iff hw hh).mpr ⟨h - 1, by omega, w / 8 - 1, by omega, rfl⟩, ?_⟩
  have hrow : 32767 * 4096 ≤ (h - 1) * (w / 8) := Nat.mul_le_mul (by omega) (by omega)
  unfold maxFrameBytes
  omega

/-- The check covers a size exactly when the pixels and the rounding are an `int`. -/
theorem checked_iff (hw : w < 2 ^ 16) (hh : h < 2 ^ 16) :
    Checked w h ↔ w * h + 7 < 2 ^ 31 := by
  refine ⟨fun hchecked => ?_, checked_of_small hw hh⟩
  by_contra hnot
  have hlarge := not_lt.mp hnot
  obtain ⟨offset, hread, hle⟩ := exists_mayRead hw hh hlarge
  have hlt := (hchecked _ 0 0 _ (sizedVideo_startup hw hh hlarge) rfl rfl).2 offset hread
  exact absurd hlt (not_lt.mpr hle)

/-- 2048 by 256 pixels are checked. -/
theorem checked_2048_256 : Checked 2048 256 ↔ 2048 * 256 + 7 < 2 ^ 31 :=
  checked_iff (by decide) (by decide)

/-- The largest size is played, and its frames are read half a gigabyte behind the start of
the buffer. -/
theorem largest_not_checked :
    startup (sizedVideo 65535 65535) 0 = .playing 0 ⟨65535, 65535, 1⟩ ∧
      MayRead 65535 65535 536797184 ∧ ¬ Checked 65535 65535 := by
  have hstartup := sizedVideo_startup (w := 65535) (h := 65535) (by decide) (by decide) (by decide)
  have hread : MayRead 65535 65535 536797184 :=
    (mayRead_iff (by decide) (by decide)).mpr ⟨65534, by decide, 8190, by decide, by decide⟩
  refine ⟨hstartup, hread, fun hchecked => ?_⟩
  have hlt := (hchecked _ 0 0 _ hstartup rfl rfl).2 _ hread
  exact absurd hlt (by decide)

end BadOS.Video
