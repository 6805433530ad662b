import BadOS.Kernel.Fs
import BadOS.Kernel.VideoMapping
import BadOS.Video.Optimality
import BadOS.Video.RoundTrip

/-! # Where the player starts

The kernel and the player share no offset: the window shows the whole first page of
the file, with whatever the ramdisk holds before it, and the player stops at the first
`BAD\0` it meets.
-/

namespace BadOS.Video

open Kernel Kernel.Fs Kernel.Machine Libc

/-- `BAD\0` at `a`. -/
def Magic (mem : Memory) (a : ℕ) : Prop :=
  mem a = 0x42 ∧ mem (a + 1) = 0x41 ∧ mem (a + 2) = 0x44 ∧ mem (a + 3) = 0

instance (mem : Memory) (a : ℕ) : Decidable (Magic mem a) :=
  inferInstanceAs (Decidable (_ ∧ _))

variable {mem mem' : Memory} {a i n window : ℕ}

/-! ## The scan -/

theorem findVideo_eq_some_iff : findVideo mem window = some (window + n) ↔
    n < 4096 ∧ Magic mem (window + n) ∧ ∀ i < n, ¬ Magic mem (window + i) := by
  have hinj : Function.Injective (window + ·) := fun _ _ h => Nat.add_left_cancel h
  rw [findVideo, Option.map_eq_some_iff]
  constructor
  · rintro ⟨k, hk, hwindow⟩
    obtain rfl := hinj hwindow
    obtain ⟨hmagic, hrange, hbefore⟩ := List.find?_range_eq_some.mp hk
    refine ⟨List.mem_range.mp hrange, of_decide_eq_true hmagic, fun i hi => ?_⟩
    exact of_decide_eq_false (Bool.not_eq_true' _ ▸ hbefore i hi)
  · rintro ⟨hn, hmagic, hbefore⟩
    refine ⟨n, List.find?_range_eq_some.mpr ⟨decide_eq_true hmagic, List.mem_range.mpr hn, ?_⟩, rfl⟩
    intro i hi
    rw [Bool.not_eq_true', decide_eq_false_iff_not]
    exact hbefore i hi

/-- Two occurrences of `BAD\0` do not overlap. -/
theorem Magic.add_four_le (hmagic : Magic mem (a + n)) (hearlier : Magic mem (a + i))
    (hi : i < n) : i + 4 ≤ n := by
  obtain ⟨hb, -⟩ := hmagic
  obtain ⟨-, h1, h2, h3⟩ := hearlier
  by_contra hlt
  obtain rfl | rfl | rfl : n = i + 1 ∨ n = i + 2 ∨ n = i + 3 := by omega
  · exact absurd (hb.symm.trans h1) (by decide)
  · exact absurd (hb.symm.trans h2) (by decide)
  · exact absurd (hb.symm.trans h3) (by decide)

/-- The scan stops at a `BAD\0` of the first page exactly when none ends before it. -/
theorem findVideo_eq_iff (hn : n < 4096) (hmagic : Magic mem (window + n)) :
    findVideo mem window = some (window + n) ↔ ∀ i, i + 4 ≤ n → ¬ Magic mem (window + i) := by
  rw [findVideo_eq_some_iff]
  constructor
  · rintro ⟨-, -, hbefore⟩ i hi
    exact hbefore i (by omega)
  · intro hbefore
    exact ⟨hn, hmagic, fun i hi h => hbefore i (hmagic.add_four_le h hi) h⟩

theorem Magic.congr (hsame : ∀ k < 4, mem (a + k) = mem' (window + k)) :
    Magic mem a ↔ Magic mem' window := by
  have h0 := hsame 0 (by decide)
  rw [Nat.add_zero, Nat.add_zero] at h0
  unfold Magic
  rw [h0, hsame 1 (by decide), hsame 2 (by decide), hsame 3 (by decide)]

/-- A converted file starts with `BAD\0`. -/
theorem Converter.magic_of_process {conv : Converter} {uninit : ℕ → UInt8} {bytes : List UInt8}
    (hprocess : conv.process uninit = some bytes) (hfile : Converter.FileAt mem a bytes) :
    12 ≤ bytes.length ∧ Magic mem a := by
  obtain ⟨hwidth, hheight, hframes⟩ := fits_of_process hprocess
  rw [process_eq conv uninit hwidth hheight hframes] at hprocess
  obtain rfl := Option.some.inj hprocess
  exact ⟨by simp, hfile 0 (by simp), hfile 1 (by simp), hfile 2 (by simp), hfile 3 (by simp)⟩

/-! ## The ramdisk -/

/-- `video.bad` is `bytes`, behind the files `before` and with the files `behind` after it. -/
structure OnRamdisk (ram : Memory) (fsStartAddr : ℕ) (before behind : List TarEntry)
    (bytes : List UInt8) : Prop where
  archive : Archive ram fsStartAddr (before ++ ⟨ascii "video.bad", bytes.length⟩ :: behind)
  first : ∀ e ∈ before, e.name ≠ ascii "video.bad"
  content : Converter.FileAt ram (headerAddr fsStartAddr before + 512) bytes

variable {ram ram' : Memory} {before behind : List TarEntry} {bytes : List UInt8}
variable {fsStartAddr filename outSize vidPtr vidSize hhdmOffset phys : ℕ}

/-- `fs_get_file` returns the file and its size. -/
theorem OnRamdisk.fsGetFile_eq (hdisk : OnRamdisk ram fsStartAddr before behind bytes)
    (hname : ram.IsString filename (ascii "video.bad")) (hend : filename + 9 < 2 ^ 64)
    (houtSize : outSize ≠ 0)
    (hget : fsGetFile ram fsStartAddr filename outSize = some (vidPtr, ram')) :
    Converter.FileAt ram vidPtr bytes ∧ ram'.load outSize 8 = bytes.length ∧
      bytes.length < 2 ^ 32 := by
  have hlength : (ascii "video.bad").length = 9 := by decide
  obtain ⟨hheader, -⟩ := hdisk.archive.append
  have hle : bytes.length ≤ 2 ^ 32 - 1024 := hheader.size_le
  rw [(hdisk.archive.found hname (by rwa [hlength]) hdisk.first).1 outSize, if_pos houtSize] at hget
  obtain ⟨rfl, rfl⟩ := Prod.mk.inj (Option.some.inj hget)
  exact ⟨hdisk.content, Memory.load_store (show bytes.length < 256 ^ 8 by omega), by omega⟩

/-- The kernel maps the file at its offset in its page, and the scan stops there exactly
when the ramdisk holds no `BAD\0` before the file in that page. -/
theorem scan_stops_iff {conv : Converter} {uninit : ℕ → UInt8} {m : Kernel.Machine}
    {slots : Set (Fin 512)} {view : Memory} (hprocess : conv.process uninit = some bytes)
    (hdisk : OnRamdisk ram fsStartAddr before behind bytes)
    (hname : ram.IsString filename (ascii "video.bad")) (hend : filename + 9 < 2 ^ 64)
    (houtSize : outSize ≠ 0)
    (hget : fsGetFile ram fsStartAddr filename outSize = some (vidPtr, ram'))
    (hsize : vidSize = ram'.load outSize 8) (hphys : phys = vidPhys vidPtr hhdmOffset)
    (hdirect : ∀ i < vidSize, m.mem (phys + i) = ram (vidPtr + i))
    (hready : VideoReady m slots phys vidSize) (hslot : 0 ∈ slots)
    (hfits : phys + vidSize ≤ 2 ^ 52) (hsupplied : Supplied m (m.mapVideo phys vidSize))
    (hview : ∀ x b, (m.mapVideo phys vidSize).readByte x = some b → view x = b) :
    (m.mapVideo phys vidSize).translate (0x80000000 + phys % 4096) = some phys ∧
      (findVideo view 0x80000000 = some (0x80000000 + phys % 4096) ↔
        ∀ i, i + 4 ≤ phys % 4096 → ¬ Magic m.mem (phys - phys % 4096 + i)) := by
  obtain ⟨hfile, hload, hlt⟩ := hdisk.fsGetFile_eq hname hend houtSize hget
  rw [hload] at hsize
  subst hsize
  have hreads : ∀ n < phys % 4096 + bytes.length,
      (m.mapVideo phys bytes.length).translate (0x80000000 + n) =
        some (phys - phys % 4096 + n) ∧
      view (0x80000000 + n) = m.mem (phys - phys % 4096 + n) := by
    intro n hn
    obtain ⟨htranslate, hread⟩ := hready.reads hslot hlt hfits hsupplied hn
    exact ⟨htranslate, hview _ _ hread⟩
  have hfirst : phys - phys % 4096 + phys % 4096 = phys := by omega
  have hstart : Converter.FileAt m.mem phys bytes := fun i hi => (hdirect i hi).trans (hfile i hi)
  obtain ⟨hheader, hmagic⟩ := Converter.magic_of_process hprocess hstart
  have hsame : ∀ i, i ≤ phys % 4096 →
      (Magic view (0x80000000 + i) ↔ Magic m.mem (phys - phys % 4096 + i)) := by
    intro i hi
    refine Magic.congr fun k hk => ?_
    rw [Nat.add_assoc, Nat.add_assoc]
    exact (hreads (i + k) (by omega)).2
  constructor
  · rw [(hreads (phys % 4096) (by omega)).1, hfirst]
  · rw [findVideo_eq_iff (Nat.mod_lt _ (by decide)) ((hsame _ le_rfl).mpr (by rwa [hfirst]))]
    refine forall_congr' fun i => imp_congr_right fun hi => ?_
    rw [hsame i (by omega)]

/-! ## A file before the video -/

/-- From 0x8000 the file `a` with the contents `BAD\0`, then a video of two pixels; the
string `video.bad` at 0x9000. -/
def decoyBytes : Memory := fun x =>
  if 0x8000 ≤ x ∧ x < 0x8001 then 97
  else if 0x807C ≤ x ∧ x < 0x8087 then (ascii "00000000004").getD (x - 0x807C) 0
  else if 0x8200 ≤ x ∧ x < 0x8204 then [0x42, 0x41, 0x44, 0].getD (x - 0x8200) 0
  else if 0x8400 ≤ x ∧ x < 0x8409 then (ascii "video.bad").getD (x - 0x8400) 0
  else if 0x847C ≤ x ∧ x < 0x8487 then (ascii "00000000016").getD (x - 0x847C) 0
  else if 0x8600 ≤ x ∧ x < 0x860E then
    [0x42, 0x41, 0x44, 0, 2, 0, 1, 0, 1, 0, 0, 0, 129, 1].getD (x - 0x8600) 0
  else if 0x9000 ≤ x ∧ x < 0x9009 then (ascii "video.bad").getD (x - 0x9000) 0
  else 0

/-- The kernel's addresses of these bytes. -/
def decoyRam : Memory := fun x => decoyBytes (x - 0xFFFF800000000000)

/-- The machine before it maps the video. -/
def decoyMachine : Kernel.Machine := emptyTables.setMem decoyBytes

/-- What the player reads. -/
def decoyView : Memory := fun x => ((decoyMachine.mapVideo 0x8600 14).readByte x).getD 0

/-- The video of two pixels. -/
def decoyVideo : List UInt8 := [0x42, 0x41, 0x44, 0, 2, 0, 1, 0, 1, 0, 0, 0, 129, 1]

theorem decoyVideo_eq : twoPixels.process (fun _ => 0) = some decoyVideo := by decide +kernel

theorem decoyRam_onRamdisk :
    OnRamdisk decoyRam 0xFFFF800000008000 [⟨[97], 4⟩] [] decoyVideo := by
  have hcontent : ∀ i (hi : i < decoyVideo.length),
      decoyRam (0xFFFF800000008600 + i) = decoyVideo[i] := by decide
  refine ⟨⟨⟨by decide, by decide, ?_, by decide⟩, by decide,
    ⟨by decide, by decide, ?_, by decide⟩, by decide, ?_⟩, by decide, hcontent⟩
  · exact ⟨[4, 0, 0, 0, 0, 0, 0, 0, 0, 0, 0], by decide, by decide, by decide, by decide⟩
  · exact ⟨[6, 1, 0, 0, 0, 0, 0, 0, 0, 0, 0], by decide, by decide, by decide, by decide⟩
  · change decoyRam _ = 0
    decide

theorem decoyMachine_ready : VideoReady decoyMachine Set.univ 0x8600 14 := by
  refine emptyTables_setMem_ready (fun x hx => ?_) (by decide)
  unfold decoyBytes
  iterate 7 rw [if_neg (by omega)]

theorem decoyMachine_supplied : Supplied decoyMachine (decoyMachine.mapVideo 0x8600 14) :=
  emptyTables_setMem_supplied decoyBytes (by decide)

/-- The scan stops at the contents of the file before the video, not at the byte that
the kernel mapped for the video's first. -/
theorem scan_stops_early :
    twoPixels.process (fun _ => 0) = some decoyVideo ∧
      OnRamdisk decoyRam 0xFFFF800000008000 [⟨[97], 4⟩] [] decoyVideo ∧
      vidPhys 0xFFFF800000008600 0xFFFF800000000000 = 0x8600 ∧
      (decoyMachine.mapVideo 0x8600 14).translate 0x80000600 = some 0x8600 ∧
      findVideo decoyView 0x80000000 = some 0x80000200 := by
  have hreads := fun n => decoyMachine_ready.reads (n := n) (Set.mem_univ 0) (by decide)
    (by decide) decoyMachine_supplied
  have hview : ∀ n < 0x204, decoyView (0x80000000 + n) = decoyBytes (0x8000 + n) := by
    intro n hn
    unfold decoyView
    rw [(hreads n (by omega)).2]
    rfl
  have hsame : ∀ i ≤ 0x200, Magic decoyView (0x80000000 + i) ↔ Magic decoyBytes (0x8000 + i) := by
    intro i hi
    refine Magic.congr fun k hk => ?_
    rw [Nat.add_assoc, Nat.add_assoc]
    exact hview (i + k) (by omega)
  have hbefore : ∀ i < 0x200, ¬ Magic decoyBytes (0x8000 + i) := by decide +kernel
  refine ⟨decoyVideo_eq, decoyRam_onRamdisk, by decide, (hreads 0x600 (by decide)).1, ?_⟩
  refine findVideo_eq_some_iff.mpr ⟨by decide, (hsame 0x200 le_rfl).mpr (by decide), ?_⟩
  intro i hi
  rw [hsame i hi.le]
  exact hbefore i hi

theorem decoy_not_found :
    ¬ findVideo decoyView 0x80000000 = some (0x80000000 + 0x8600 % 4096) := by
  have hname : decoyRam.IsString 0xFFFF800000009000 (ascii "video.bad") := by decide
  have hget := (decoyRam_onRamdisk.archive.found hname (by decide)
    decoyRam_onRamdisk.first).1 0xFFFF80000000A000
  have hsize : 14 = (decoyRam.store 0xFFFF80000000A000 8 14).load 0xFFFF80000000A000 8 := by
    rw [Memory.load_store (by decide)]
  have hphys : 0x8600 = vidPhys 0xFFFF800000008600 0xFFFF800000000000 := by decide
  have hview : ∀ x b, (decoyMachine.mapVideo 0x8600 14).readByte x = some b → decoyView x = b := by
    intro x b hread
    rw [decoyView, hread, Option.getD_some]
  have hiff := (scan_stops_iff decoyVideo_eq decoyRam_onRamdisk hname (by decide) (by decide) hget
    hsize hphys (by decide) decoyMachine_ready (Set.mem_univ 0) (by decide)
    decoyMachine_supplied hview).2
  intro hstops
  exact hiff.mp hstops 0x200 (by decide) (by decide)

end BadOS.Video
