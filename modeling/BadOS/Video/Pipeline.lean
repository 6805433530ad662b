import BadOS.Kernel.Start
import BadOS.Video.Reader
import BadOS.Video.Scan
import BadOS.Video.Screen

/-! # From the raw frames to the screen

The decoder's output is converted, goes into the ramdisk, and is mapped by the kernel and
played by the first program. The screen shows the pixels of the output, in black and white.
-/

namespace BadOS.Video

open Kernel Kernel.Machine Kernel.Display Execution

/-- The file that the converter writes when it has read `chunks`. -/
def convert (width height : ℕ) (chunks : List (List UInt8)) (uninit : ℕ → UInt8) :
    Option (List UInt8) :=
  (Converter.read ⟨[], width, height⟩ width height chunks).bind fun conv => conv.process uninit

/-- A video for the player, in rows of whole bytes. -/
structure Dimensions (width height : ℕ) : Prop where
  width_pos : 1 ≤ width
  height_pos : 1 ≤ height
  area_le : width * height ≤ 524288
  rows : width % 8 = 0

/-- The number of complete frames in the output. -/
def frameCount (width height : ℕ) (output : List UInt8) : ℕ :=
  output.length / (width * height * 3)

/-- Frame `k` of the output is in the centre of the screen, in black and white. -/
def OutputOnScreen (width height : ℕ) (output : List UInt8) (fb : LimineFramebuffer)
    (m : Memory) (k : ℕ) : Prop :=
  ∀ x y : ℕ, x < width → y < height →
    pixelAt fb m (startX fb width + x) (startY fb height + y) =
      if 384 ≤ brightness output (k * (width * height) + (y * width + x)) then 0xFFFFFFFF
      else 0xFF000000

/-- Every `draw_frame` returns with its frame on the screen, and the frames come in the
order of the output, over and over; there is a next one as long as the clock runs. -/
structure PlaysOutput {T : Type*} (width height : ℕ) (output : List UInt8)
    (fb : LimineFramebuffer) (sys : Syscalls (Machine T)) (mem : Memory) (file : ℕ)
    (world : Machine T) : Prop where
  shows : ∀ n, (Player.run sys mem file ⟨width, height, frameCount width height output⟩
      (Player.start world) n).pc = .draw →
    ∃ s, (Player.run sys mem file ⟨width, height, frameCount width height output⟩
        (Player.start world) (n + 1)).world.display = some s ∧
      OutputOnScreen width height output fb s.mem
        ((Player.drawn sys mem file ⟨width, height, frameCount width height output⟩
          (Player.start world) n).length % frameCount width height output)
  continues : sys.Ticks → 0 < frameCount width height output → ∀ i, ∃ n,
    (Player.run sys mem file ⟨width, height, frameCount width height output⟩
      (Player.start world) n).pc = .draw ∧
    (Player.drawn sys mem file ⟨width, height, frameCount width height output⟩
      (Player.start world) n).length = i

variable {width height k px off : ℕ} {chunks : List (List UInt8)} {output bytes : List UInt8}
variable {uninit : ℕ → UInt8} {conv : Converter} {fb : LimineFramebuffer} {mem user m : Memory}

/-! ## The converter -/

/-- The converter when it has read the output, however that was cut. -/
def converterOf (width height : ℕ) (output : List UInt8) : Converter :=
  ⟨Blocks.whole (width * height * 3) output, width, height⟩

theorem convert_eq (hdims : Dimensions width height) :
    convert width height chunks uninit =
      (converterOf width height chunks.flatten).process uninit := by
  have hsize : 0 < width * height * 3 :=
    Nat.mul_pos (Nat.mul_pos hdims.width_pos hdims.height_pos) (by decide)
  have hrun := Reader.foldlM_data hsize [] [] chunks
  rw [Blocks.rest_of_lt (by exact hsize), Blocks.whole_of_lt (by exact hsize)] at hrun
  rw [convert, Converter.read, Converter.collect]
  dsimp only
  rw [List.append_nil] at hrun
  rw [hrun, Option.map_some, Option.bind_some]
  rfl

theorem length_frames (width height : ℕ) (output : List UInt8) :
    (converterOf width height output).frames.length = frameCount width height output := by
  rw [converterOf, Blocks.whole, List.length_map, List.length_range, frameCount]

/-- Frame `k` is cut out of the output. -/
theorem frame_eq {frame : List UInt8}
    (hframe : (converterOf width height output).frames[k]? = some frame) :
    k < frameCount width height output ∧
      frame = (output.drop (k * (width * height * 3))).take (width * height * 3) := by
  obtain ⟨hk, hget⟩ := List.getElem?_eq_some_iff.mp hframe
  rw [length_frames] at hk
  refine ⟨hk, hget.symm.trans ?_⟩
  simp only [converterOf, Blocks.whole, List.getElem_map, List.getElem_range]

theorem frame_end (hk : k < frameCount width height output) :
    (k + 1) * (width * height * 3) ≤ output.length :=
  (Nat.mul_le_mul_right _ hk).trans (Nat.div_mul_le_self _ _)

theorem converterOf_playable (hdims : Dimensions width height)
    (hbytes : (converterOf width height output).process uninit = some bytes) :
    (converterOf width height output).Playable := by
  obtain ⟨hwidth, hheight, hframes⟩ := Converter.fits_of_process hbytes
  refine ⟨hdims.width_pos, hdims.height_pos, hwidth, hheight, hdims.area_le,
    fun frame hframe => ?_, hframes⟩
  obtain ⟨k, hget⟩ := List.mem_iff_getElem?.mp hframe
  obtain ⟨hk, rfl⟩ := frame_eq hget
  have hend := frame_end hk
  rw [Nat.succ_mul] at hend
  rw [List.length_take, List.length_drop]
  exact Nat.min_eq_left (by omega)

/-- The brightness of a pixel is the brightness of its three bytes in the output. -/
theorem brightness_frame (hpx : px < width * height) :
    brightness ((output.drop (k * (width * height * 3))).take (width * height * 3)) px =
      brightness output (k * (width * height) + px) := by
  have hbyte : ∀ c < 3, ((output.drop (k * (width * height * 3))).take
      (width * height * 3)).getD (px * 3 + c) 0 =
        output.getD ((k * (width * height) + px) * 3 + c) 0 := by
    intro c hc
    have hindex : k * (width * height * 3) + (px * 3 + c) =
        (k * (width * height) + px) * 3 + c := by ring
    rw [List.getD_eq_getElem?_getD, List.getD_eq_getElem?_getD,
      List.getElem?_take_of_lt (by omega), List.getElem?_drop, hindex]
  have hfirst := hbyte 0 (by decide)
  rw [Nat.add_zero, Nat.add_zero] at hfirst
  rw [brightness, hfirst, hbyte 1 (by decide), hbyte 2 (by decide)]
  rfl

/-- A frame of the converter on the screen is a frame of the output on the screen. -/
theorem outputOnScreen_of_onScreen {frame : List UInt8}
    (hframe : (converterOf width height output).frames[k]? = some frame)
    (hscreen : (converterOf width height output).OnScreen fb m frame) :
    OutputOnScreen width height output fb m k := by
  obtain ⟨-, rfl⟩ := frame_eq hframe
  intro x y hx hy
  have hpx : y * width + x < width * height := by
    have hrow := Nat.mul_le_mul_right width (Nat.succ_le_of_lt hy)
    rw [Nat.succ_mul, Nat.mul_comm height] at hrow
    omega
  rw [← brightness_frame hpx]
  exact hscreen x y hx hy

/-! ## Draws in order -/

namespace Player

variable {W : Type*} {sys : Syscalls W} {file stop P i : ℕ} {header : Header} {pix : List Bool}
variable {s : Player W}

/-- A list of draws that has grown past `i` had its draw `i`. -/
theorem exists_draw_of_length {n : ℕ} (h : i < (drawn sys mem file header s n).length) :
    ∃ n, (run sys mem file header s n).pc = .draw ∧
      (drawn sys mem file header s n).length = i := by
  induction n with
  | zero => exact absurd h (Nat.not_lt_zero i)
  | succ n ih =>
      by_cases hpc : (run sys mem file header s n).pc = .draw
      · rw [drawn_of_draw hpc, List.length_append, List.length_singleton] at h
        rcases Nat.lt_succ_iff_lt_or_eq.mp h with hlt | rfl
        · exact ih hlt
        · exact ⟨n, hpc, rfl⟩
      · rw [drawn_of_not_draw hpc] at h
        exact ih h

/-- The frame about to be drawn is told by the number of frames drawn. -/
theorem currentFrame_of_draw (hstream : Stream mem file header stop P pix)
    (hinv : s.Inv mem file header stop P pix) (hloop : s.pc = .loop) {n : ℕ}
    (hpc : (run sys mem file header s n).pc = .draw) :
    (drawn sys mem file header s n).length % header.totalFrames =
      (run sys mem file header s n).currentFrame := by
  have hcount := drawn_counted sys hstream hinv hloop n
  obtain ⟨-, hnow⟩ := run_inv sys hstream hinv n
  simp only [hpc] at hnow
  simp only [Counted, hpc] at hcount
  rw [hcount, Nat.mod_eq_of_lt hnow.1]

end Player

/-! ## The window -/

/-- The player finds the video behind the bytes before it. -/
theorem startup_window {window : ℕ} (hconv : conv.Playable)
    (hbytes : conv.process uninit = some bytes) (hoff : off < 4096)
    (hfile : Converter.FileAt user (window + off) bytes)
    (hclean : ∀ i, i + 4 ≤ off → ¬ Magic user (window + i)) :
    startup user window = .playing (window + off) conv.header := by
  have hfind := (findVideo_eq_iff hoff (Converter.magic_of_process hbytes hfile).2).mpr hclean
  have hplaying := Converter.startup_eq hconv hbytes hfile
  unfold startup at hplaying ⊢
  rw [Converter.findVideo_eq hconv hbytes hfile] at hplaying
  rw [hfind]
  exact hplaying

/-- What the process sees of the video once it runs. -/
structure Sees (user mem : Memory) (phys : ℕ) (bytes : List UInt8) : Prop where
  file : Converter.FileAt user (0x80000000 + phys % 4096) bytes
  before : ∀ i < phys % 4096, user (0x80000000 + i) = mem (phys - phys % 4096 + i)

/-- The process finds the video in its window, when no bytes before it look like one. -/
theorem Sees.startup_eq {phys : ℕ} (hsees : Sees user mem phys bytes) (hconv : conv.Playable)
    (hbytes : conv.process uninit = some bytes)
    (hclean : ∀ i, i + 4 ≤ phys % 4096 → ¬ Magic mem (phys - phys % 4096 + i)) :
    startup user 0x80000000 = .playing (0x80000000 + phys % 4096) conv.header := by
  refine startup_window hconv hbytes (Nat.mod_lt _ (by decide)) hsees.file fun i hi hmagic => ?_
  have hsame : Magic mem (phys - phys % 4096 + i) ↔ Magic user (0x80000000 + i) := by
    refine Magic.congr fun k hk => ?_
    rw [Nat.add_assoc, Nat.add_assoc]
    exact (hsees.before (i + k) (by omega)).symm
  exact hclean i hi (hsame.mpr hmagic)

/-- The window at the jump to user mode. -/
theorem sees_of_userStart {phys entryPoint rd : ℕ} {input : List UInt8} {machine : Kernel.Machine}
    (hstart : UserStart input mem rd phys bytes.length entryPoint machine)
    (hcontent : mem.Holds phys bytes) (hlo : rd ≤ phys) (haligned : rd % 4096 = 0)
    (huser : ∀ x b, machine.readByte x = some b → user x = b) : Sees user mem phys bytes := by
  constructor
  · intro i hi
    have hbyte := huser _ _ (hstart.video (phys % 4096 + i) (by omega) (by omega))
    have hphys : phys - phys % 4096 + (phys % 4096 + i) = phys + i := by omega
    rw [Nat.add_assoc, hbyte, hphys, hcontent i hi]
  · intro i hi
    exact huser _ _ (hstart.video i (by omega) (by omega))

/-! ## From the output to the screen -/

section Pipeline

variable {T : Type*} {map : MemoryMap} {hhdmOffset rd videoName vidSize kexName : ℕ}
variable {fileSize frameBuffer : ℕ} {view ram : Memory} {old machine : Kernel.Machine}
variable {files before behind before' behind' : List Fs.File} {video kex : Fs.File}
variable {input : List UInt8} {sha256 : List UInt8 → Vector UInt8 32} {fill : ℕ → ℕ → UInt8}
variable {ops : List Kheap.Operation} {usage : Kheap.Usage}

/-- A decoder's output that was converted and put on the ramdisk is played on the screen:
the machine boots to the player, the player finds the video, and every `draw_frame`
returns with its frame of the output on the screen. -/
theorem output_plays (hdims : Dimensions width height)
    (hconvert : convert width height chunks uninit = some video.content)
    (hdisk : old.mem.Holds rd (Fs.image files)) (haligned : rd % 4096 = 0)
    (hboot : map.Handover hhdmOffset old rd (Fs.image files).length)
    (hstores : HeapStores (((map.setUp old).vmmInitialize allocPhys).mapHeap allocPhys) machine)
    (hview : Fs.KernelView view machine.mem hhdmOffset rd (Fs.image files).length videoName
      vidSize kexName)
    (hvideo : files = before ++ video :: behind) (hvideoName : video.name = Libc.ascii "video.bad")
    (hvideoFirst : ∀ f ∈ before, f.name ≠ Libc.ascii "video.bad")
    (hkex : files = before' ++ kex :: behind') (hkexName : kex.name = Libc.ascii "init.kex")
    (hkexFirst : ∀ f ∈ before', f.name ≠ Libc.ascii "init.kex")
    (hfileSize : fileSize ≠ 0) (hexe : KexLd.Elf.Executable input)
    (hbelow : ∀ ph ∈ KexLd.Elf.loads input, ph.vaddr + ph.memsz ≤ 0x80000000)
    (hlink : kex.content = KexLd.link sha256 fill input)
    (henough : bootFrames (map.setUp old)
      (Fs.contentPhys rd (before'.map Fs.File.entry)) (Fs.contentPhys rd (before.map Fs.File.entry))
      video.content.length ≤ map.available)
    (hclean : ∀ i, i + 4 ≤ Fs.contentPhys rd (before.map Fs.File.entry) % 4096 →
      ¬ Magic old.mem (Fs.contentPhys rd (before.map Fs.File.entry) -
        Fs.contentPhys rd (before.map Fs.File.entry) % 4096 + i))
    (hfb : Mapped fb) (hwidth : width ≤ fb.width) (hheight : height ≤ fb.height)
    (hbuffer : BufferApart fb frameBuffer)
    (hheap : Run (Kheap.Step Kheap.kernelRegion) (.start Kheap.kernelRegion ram) ops usage)
    (hroom : Kheap.HasRoom usage.heap (fb.pitch * fb.height)) :
    ∃ mapped file n entryPoint, machine.startProgram view hhdmOffset (hhdmOffset + rd) videoName
        vidSize kexName fileSize allocPhys = some (mapped, file) ∧
      (Loader.run file mapped n allocPhys).pc = .userMode entryPoint ∧
      ∀ user : Memory,
        (∀ x b, (Loader.run file mapped n allocPhys).machine.readByte x = some b → user x = b) →
        ∃ window, startup user 0x80000000 =
            .playing window ⟨width, height, frameCount width height chunks.flatten⟩ ∧
          ∀ (clock : Clock T) (time : T), PlaysOutput width height chunks.flatten fb
            (clock.syscalls frameBuffer) user window ⟨time, some (start fb usage.heap)⟩ := by
  have hrange : rd + (Fs.image files).length ≤ 2 ^ 64 := hboot.below.trans (by decide)
  have hlength := Fs.image_length files
  have hinside : ((files.map Fs.File.entry).map Fs.TarEntry.span).sum <
      (Fs.image files).length := by
    omega
  have harchive := Fs.archive_of_holds hdisk hrange
  have hvideoContent : old.mem.Holds (Fs.contentPhys rd (before.map Fs.File.entry))
      video.content := by
    rw [hvideo] at hdisk
    exact Fs.content_of_holds before behind hdisk
  have hkexContent : old.mem.Holds (Fs.contentPhys rd (before'.map Fs.File.entry))
      (KexLd.link sha256 fill input) := by
    rw [hkex] at hdisk
    exact hlink ▸ Fs.content_of_holds before' behind' hdisk
  have hentries : files.map Fs.File.entry =
      before.map Fs.File.entry ++ video.entry :: behind.map Fs.File.entry := by
    rw [hvideo, List.map_append, List.map_cons]
  have hentries' : files.map Fs.File.entry =
      before'.map Fs.File.entry ++ kex.entry :: behind'.map Fs.File.entry := by
    rw [hkex, List.map_append, List.map_cons]
  have hsize := video.content_length
  obtain ⟨hprogram, ⟨n, entryPoint, hpc⟩, hstart⟩ := hboot.boots hstores harchive hinside hview
    hentries hvideoName (Fs.entries_ne hvideoFirst) hentries' hkexName (Fs.entries_ne hkexFirst)
    (show video.content.length < 2 ^ 32 by omega) hfileSize hexe hbelow
    (congrArg List.length hlink) hkexContent henough
  refine ⟨_, _, n, entryPoint, hprogram, hpc, fun user huser => ?_⟩
  have hbytes := (convert_eq hdims).symm.trans hconvert
  have hconv := converterOf_playable hdims hbytes
  have hsees := sees_of_userStart (hstart n entryPoint hpc) hvideoContent
    (Fs.contentPhys_inside rd hentries hinside).1 haligned huser
  have hstartup := hsees.startup_eq hconv hbytes hclean
  rw [Converter.header, length_frames] at hstartup
  refine ⟨_, hstartup, fun clock time => ?_⟩
  have hready : ∃ s, (⟨time, some (start fb usage.heap)⟩ : Machine T).display = some s ∧
      Ready fb s := ⟨_, rfl, start_inv hheap, fun _ => hroom⟩
  have hplays := playsOnScreen_of_ready hconv hbytes hsees.file hfb ⟨hwidth, hheight⟩ hbuffer clock
    hdims.rows hready
  have hstream := Converter.stream hconv hbytes hsees.file
  rw [Converter.PlaysOnScreen, Converter.header, length_frames] at hplays
  rw [Converter.header, length_frames] at hstream
  refine ⟨fun n hdraw => ?_, fun hticks hframes i => ?_⟩
  · obtain ⟨frame, s, hframe, hdisplay, hscreen⟩ := hplays n hdraw
    have hshown := outputOnScreen_of_onScreen hframe hscreen
    rw [← Player.currentFrame_of_draw hstream (Player.start_inv _) rfl hdraw] at hshown
    exact ⟨s, hdisplay, hshown⟩
  · obtain ⟨n, hn⟩ := Player.exists_length_drawn hstream hticks hframes (Player.start_inv _)
      (Nat.two_pow_pos 64) (i + 1)
    exact Player.exists_draw_of_length hn

end Pipeline

/-! ## A video of one frame -/

/-- Four white and four black pixels, in chunks. -/
def eightChunks : List (List UInt8) :=
  [List.replicate 7 255, List.replicate 5 255 ++ List.replicate 2 0, List.replicate 10 0]

def eightFile : Fs.File :=
  .plain (Libc.ascii "video.bad") [0x42, 0x41, 0x44, 0, 8, 0, 1, 0, 1, 0, 0, 0, 0x84, 4]
    MemoryMap.videoName_length MemoryMap.videoName_noNul (by decide)

theorem eightFile_header : 0x42 ∉ eightFile.header := by
  have hname : 0x42 ∉ eightFile.name := by decide
  have hoctal : 0x42 ∉ Fs.octal eightFile.content.length := by decide
  have howner : eightFile.owner = List.replicate 24 48 := rfl
  have hrest : eightFile.rest = List.replicate 377 0 := rfl
  rw [Fs.File.header, howner, hrest]
  simp only [List.mem_append, not_or]
  refine ⟨hname, fun h => ?_, fun h => ?_, hoctal, fun h => ?_⟩ <;>
    exact absurd (List.eq_of_mem_replicate h) (by decide)

theorem eightPixels_output_plays :
    ∃ (machine mapped : Kernel.Machine) (file n entryPoint : ℕ) (user : Memory) (window : ℕ),
      machine.startProgram (MemoryMap.smallView machine) 0xFFFF800000000000
        (0xFFFF800000000000 + 0x8000000) 0x1000 0x3000 0x2000 8 allocPhys = some (mapped, file) ∧
      (Loader.run file mapped n allocPhys).pc = .userMode entryPoint ∧
      startup user 0x80000000 = .playing window ⟨8, 1, 1⟩ ∧
      PlaysOutput 8 1 eightChunks.flatten vga (counter.syscalls 0x400000) user window
        ⟨0, some (start vga (Kheap.Usage.start Kheap.kernelRegion fun _ => 0).heap)⟩ := by
  generalize hrd : 0x8000000 = rd
  have hlength := Fs.image_length [eightFile, MemoryMap.kexFile]
  have hspan : (([eightFile, MemoryMap.kexFile].map Fs.File.entry).map Fs.TarEntry.span).sum ≤
      2 ^ 20 := by decide +kernel
  have hend : rd + (Fs.image [eightFile, MemoryMap.kexFile]).length ≤ 2 ^ 44 := by omega
  have hdisk : (MemoryMap.smallMemory rd eightFile).Holds rd
      (Fs.image [eightFile, MemoryMap.kexFile]) := Memory.holds_extend _ _ _
  generalize hbooted : ((MemoryMap.smallMap.setUp (MemoryMap.smallMachine rd
    eightFile)).vmmInitialize allocPhys).mapHeap allocPhys = booted
  have hstores : HeapStores (((MemoryMap.smallMap.setUp (MemoryMap.smallMachine rd
      eightFile)).vmmInitialize allocPhys).mapHeap allocPhys) booted := by
    rw [hbooted]
    exact ⟨rfl, rfl, rfl, fun _ _ => rfl⟩
  have hplace : Fs.contentPhys rd [] = rd + 512 := rfl
  have hkex := Fs.content_of_holds [eightFile] [] hdisk
  have hsum : (([eightFile, MemoryMap.kexFile].map Fs.File.entry).map Fs.TarEntry.span).sum <
      (Fs.image [eightFile, MemoryMap.kexFile]).length := by omega
  have hentries : [eightFile, MemoryMap.kexFile].map Fs.File.entry =
      [eightFile.entry] ++ MemoryMap.kexFile.entry :: [] := rfl
  obtain ⟨hplaceLo, hplaceHi⟩ := Fs.contentPhys_inside rd hentries hsum
  have hkexSize : MemoryMap.kexFile.entry.size = MemoryMap.kexFile.content.length := by
    rw [Fs.File.entry]
  rw [hkexSize] at hplaceHi
  have henough := MemoryMap.smallMemory_bootFrames hrd.le (Fs.contentPhys rd []) (by decide)
    hplaceLo hkex hplaceHi hend
  have hclean : ∀ i, i + 4 ≤ Fs.contentPhys rd [] % 4096 →
      ¬ Magic (MemoryMap.smallMemory rd eightFile)
        (Fs.contentPhys rd [] - Fs.contentPhys rd [] % 4096 + i) := by
    intro i hi hmagic
    have hheader : (MemoryMap.smallMemory rd eightFile).Holds rd eightFile.header := by
      rw [Fs.image, Fs.File.blocks, Memory.holds_append, Memory.holds_append] at hdisk
      exact hdisk.1.1
    have hsize := eightFile.header_length
    have hbyte := hheader i (by omega)
    have hphys : Fs.contentPhys rd [] - Fs.contentPhys rd [] % 4096 + i = rd + i := by omega
    rw [hphys] at hmagic
    rw [hmagic.1] at hbyte
    exact eightFile_header (hbyte ▸ List.getElem_mem _)
  have hdims : Dimensions 8 1 := ⟨by decide, by decide, by decide, by decide⟩
  have hconvert : convert 8 1 eightChunks (fun _ => 0) = some eightFile.content := by
    decide +kernel
  have hboot := MemoryMap.smallMap_handover eightFile hrd.le hend
  have hview := MemoryMap.smallView_kernelView booted rd
    (Fs.image [eightFile, MemoryMap.kexFile]).length
  have hsplit : [eightFile, MemoryMap.kexFile] = [] ++ eightFile :: [MemoryMap.kexFile] := rfl
  have hsplit' : [eightFile, MemoryMap.kexFile] = [eightFile] ++ MemoryMap.kexFile :: [] := rfl
  have hvideoName : eightFile.name = Libc.ascii "video.bad" := rfl
  have hkexName : MemoryMap.kexFile.name = Libc.ascii "init.kex" := rfl
  have hsecond : ∀ f ∈ [eightFile], f.name ≠ Libc.ascii "init.kex" := by decide
  have hbelow : ∀ ph ∈ KexLd.Elf.loads KexLd.tinyElf, ph.vaddr + ph.memsz ≤ 0x80000000 := by
    decide +kernel
  obtain ⟨mapped, file, n, entryPoint, hprogram, hpc, hplays⟩ := output_plays (T := ℕ) hdims
    hconvert hdisk (by omega) hboot hstores hview hsplit hvideoName (by simp) hsplit' hkexName
    hsecond (show 8 ≠ 0 by decide) KexLd.tinyElf_executable hbelow MemoryMap.kexFile_content
    henough hclean vga_mapped (by decide) (by decide) vga_bufferApart (.nil _)
    (start_hasRoom fun _ => 0)
  obtain ⟨window, hstartup, houtput⟩ :=
    hplays (fun x => ((Loader.run file mapped n allocPhys).machine.readByte x).getD 0)
      fun x b hread => by rw [hread, Option.getD_some]
  exact ⟨_, mapped, file, n, entryPoint, _, window, hprogram, hpc, hstartup, houtput counter 0⟩

end BadOS.Video
