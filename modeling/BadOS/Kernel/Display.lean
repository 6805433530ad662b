import BadOS.Kernel.Kheap
import BadOS.Libc.String

/-! # Drawing a frame

Case 4 of `syscall_handler`. A frame of one bit for each pixel is unpacked into
the centre of the back buffer, and the rows drawn are copied to the framebuffer.
The control flow depends on the arguments alone, so the call is a list of
operations on memory.
-/

namespace BadOS.Kernel

/-- The fields of `struct limine_framebuffer` that are read. -/
structure LimineFramebuffer where
  address : ℕ
  width : ℕ
  height : ℕ
  pitch : ℕ
deriving DecidableEq

/-- The statics and memory the call works on; `framebuffer` is the first of the
bootloader's response, if there is one. -/
structure Display where
  mem : Memory
  freeList : ℕ
  backbuffer : ℕ
  backbufferSize : ℕ
  framebuffer : Option LimineFramebuffer

/-- Offsets and indices count pixels; they are not reduced, as the pointer
arithmetic they end up in wraps them. -/
inductive DrawOp
  /-- `memset(backbuffer, 0, count)` -/
  | clear (count : ℕ)
  /-- `fast_memcpy(vram + offset, backbuffer + offset, count)` -/
  | copy (offset : ℤ) (count : ℕ)
  /-- Eight pixels at `index` from the byte at `src`. -/
  | unpack (index : ℤ) (src : ℕ)
deriving DecidableEq

namespace Display

/-! ## The operations of a call -/

section Arguments

variable (fb : LimineFramebuffer) (frame : ℕ) (w h : ℤ)

/-- `(extent - n) / 2`, computed unsigned and stored in an `int`. -/
def centre (extent : ℕ) (n : ℤ) : ℤ := CInt.toI32 (CInt.toU64 (extent - n) / 2 : ℕ)

def startX : ℤ := centre fb.width w

def startY : ℤ := centre fb.height h

def fbWidth : ℕ := fb.pitch / 4

def bytesPerRow : ℤ := w.tdiv 8

def screenY (y : ℕ) : ℤ := CInt.toI32 (startY fb h + y)

/-- The row is not skipped. -/
def Visible (y : ℕ) : Prop := ¬ (screenY fb h y < 0 ∨ CInt.toI32 fb.height ≤ screenY fb h y)

instance : DecidablePred (Visible fb h) := fun y =>
  inferInstanceAs (Decidable ¬ (screenY fb h y < 0 ∨ CInt.toI32 fb.height ≤ screenY fb h y))

/-- The index of the row's first pixel. -/
def rowOffset (y : ℕ) : ℤ := screenY fb h y * fbWidth fb + startX fb w

/-- `src_ptr + b`. -/
def srcAddr (y b : ℕ) : ℕ := CInt.toU64 (frame + CInt.toI32 (y * bytesPerRow w) + b)

/-- A round of the first loop. -/
def unpackRow (y : ℕ) : List DrawOp :=
  if Visible fb h y then
    (List.range (bytesPerRow w).toNat).map fun (b : ℕ) =>
      .unpack (rowOffset fb w h y + 8 * b) (srcAddr frame w y b)
  else []

/-- `w * 4`, passed as a `size_t`. -/
def rowCount : ℕ := CInt.toU64 (CInt.toI32 (w * 4))

/-- A round of the second loop. -/
def copyRow (y : ℕ) : List DrawOp :=
  if Visible fb h y then [.copy (rowOffset fb w h y) (rowCount w)] else []

def rowOps : List DrawOp :=
  (List.range h.toNat).flatMap (unpackRow fb frame w h) ++
    (List.range h.toNat).flatMap (copyRow fb w h)

/-- `fb->pitch * fb->height`. -/
def bufferSize : ℕ := fb.pitch * fb.height % 2 ^ 64

/-- The first call clears both buffers. -/
def openOps : List DrawOp := [.clear (bufferSize fb), .copy 0 (bufferSize fb)]

end Arguments

/-- The operations of a call with the given registers. -/
def drawOps (fb : LimineFramebuffer) (first : Bool) (frame rcx rdx : ℕ) : List DrawOp :=
  (if first then openOps fb else []) ++
    rowOps fb frame (CInt.toI32 rcx) (CInt.toI32 rdx)

/-! ## Their effect -/

/-- A pixel of a 32-bit buffer. -/
def pixelAddr (buffer : ℕ) (index : ℤ) : ℕ := CInt.toU64 (buffer + 4 * index)

/-- White for a set bit and black for a clear one. -/
def colour (bit : Bool) : ℕ := if bit then 0xFFFFFFFF else 0xFF000000

/-- The eight assignments to `dest_ptr[0]` to `dest_ptr[7]`. -/
def unpackByte (m : Memory) (backbuffer : ℕ) (index : ℤ) (bits : UInt8) : Memory :=
  Loop.times 8
    (fun k m => m.store (pixelAddr backbuffer (index + k)) 4 (colour (bits.toNat.testBit k))) m

def exec (vram backbuffer : ℕ) (m : Memory) : DrawOp → Memory
  | .clear count => Libc.memset m backbuffer 0 count
  | .copy offset count =>
      Libc.fastMemcpy m (pixelAddr vram offset) (pixelAddr backbuffer offset) count
  | .unpack index src => unpackByte m backbuffer index (m src)

/-- The back buffer, allocated by the first call. -/
def openBackbuffer (s : Display) (fb : LimineFramebuffer) : Option Display :=
  if s.backbuffer = 0 then
    (Kheap.kmalloc ⟨s.mem, s.freeList⟩ (bufferSize fb)).map fun result =>
      { s with
        mem := result.2.mem, freeList := result.2.freeList
        backbuffer := result.1, backbufferSize := bufferSize fb }
  else some s

/-- The call with `frame` in `rbx`. -/
def drawFrame (s : Display) (frame rcx rdx : ℕ) : Option Display :=
  match s.framebuffer with
  | none => some s
  | some fb =>
      (openBackbuffer s fb).map fun s' =>
        { s' with
          mem := (drawOps fb (s.backbuffer = 0) frame rcx rdx).foldl
            (exec fb.address s'.backbuffer) s'.mem }

end Display

end BadOS.Kernel
