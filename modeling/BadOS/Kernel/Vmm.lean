import BadOS.Foundation.RadixTree
import BadOS.Kernel.Pmm

/-! # Page tables

Four levels of tables of 512 entries, built by `vmm_map_page` in physical memory.
The higher-half direct map makes physical address `x` readable and writable at
`x + hhdm_offset`, so accesses through it are accesses at `x`.
-/

namespace BadOS.Kernel

/-- What a physical frame is allocated for. -/
inductive FrameRole
  | pml4
  | pdpt
  | pd
  | pt
  | heap
  | segment
  | stack
deriving DecidableEq

namespace FrameRole

/-- The frame becomes a table below the root. -/
def isTable (role : FrameRole) : Bool := role = .pdpt || role = .pd || role = .pt

end FrameRole

/-- Physical memory, the active root table and the frame allocator. The ghost list
`granted` records every result of `pmm_alloc_block`, newest first. -/
structure Machine where
  mem : Memory
  cr3 : ℕ
  pmm : Pmm
  granted : List (FrameRole × ℕ)

/-- `0x000FFFFFFFFFF000`. -/
def addrMask : ℕ := 0x000FFFFFFFFFF000

/-- A 9-bit table index of an address. -/
def index (virt shift : ℕ) : ℕ := (virt >>> shift) &&& 0x1FF

/-- `table[i]`. -/
def entry (mem : Memory) (table i : ℕ) : ℕ := mem.load (table + 8 * i) 8

def setEntry (mem : Memory) (table i v : ℕ) : Memory := mem.store (table + 8 * i) 8 v

namespace Machine

def setMem (m : Machine) (mem : Memory) : Machine := { m with mem }

/-- The functions that take frames do so through a parameter. -/
abbrev Allocator := Machine → FrameRole → ℕ × Machine

/-- `pmm_alloc_block` on a bitmap that is kept apart from the frames, recording the
result. -/
def allocBlock (m : Machine) (role : FrameRole) : ℕ × Machine :=
  let result := m.pmm.pmmAllocBlock
  (result.1, { m with pmm := result.2, granted := (role, result.1) :: m.granted })

/-- The allocator with its bitmap in physical memory, at the physical address
`pmmBitmap`. -/
def physPmm (m : Machine) : Pmm := { m.pmm with mem := m.mem }

/-- `pmm_alloc_block` on a bitmap that is part of physical memory, as it is where the
direct map makes it so. -/
def allocPhys (m : Machine) (role : FrameRole) : ℕ × Machine :=
  let result := m.physPmm.pmmAllocBlock
  (result.1,
    { m with mem := result.2.mem, pmm := result.2, granted := (role, result.1) :: m.granted })

/-- `get_active_page_dir`. -/
def getActivePageDir (m : Machine) : ℕ := m.cr3 &&& addrMask

def vmmInitialize (m : Machine) (alloc : Allocator := allocBlock) : Machine :=
  let oldPml4 := m.getActivePageDir
  let (newPml4, m) := alloc m .pml4
  let mem := Loop.times 512 (fun i mem => setEntry mem newPml4 i 0) m.mem
  let mem := Loop.times 256
    (fun i mem => setEntry mem newPml4 (256 + i) (entry mem oldPml4 (256 + i))) mem
  { m with mem, cr3 := newPml4 }

/-- A missing table is allocated, cleared and linked at `table[i]`. -/
def ensureTable (m : Machine) (role : FrameRole) (table i : ℕ)
    (alloc : Allocator := allocBlock) : Machine :=
  if entry m.mem table i &&& 1 = 0 then
    let (new, m) := alloc m role
    let m := m.setMem (Libc.memset m.mem new 0 4096)
    m.setMem (setEntry m.mem table i (new ||| 0x7))
  else m

/-- The value written by `vmm_map_page` into the last table. -/
def leafEntry (phys flags : ℕ) : ℕ := (phys &&& addrMask) ||| (flags &&& 0xFFF) ||| 0x1

def vmmMapPage (m : Machine) (phys virt flags : ℕ) (alloc : Allocator := allocBlock) :
    Machine :=
  let pml4 := m.getActivePageDir
  let m := m.ensureTable .pdpt pml4 (index virt 39) alloc
  let pdpt := entry m.mem pml4 (index virt 39) &&& addrMask
  let m := m.ensureTable .pd pdpt (index virt 30) alloc
  let pd := entry m.mem pdpt (index virt 30) &&& addrMask
  let m := m.ensureTable .pt pd (index virt 21) alloc
  let pt := entry m.mem pd (index virt 21) &&& addrMask
  m.setMem (setEntry m.mem pt (index virt 12) (leafEntry phys flags))

end Machine

/-! ## Address translation -/

/-- The entry that maps an address, and the logarithm of the size of its page. -/
structure Leaf where
  entry : ℕ
  pageBits : ℕ
deriving DecidableEq

def isPresent (e : ℕ) : Bool := e.testBit 0

/-- The page-size bit of an entry above the last level. -/
def isLarge (e : ℕ) : Bool := e.testBit 7

/-- The processor's walk of the tables below `cr3`. -/
def walk (mem : Memory) (cr3 virt : ℕ) : Option Leaf :=
  let e4 := entry mem (cr3 &&& addrMask) (index virt 39)
  if !isPresent e4 then none
  else
    let e3 := entry mem (e4 &&& addrMask) (index virt 30)
    if !isPresent e3 then none
    else if isLarge e3 then some ⟨e3, 30⟩
    else
      let e2 := entry mem (e3 &&& addrMask) (index virt 21)
      if !isPresent e2 then none
      else if isLarge e2 then some ⟨e2, 21⟩
      else
        let e1 := entry mem (e2 &&& addrMask) (index virt 12)
        if !isPresent e1 then none else some ⟨e1, 12⟩

/-! ## Tables as a store -/

/-- The number of the frame an entry or `cr3` points to. -/
def frameOf (e : ℕ) : ℕ := e / 4096 % 2 ^ 40

/-- The frame of the child table of an entry. -/
def childFrame (e : ℕ) : Option ℕ := if isPresent e then some (frameOf e) else none

/-- The table in frame `f`. -/
def tables (mem : Memory) (f : ℕ) (i : Fin 512) : ℕ := entry mem (4096 * f) i

theorem and_addrMask (e : ℕ) : e &&& addrMask = 4096 * frameOf e := by
  apply Nat.eq_of_testBit_eq
  intro i
  have hmask : addrMask = 2 ^ 12 * (2 ^ 40 - 1) := by decide
  have hframe : 4096 * frameOf e = 2 ^ 12 * ((e >>> 12) % 2 ^ 40) := by
    rw [Nat.shiftRight_eq_div_pow]
    rfl
  rw [Nat.testBit_and, hmask, hframe, Nat.testBit_two_pow_mul, Nat.testBit_two_pow_mul,
    Nat.testBit_two_pow_sub_one, Nat.testBit_mod_two_pow, Nat.testBit_shiftRight]
  by_cases hi : 12 ≤ i
  · have hsum : 12 + (i - 12) = i := by omega
    simp [hi, hsum, Bool.and_comm]
  · simp [hi]

theorem index_eq (virt shift : ℕ) : index virt shift = virt / 2 ^ shift % 512 := by
  unfold index
  rw [Nat.shiftRight_eq_div_pow, show (0x1FF : ℕ) = 2 ^ 9 - 1 by decide,
    Nat.and_two_pow_sub_one_eq_mod]

theorem isPresent_eq (e : ℕ) : isPresent e = decide (e % 2 = 1) := by
  rw [isPresent, Nat.testBit_zero]

theorem isPresent_eq_false_iff (e : ℕ) : isPresent e = false ↔ e &&& 1 = 0 := by
  rw [isPresent_eq, Nat.and_one_is_mod]
  simp

end BadOS.Kernel
