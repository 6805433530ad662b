import BadOS.Foundation.ByteMemory

/-! # The kernel heap allocator

Block headers live in the memory the heap manages: `next` at offset 0, `size` at
offset 8 and the 32-bit `is_free` at offset 16, in 24 bytes with padding.
-/

namespace BadOS.Kernel

structure Kheap where
  mem : Memory
  freeList : ℕ

namespace Kheap

/-- `sizeof(struct kheap_block)`. -/
def headerSize : ℕ := 24

/-! ## Header fields -/

def next (m : Memory) (block : ℕ) : ℕ := m.load block 8

def size (m : Memory) (block : ℕ) : ℕ := m.load (block + 8) 8

def isFree (m : Memory) (block : ℕ) : ℕ := m.load (block + 16) 4

def setNext (m : Memory) (block v : ℕ) : Memory := m.store block 8 v

def setSize (m : Memory) (block v : ℕ) : Memory := m.store (block + 8) 8 v

def setIsFree (m : Memory) (block v : ℕ) : Memory := m.store (block + 16) 4 v

/-! ## Operations -/

def kheapInitialize (mem : Memory) (startAddr totalSize : ℕ) : Kheap :=
  let mem := setSize mem startAddr totalSize
  let mem := setIsFree mem startAddr 1
  let mem := setNext mem startAddr 0
  { mem, freeList := startAddr }

/-- A second header behind the first `totalSize` bytes of `current`. -/
def splitBlock (m : Memory) (current totalSize : ℕ) : Memory :=
  let newBlock := (current + totalSize) % 2 ^ 64
  let m := setSize m newBlock ((size m current + 2 ^ 64 - totalSize) % 2 ^ 64)
  let m := setIsFree m newBlock 1
  let m := setNext m newBlock (next m current)
  let m := setSize m current totalSize
  setNext m current newBlock

/-- The body of `kmalloc` for a block that fits. -/
def takeBlock (m : Memory) (current totalSize : ℕ) : Memory :=
  let m :=
    if (totalSize + headerSize) % 2 ^ 64 < size m current then splitBlock m current totalSize
    else m
  setIsFree m current 0

/-- At most `fuel` rounds of the search; `none` when it has not ended by then. -/
def kmallocLoop (m : Memory) (totalSize : ℕ) : ℕ → ℕ → Option (ℕ × Memory)
  | 0, _ => none
  | fuel + 1, current =>
      if current = 0 then some (0, m)
      else if isFree m current ≠ 0 ∧ totalSize ≤ size m current then
        some ((current + headerSize) % 2 ^ 64, takeBlock m current totalSize)
      else kmallocLoop m totalSize fuel (next m current)

/-- The returned pointer and the heap after the call. The search changes nothing
before it ends, so one that visits more blocks than there are addresses never
ends: that is `none`. -/
def kmalloc (heap : Kheap) (size : ℕ) : Option (ℕ × Kheap) :=
  (kmallocLoop heap.mem ((size + headerSize) % 2 ^ 64) (2 ^ 64) heap.freeList).map
    fun result => (result.1, { heap with mem := result.2 })

/-- Absorb the next block when it is free. -/
def mergeNext (m : Memory) (block : ℕ) : Memory :=
  if next m block ≠ 0 ∧ isFree m (next m block) ≠ 0 then
    let m := setSize m block ((size m block + size m (next m block)) % 2 ^ 64)
    setNext m block (next m (next m block))
  else m

def kfree (heap : Kheap) (ptr : ℕ) : Kheap :=
  if ptr = 0 then heap
  else
    let block := (ptr + 2 ^ 64 - headerSize) % 2 ^ 64
    { heap with mem := mergeNext (setIsFree heap.mem block 1) block }

end Kheap

end BadOS.Kernel
