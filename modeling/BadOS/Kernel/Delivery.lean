import BadOS.Kernel.Interrupts

/-! # Descriptors, gates and the delivery of interrupts

What a processor in 64-bit mode does with the tables it is given: the checks when a segment
register or the task register is loaded and the bit it sets in the descriptor, the way of an
exception or interrupt through its gate, with the faults on that way, the checks of the
return, and the access of a process to ports.
-/

namespace BadOS.Kernel

/-- A table register, or what the task register has of its segment. -/
structure TableRegister where
  limit : ℕ
  base : ℕ

inductive DataSegment
  | ds | es | fs | gs

/-- The registers of the processor that say where the tables are, and the selectors that
are no part of a `Cpu`. -/
structure SystemRegs where
  gdtr : TableRegister
  idtr : TableRegister
  tr : TableRegister
  data : DataSegment → ℕ

/-- A segment descriptor: `access` is the byte of this name, `flags` has G, D/B, L and AVL. -/
structure Descriptor where
  base : ℕ
  limit : ℕ
  access : ℕ
  flags : ℕ
deriving DecidableEq

namespace Descriptor

def present (d : Descriptor) : Bool := d.access / 128 % 2 == 1

def dpl (d : Descriptor) : ℕ := d.access / 32 % 4

/-- A code segment of 64-bit code. -/
def isLongCode (d : Descriptor) : Bool := d.access / 8 % 4 == 3 && d.flags / 2 % 4 == 1

def conforming (d : Descriptor) : Bool := d.access / 4 % 2 == 1

def isWritableData (d : Descriptor) : Bool := d.access / 8 % 4 == 2 && d.access / 2 % 2 == 1

/-- The descriptor of a TSS that no task register has. -/
def isAvailableTss (d : Descriptor) : Bool := d.access % 32 == 9

/-- The descriptor with its Accessed bit. -/
def accessed (d : Descriptor) : Descriptor := { d with access := d.access ||| 1 }

@[simp] theorem accessed_accessed (d : Descriptor) : d.accessed.accessed = d.accessed := by
  unfold accessed
  rw [Nat.or_assoc, Nat.or_self]

/-- The offset of the last byte. -/
def lastByte (d : Descriptor) : ℕ :=
  if d.flags / 8 % 2 = 1 then 4096 * d.limit + 4095 else d.limit

end Descriptor

/-- The eight bytes of entry `i`, where the base of a TSS goes on in the next entry. -/
def descriptorAt (m : Memory) (gdt i : ℕ) : Descriptor where
  base := m.load (gdt + 8 * i + 2) 2 + 2 ^ 16 * m.load (gdt + 8 * i + 4) 1 +
    2 ^ 24 * m.load (gdt + 8 * i + 7) 1
  limit := m.load (gdt + 8 * i) 2 + 2 ^ 16 * (m.load (gdt + 8 * i + 6) 1 % 16)
  access := m.load (gdt + 8 * i + 5) 1
  flags := m.load (gdt + 8 * i + 6) 1 / 16

/-- A gate: `flags` has P, the DPL and the type. -/
structure Gate where
  offset : ℕ
  selector : ℕ
  ist : ℕ
  flags : ℕ
deriving DecidableEq

namespace Gate

def present (g : Gate) : Bool := g.flags / 128 % 2 == 1

def dpl (g : Gate) : ℕ := g.flags / 32 % 4

/-- A gate that turns interrupts off. -/
def isInterruptGate (g : Gate) : Bool := g.flags % 32 == 0xE

def isTrapGate (g : Gate) : Bool := g.flags % 32 == 0xF

end Gate

def gateAt (m : Memory) (idt v : ℕ) : Gate where
  offset := m.load (idt + 16 * v) 2 + 2 ^ 16 * m.load (idt + 16 * v + 6) 2 +
    2 ^ 32 * m.load (idt + 16 * v + 8) 4
  selector := m.load (idt + 16 * v + 2) 2
  ist := m.load (idt + 16 * v + 4) 1 % 8
  flags := m.load (idt + 16 * v + 5) 1

/-- An address with the upper 17 bits alike. -/
def canonical (a : ℕ) : Bool := decide (a < 2 ^ 47 ∨ 2 ^ 64 - 2 ^ 47 ≤ a ∧ a < 2 ^ 64)

/-- The privilege level of the running code. -/
def Cpu.cpl (c : Cpu) : ℕ := c.cs % 4

def Cpu.iopl (c : Cpu) : ℕ := c.rflags / 2 ^ 12 % 4

/-- The flag NT, with which `iretq` faults. -/
def Cpu.nestedTask (c : Cpu) : Bool := c.rflags / 2 ^ 14 % 2 == 1

/-! ## Loads of segment registers -/

namespace SystemRegs

/-- The descriptor that a selector names, when it does. There is no local table. -/
def descriptor (p : SystemRegs) (m : Memory) (selector : ℕ) : Option Descriptor :=
  if selector / 8 = 0 ∨ selector / 4 % 2 = 1 ∨ p.gdtr.limit < selector / 8 * 8 + 7 then none
  else some (descriptorAt m p.gdtr.base (selector / 8))

/-- A load of a code or data segment sets the Accessed bit of its descriptor. -/
def markAccessed (p : SystemRegs) (m : Memory) (selector : ℕ) : Memory :=
  let entry := p.gdtr.base + 8 * (selector / 8)
  if selector / 8 = 0 then m else m.store (entry + 5) 1 (m.load (entry + 5) 1 ||| 1)

/-- `mov` of a selector to `ds`, `es`, `fs` or `gs`. -/
def mayLoadData (p : SystemRegs) (m : Memory) (cpl selector : ℕ) : Bool :=
  (p.descriptor m selector).any fun d =>
    d.isWritableData && d.present && decide (max cpl (selector % 4) ≤ d.dpl)

/-- A load of `ss`, also by a return to ring `ring`. -/
def mayLoadStack (p : SystemRegs) (m : Memory) (ring selector : ℕ) : Bool :=
  (p.descriptor m selector).any fun d =>
    d.isWritableData && d.present && selector % 4 == ring && d.dpl == ring

/-- A return to the address `rip` of the code segment `selector`. -/
def mayReturn (p : SystemRegs) (m : Memory) (cpl selector rip : ℕ) : Bool :=
  canonical rip && (p.descriptor m selector).any fun d =>
    d.isLongCode && d.present && decide (cpl ≤ selector % 4) &&
      (if d.conforming then decide (d.dpl ≤ selector % 4) else d.dpl == selector % 4)

/-- `iretq`, if it does not fault. The kernel's stack segment may be a null one. -/
def iretq (p : SystemRegs) (c : Cpu) (m : Memory) : Option (Cpu × Memory) :=
  let next := (Instr.iretq.exec (c, m)).1
  let ring := next.cs % 4
  if !c.nestedTask && p.mayReturn m c.cpl next.cs next.rip &&
      (next.ss == ring && ring != 3 || p.mayLoadStack m ring next.ss) then
    some (next, p.markAccessed (p.markAccessed m next.cs) next.ss)
  else none

/-- `ltr`, which marks the descriptor busy. -/
def ltr (p : SystemRegs) (m : Memory) (selector : ℕ) : Option (SystemRegs × Memory) :=
  match p.descriptor m selector with
  | none => none
  | some d =>
      let entry := p.gdtr.base + selector / 8 * 8
      if d.isAvailableTss && d.present && decide (selector / 8 * 8 + 15 ≤ p.gdtr.limit) then
        some ({ p with tr := ⟨d.lastByte, d.base + 2 ^ 32 * m.load (entry + 8) 4⟩ },
          m.store (entry + 5) 1 (d.access ||| 2))
      else none

/-- `in` and `out` of one byte. -/
def portAllowed (p : SystemRegs) (m : Memory) (c : Cpu) (port : ℕ) : Bool :=
  let bitmap := m.load (p.tr.base + 102) 2
  decide (c.cpl ≤ c.iopl) || decide (bitmap + port / 8 + 1 ≤ p.tr.limit) &&
    !(m.load (p.tr.base + bitmap + port / 8) 2).testBit (port % 8)

end SystemRegs

/-! ## Exceptions and interrupts -/

/-- An exception with its error code, an interrupt from outside, or `int`. -/
inductive Event
  | exception (v code : ℕ)
  | external (v : ℕ)
  | software (v : ℕ)
deriving DecidableEq

namespace Event

def vector : Event → ℕ
  | exception v _ | external v | software v => v

/-- The error code that goes on the stack. -/
def pushed : Event → Option ℕ
  | exception v code => if v ∈ [8, 10, 11, 12, 13, 14, 17] then some code else none
  | external _ | software _ => none

/-- The bit of an error code that the event is not a software interrupt. -/
def ext : Event → ℕ
  | exception _ _ | external _ => 1
  | software _ => 0

/-- The error code that names the gate of the event. -/
def gateCode (e : Event) : ℕ := 8 * e.vector + 2 + e.ext

def isDoubleFault : Event → Bool
  | exception v _ => v == 8
  | external _ | software _ => false

/-- The exceptions after which a fault on the way to the handler is a double fault. -/
def severe : Event → Bool
  | exception v _ => v ∈ [0, 10, 11, 12, 13, 14]
  | external _ | software _ => false

end Event

/-- The stack an event goes on when its handler runs in `ring`. -/
def SystemRegs.stackTop (p : SystemRegs) (m : Memory) (c : Cpu) (ist ring : ℕ) : ℕ :=
  if ist ≠ 0 then m.load (p.tr.base + 28 + 8 * ist) 8
  else if ring = c.cpl then c.reg .rsp
  else m.load (p.tr.base + 4 + 8 * ring) 8

/-- The processor's part of an interrupt through the gate `g`, to a handler in `ring` and
with its stack below `top`. -/
def enterGate (g : Gate) (ring top : ℕ) (code : Option ℕ) (c : Cpu) (m : Memory) : Cpu × Memory :=
  let stack := WordStack.pushAll (m, top - top % 16)
    ([c.ss, c.reg .rsp, c.rflags, c.cs, c.rip] ++ code.toList)
  ({ c.set .rsp stack.2 with
    rip := g.offset
    cs := g.selector - g.selector % 4 + ring
    rflags := c.rflags -
      (c.rflags &&& if g.isInterruptGate then taskFlags ||| interruptFlag else taskFlags)
    ss := if ring = c.cpl then c.ss else ring }, stack.1)

/-- An event on its way through its gate: the state in which the handler begins, or the
fault on the way. -/
def SystemRegs.deliver (p : SystemRegs) (e : Event) (c : Cpu) (m : Memory) :
    Except Event (Cpu × Memory) :=
  let g := gateAt m p.idtr.base e.vector
  if p.idtr.limit < 16 * e.vector + 15 ∨ !(g.isInterruptGate || g.isTrapGate) ∨
      e.ext = 0 ∧ g.dpl < c.cpl then .error (.exception 13 e.gateCode)
  else if !g.present then .error (.exception 11 e.gateCode)
  else
    let selectorCode := g.selector - g.selector % 4 + e.ext
    match p.descriptor m g.selector with
    | none => .error (.exception 13 selectorCode)
    | some d =>
        let ring := if d.conforming then c.cpl else d.dpl
        let top := p.stackTop m c g.ist ring
        if !d.isLongCode || decide (c.cpl < d.dpl) then .error (.exception 13 selectorCode)
        else if !d.present then .error (.exception 11 selectorCode)
        else if (ring ≠ c.cpl ∧ p.tr.limit < 8 * ring + 11) ∨
            (g.ist ≠ 0 ∧ p.tr.limit < 8 * g.ist + 35) then .error (.exception 10 e.ext)
        else if !canonical top then .error (.exception 12 e.ext)
        else if !canonical g.offset then .error (.exception 13 e.ext)
        else .ok (enterGate g ring top e.pushed c (p.markAccessed m g.selector))

/-- A double fault; a fault on its way shuts the processor down. -/
def SystemRegs.doubleFault (p : SystemRegs) (c : Cpu) (m : Memory) : Option (Cpu × Memory) :=
  (p.deliver (.exception 8 0) c m).toOption

/-- A fault that came up on the way of another event. -/
def SystemRegs.fault (p : SystemRegs) (e : Event) (c : Cpu) (m : Memory) : Option (Cpu × Memory) :=
  match p.deliver e c m with
  | .ok state => some state
  | .error _ => p.doubleFault c m

/-- What becomes of an event: the state in which a handler begins, or a shutdown. -/
def SystemRegs.deliverAll (p : SystemRegs) (e : Event) (c : Cpu) (m : Memory) :
    Option (Cpu × Memory) :=
  match p.deliver e c m with
  | .ok state => some state
  | .error second =>
      if e.isDoubleFault then none
      else if e.severe then p.doubleFault c m
      else p.fault second c m

end BadOS.Kernel
