import BadOS.Foundation.Loop
import BadOS.Foundation.LittleEndian
import BadOS.Libc.String
import BadOS.Kernel.Delivery

/-! # The tables of the kernel

`gdt_initialize` and `idt_initialize`, field by field as they store them, and
`switch_to_user_mode`.
-/

namespace BadOS.Kernel

/-- The vectors that have a routine. -/
def handledVectors : List ℕ := [0, 13, 14, 32, 33, 128]

/-- Where the linker has put the objects of `gdt.c`, `tss.c` and `idt.c`, the label `.flush`
of `gdt_flush` and the routine `isrN` of every handled vector `N`, in the upper half of the
address space. -/
structure KernelObjects where
  gdt : ℕ
  gp : ℕ
  tssEntry : ℕ
  tssKernelStack : ℕ
  idt : ℕ
  idtp : ℕ
  flush : ℕ
  isr : ℕ → ℕ
  /-- No two objects overlap. -/
  apart : [(gdt, 56), (gp, 10), (tssEntry, 104), (tssKernelStack, 4096), (idt, 4096),
    (idtp, 10)].Pairwise fun a b => a.1 + a.2 ≤ b.1 ∨ b.1 + b.2 ≤ a.1
  upper : ∀ a ∈ [gdt, gp, tssEntry, tssKernelStack, idt, idtp],
    2 ^ 64 - 2 ^ 47 ≤ a ∧ a < 2 ^ 64 - 2 ^ 13
  flush_upper : 2 ^ 64 - 2 ^ 47 ≤ flush ∧ flush < 2 ^ 64
  isr_upper : ∀ v ∈ handledVectors, 2 ^ 64 - 2 ^ 47 ≤ isr v ∧ isr v < 2 ^ 64

/-! ## `gdt.c` and `tss.c` -/

def gdtSetGate (m : Memory) (gdt num base limit access gran : ℕ) : Memory :=
  let e := gdt + 8 * num
  let m := m.store (e + 2) 2 (base &&& 0xFFFF)
  let m := m.store (e + 4) 1 ((base >>> 16) &&& 0xFF)
  let m := m.store (e + 7) 1 ((base >>> 24) &&& 0xFF)
  let m := m.store e 2 (limit &&& 0xFFFF)
  let m := m.store (e + 6) 1 ((limit >>> 16) &&& 0x0F)
  let m := m.store (e + 6) 1 (m.load (e + 6) 1 ||| gran &&& 0xF0)
  m.store (e + 5) 1 access

/-- The five segments. -/
def gdtSegments (m : Memory) (gdt : ℕ) : Memory :=
  let m := gdtSetGate m gdt 0 0 0 0 0
  let m := gdtSetGate m gdt 1 0 0xFFFFFFFF 0x9A 0xAF
  let m := gdtSetGate m gdt 2 0 0xFFFFFFFF 0x92 0xCF
  let m := gdtSetGate m gdt 3 0 0xFFFFFFFF 0xFA 0xAF
  gdtSetGate m gdt 4 0 0xFFFFFFFF 0xF2 0xCF

/-- `lgdt` and the loads of all the segment registers, the last one by a return to `flush`. -/
def gdtFlush (p : SystemRegs) (c : Cpu) (m : Memory) (gp flush : ℕ) :
    Option (SystemRegs × Cpu × Memory) :=
  let p := { p with gdtr := ⟨m.load gp 2, m.load (gp + 2) 8⟩ }
  if p.mayLoadData m c.cpl 0x10 && p.mayLoadStack m c.cpl 0x10 &&
      p.mayReturn m c.cpl 0x08 flush then
    some ({ p with data := fun _ => 0x10 }, { c with cs := 0x08, ss := 0x10 },
      p.markAccessed (p.markAccessed m 0x10) 0x08)
  else none

/-- The upper half of the TSS descriptor, in the entry `num`. -/
def gdtSetUpper (m : Memory) (gdt num baseUpper : ℕ) : Memory :=
  let e := gdt + 8 * num
  let m := m.store e 2 (baseUpper &&& 0xFFFF)
  let m := m.store (e + 2) 2 ((baseUpper >>> 16) &&& 0xFFFF)
  let m := m.store (e + 4) 1 0
  let m := m.store (e + 5) 1 0
  let m := m.store (e + 6) 1 0
  m.store (e + 7) 1 0

/-- The TSS, where `rsp0` is at 4 and `iopb_offset` at 102. -/
def tssFill (m : Memory) (tssEntry kernelRsp : ℕ) : Memory :=
  let m := Libc.memset m tssEntry 0 104
  let m := m.store (tssEntry + 4) 8 kernelRsp
  m.store (tssEntry + 102) 2 104

def tssInstall (p : SystemRegs) (m : Memory) (gdt tssEntry gdtIdx kernelRsp : ℕ) :
    Option (SystemRegs × Memory) :=
  let m := gdtSetGate m gdt gdtIdx tssEntry 104 0x89 0x00
  let m := gdtSetUpper m gdt (gdtIdx + 1) (tssEntry >>> 32)
  let m := tssFill m tssEntry kernelRsp
  p.ltr m 0x28

def gdtInitialize (K : KernelObjects) (p : SystemRegs) (c : Cpu) (m : Memory) :
    Option (SystemRegs × Cpu × Memory) :=
  let m := m.store K.gp 2 (8 * 7 - 1)
  let m := m.store (K.gp + 2) 8 K.gdt
  let m := gdtSegments m K.gdt
  match gdtFlush p c m K.gp K.flush with
  | none => none
  | some (p, c, m) =>
      (tssInstall p m K.gdt K.tssEntry 5 (K.tssKernelStack + 4096)).map fun (p, m) => (p, c, m)

/-! ## `idt.c` -/

def idtSetGate (m : Memory) (idt num base sel flags : ℕ) : Memory :=
  let e := idt + 16 * num
  let m := m.store e 2 (base &&& 0xFFFF)
  let m := m.store (e + 6) 2 ((base >>> 16) &&& 0xFFFF)
  let m := m.store (e + 8) 4 ((base >>> 32) &&& 0xFFFFFFFF)
  let m := m.store (e + 2) 2 sel
  let m := m.store (e + 4) 1 0
  let m := m.store (e + 5) 1 flags
  m.store (e + 12) 4 0

/-- The gates of the table. -/
def idtGates (K : KernelObjects) (m : Memory) : Memory :=
  let m := Loop.times 256 (fun i m => idtSetGate m K.idt i 0 0 0) m
  let m := idtSetGate m K.idt 0 (K.isr 0) 0x08 0x8E
  let m := idtSetGate m K.idt 13 (K.isr 13) 0x08 0x8E
  let m := idtSetGate m K.idt 14 (K.isr 14) 0x08 0x8E
  let m := idtSetGate m K.idt 32 (K.isr 32) 0x08 0x8E
  let m := idtSetGate m K.idt 33 (K.isr 33) 0x08 0x8E
  idtSetGate m K.idt 128 (K.isr 128) 0x08 0xEE

def idtInitialize (K : KernelObjects) (p : SystemRegs) (m : Memory) : SystemRegs × Memory :=
  let m := m.store K.idtp 2 (16 * 256 - 1)
  let m := m.store (K.idtp + 2) 8 K.idt
  let m := idtGates K m
  ({ p with idtr := ⟨m.load K.idtp 2, m.load (K.idtp + 2) 8⟩ }, m)

/-- Both, as `_start` calls them. -/
def descriptorsInitialize (K : KernelObjects) (p : SystemRegs) (c : Cpu) (m : Memory) :
    Option (SystemRegs × Cpu × Memory) :=
  (gdtInitialize K p c m).map fun (p, c, m) =>
    let (p, m) := idtInitialize K p m
    (p, c, m)

/-! ## `process.S` -/

/-- The frame for `iretq`, with the flags in `rax` and the entry point in `rbx`, and the
jump. -/
def jumpToUserMode (p : SystemRegs) (c : Cpu) (m : Memory) : Option (SystemRegs × Cpu × Memory) :=
  let stack := WordStack.pushAll (m, c.reg .rsp) [0x23, 0x800000, c.reg .rax, 0x1B, c.reg .rbx]
  (p.iretq (c.set .rsp stack.2) stack.1).map fun (c, m) => (p, c, m)

/-- `switch_to_user_mode(entry_point)`, with its argument in `rdi`. -/
def switchToUserMode (p : SystemRegs) (c : Cpu) (m : Memory) :
    Option (SystemRegs × Cpu × Memory) :=
  let c := { c with rflags := c.rflags - (c.rflags &&& interruptFlag) }
  let c := c.set .rbx (c.reg .rdi)
  if p.mayLoadData m c.cpl 0x23 then
    jumpToUserMode { p with data := fun _ => 0x23 } (c.set .rax (c.rflags ||| 0x200))
      (p.markAccessed m 0x23)
  else none

variable {m m' : Memory} {gdt idt num base limit access gran sel flags i x kernelRsp tssEntry : ℕ}

/-! ## Entries -/

theorem shiftRight_land_mask (a k n : ℕ) : (a >>> k) &&& (2 ^ n - 1) = a / 2 ^ k % 2 ^ n := by
  rw [Nat.and_two_pow_sub_one_eq_mod, Nat.shiftRight_eq_div_pow]

theorem land_upper_nibble : ∀ g < 256, g &&& 0xF0 = 2 ^ 4 * (g / 16) := by decide +kernel

theorem gdtSetGate_descriptorAt (haccess : access < 256) (hgran : gran < 256) :
    descriptorAt (gdtSetGate m gdt num base limit access gran) gdt num =
      ⟨base % 2 ^ 32, limit % 2 ^ 20, access, gran / 16⟩ := by
  have hlow : base &&& 0xFFFF = base % 2 ^ 16 :=
    Nat.and_two_pow_sub_one_eq_mod _ 16
  have hmiddle : (base >>> 16) &&& 0xFF = base / 2 ^ 16 % 2 ^ 8 := shiftRight_land_mask _ 16 8
  have hhigh : (base >>> 24) &&& 0xFF = base / 2 ^ 24 % 2 ^ 8 := shiftRight_land_mask _ 24 8
  have hlimitLow : limit &&& 0xFFFF = limit % 2 ^ 16 :=
    Nat.and_two_pow_sub_one_eq_mod _ 16
  have hlimitHigh : (limit >>> 16) &&& 0x0F = limit / 2 ^ 16 % 2 ^ 4 := shiftRight_land_mask _ 16 4
  have hgranularity : limit / 2 ^ 16 % 2 ^ 4 % 256 ^ 1 ||| gran &&& 0xF0 =
      2 ^ 4 * (gran / 16) + limit / 2 ^ 16 % 2 ^ 4 := by
    rw [Nat.mod_eq_of_lt (by omega : limit / 2 ^ 16 % 2 ^ 4 < 256 ^ 1),
      land_upper_nibble gran hgran, Nat.or_comm]
    exact (Nat.two_pow_add_eq_or_of_lt (Nat.mod_lt _ (by decide)) _).symm
  unfold descriptorAt gdtSetGate
  simp (disch := omega) only [Memory.load_store_mod, Memory.load_store_of_disjoint,
    Descriptor.mk.injEq, hlow, hmiddle, hhigh, hlimitLow, hlimitHigh, hgranularity]
  omega

theorem gdtSetGate_outside (hx : x < gdt + 8 * num ∨ gdt + 8 * num + 8 ≤ x) :
    gdtSetGate m gdt num base limit access gran x = m x := by
  unfold gdtSetGate
  simp (disch := omega) only [Memory.store_outside]

theorem descriptorAt_congr (h : ∀ x, gdt + 8 * i ≤ x → x < gdt + 8 * i + 8 → m' x = m x) :
    descriptorAt m' gdt i = descriptorAt m gdt i := by
  have hload : ∀ a n, gdt + 8 * i ≤ a → a + n ≤ gdt + 8 * i + 8 → m'.load a n = m.load a n :=
    fun a n hlo hhi => Memory.load_congr fun j hj => h _ (by omega) (by omega)
  unfold descriptorAt
  simp (disch := omega) only [hload]

theorem SystemRegs.markAccessed_outside {p : SystemRegs} {selector : ℕ}
    (hx : x ≠ p.gdtr.base + 8 * (selector / 8) + 5) : p.markAccessed m selector x = m x := by
  unfold SystemRegs.markAccessed
  split
  · rfl
  · exact Memory.store_outside (by omega)

theorem SystemRegs.markAccessed_update {p : SystemRegs} {selector : ℕ} (hpos : 8 ≤ selector) :
    descriptorAt (p.markAccessed m selector) p.gdtr.base =
      Function.update (descriptorAt m p.gdtr.base) (selector / 8)
        (descriptorAt m p.gdtr.base (selector / 8)).accessed := by
  funext i
  by_cases hi : i = selector / 8
  · have hbyte : m.load (p.gdtr.base + 8 * i + 5) 1 ||| 1 < 256 ^ 1 :=
      Nat.or_lt_two_pow (n := 8) (Memory.load_lt _ _ 1) (by decide)
    subst hi
    rw [Function.update_self]
    unfold SystemRegs.markAccessed descriptorAt Descriptor.accessed
    dsimp only
    rw [if_neg (by omega)]
    simp (disch := omega) only [Memory.load_store_of_disjoint, Memory.load_store hbyte]
  · rw [Function.update_of_ne hi]
    exact descriptorAt_congr fun x hlo hhi => markAccessed_outside (by omega)

theorem gdtSetGate_update (haccess : access < 256) (hgran : gran < 256) :
    descriptorAt (gdtSetGate m gdt num base limit access gran) gdt =
      Function.update (descriptorAt m gdt) num
        ⟨base % 2 ^ 32, limit % 2 ^ 20, access, gran / 16⟩ := by
  funext i
  by_cases hi : i = num
  · rw [hi, gdtSetGate_descriptorAt haccess hgran, Function.update_self]
  · rw [Function.update_of_ne hi]
    exact descriptorAt_congr fun x hlo hhi => gdtSetGate_outside (by omega)

theorem gateAt_congr (h : ∀ x, idt + 16 * i ≤ x → x < idt + 16 * i + 16 → m' x = m x) :
    gateAt m' idt i = gateAt m idt i := by
  have hload : ∀ a n, idt + 16 * i ≤ a → a + n ≤ idt + 16 * i + 16 → m'.load a n = m.load a n :=
    fun a n hlo hhi => Memory.load_congr fun j hj => h _ (by omega) (by omega)
  unfold gateAt
  simp (disch := omega) only [hload]

theorem idtSetGate_gateAt (hsel : sel < 2 ^ 16) (hflags : flags < 256) (hbase : base < 2 ^ 64) :
    gateAt (idtSetGate m idt num base sel flags) idt num = ⟨base, sel, 0, flags⟩ := by
  have hlow : base &&& 0xFFFF = base % 2 ^ 16 :=
    Nat.and_two_pow_sub_one_eq_mod _ 16
  have hmid : (base >>> 16) &&& 0xFFFF = base / 2 ^ 16 % 2 ^ 16 := shiftRight_land_mask _ 16 16
  have hhigh : (base >>> 32) &&& 0xFFFFFFFF = base / 2 ^ 32 % 2 ^ 32 :=
    shiftRight_land_mask _ 32 32
  unfold gateAt idtSetGate
  simp (disch := omega) only [Memory.load_store_mod, Memory.load_store_of_disjoint,
    Gate.mk.injEq, hlow, hmid, hhigh]
  omega

theorem idtSetGate_outside (hx : x < idt + 16 * num ∨ idt + 16 * num + 16 ≤ x) :
    idtSetGate m idt num base sel flags x = m x := by
  unfold idtSetGate
  simp (disch := omega) only [Memory.store_outside]

theorem idtSetGate_update (hsel : sel < 2 ^ 16) (hflags : flags < 256) (hbase : base < 2 ^ 64) :
    gateAt (idtSetGate m idt num base sel flags) idt =
      Function.update (gateAt m idt) num ⟨base, sel, 0, flags⟩ := by
  funext i
  by_cases hi : i = num
  · rw [hi, idtSetGate_gateAt hsel hflags hbase, Function.update_self]
  · rw [Function.update_of_ne hi]
    exact gateAt_congr fun x hlo hhi => idtSetGate_outside (by omega)

theorem tssFill_outside (hx : x < tssEntry ∨ tssEntry + 104 ≤ x) :
    tssFill m tssEntry kernelRsp x = m x := by
  unfold tssFill
  rw [Libc.memset_eq_fill]
  simp (disch := omega) only [Memory.store_outside, Memory.fill_outside]

theorem tssFill_rsp0 (hrsp : kernelRsp < 2 ^ 64) :
    (tssFill m tssEntry kernelRsp).load (tssEntry + 4) 8 = kernelRsp := by
  unfold tssFill
  rw [Memory.load_store_of_disjoint (by omega), Memory.load_store hrsp]

theorem tssFill_iopb : (tssFill m tssEntry kernelRsp).load (tssEntry + 102) 2 = 104 :=
  Memory.load_store (by decide)

theorem gdtSetUpper_outside {baseUpper : ℕ} (hx : x < gdt + 8 * num ∨ gdt + 8 * num + 8 ≤ x) :
    gdtSetUpper m gdt num baseUpper x = m x := by
  unfold gdtSetUpper
  simp (disch := omega) only [Memory.store_outside]

/-- What the processor takes for the upper half of the base. -/
theorem gdtSetUpper_load {baseUpper : ℕ} (hbase : baseUpper < 2 ^ 32) :
    (gdtSetUpper m gdt num baseUpper).load (gdt + 8 * num) 4 = baseUpper := by
  have hlow : baseUpper &&& 0xFFFF = baseUpper % 2 ^ 16 :=
    Nat.and_two_pow_sub_one_eq_mod _ 16
  have hhigh : (baseUpper >>> 16) &&& 0xFFFF = baseUpper / 2 ^ 16 % 2 ^ 16 :=
    shiftRight_land_mask _ 16 16
  have hsplit := Memory.load_add (gdtSetUpper m gdt num baseUpper) (gdt + 8 * num) 2 2
  rw [hsplit]
  unfold gdtSetUpper
  simp (disch := omega) only [Memory.load_store_mod, Memory.load_store_of_disjoint, hlow, hhigh]
  omega

/-! ## Tables -/

/-- The segments of the kernel and of the process, as they are stored. -/
def storedSegment : ℕ → Descriptor
  | 1 => ⟨0, 0xFFFFF, 0x9A, 0xA⟩
  | 2 => ⟨0, 0xFFFFF, 0x92, 0xC⟩
  | 3 => ⟨0, 0xFFFFF, 0xFA, 0xA⟩
  | 4 => ⟨0, 0xFFFFF, 0xF2, 0xC⟩
  | _ => ⟨0, 0, 0, 0⟩

/-- The segments when the processor has loaded those in `loaded`. -/
def kernelSegment (loaded : List ℕ) (i : ℕ) : Descriptor :=
  if i ∈ loaded then (storedSegment i).accessed else storedSegment i

theorem kernelSegment_cons (loaded : List ℕ) (j : ℕ) :
    kernelSegment (j :: loaded) =
      Function.update (kernelSegment loaded) j (kernelSegment loaded j).accessed := by
  funext i
  by_cases hi : i = j
  · subst hi
    rw [Function.update_self]
    unfold kernelSegment
    rw [if_pos List.mem_cons_self]
    split
    · rw [Descriptor.accessed_accessed]
    · rfl
  · rw [Function.update_of_ne hi]
    unfold kernelSegment
    simp only [List.mem_cons, hi, false_or]

theorem kernelSegment_accessed {loaded : List ℕ} (hi : i ∈ loaded) :
    (kernelSegment loaded i).accessed = kernelSegment loaded i := by
  unfold kernelSegment
  rw [if_pos hi, Descriptor.accessed_accessed]

def KernelObjects.Segments (K : KernelObjects) (loaded : List ℕ) (m : Memory) : Prop :=
  ∀ i < 5, descriptorAt m K.gdt i = kernelSegment loaded i

theorem gdtSegments_segments (K : KernelObjects) : K.Segments [] (gdtSegments m K.gdt) := by
  intro i hi
  unfold gdtSegments
  dsimp only
  rw [gdtSetGate_update (by decide) (by decide), gdtSetGate_update (by decide) (by decide),
    gdtSetGate_update (by decide) (by decide), gdtSetGate_update (by decide) (by decide),
    gdtSetGate_update (by decide) (by decide)]
  interval_cases i <;> simp [kernelSegment, storedSegment]

/-- A load of a segment. -/
theorem KernelObjects.Segments.markAccessed {K : KernelObjects} {p : SystemRegs}
    {loaded : List ℕ} (h : K.Segments loaded m) (hgdtr : p.gdtr = ⟨55, K.gdt⟩) (selector : ℕ)
    (hpos : 8 ≤ selector) (hlt : selector < 40) :
    K.Segments (selector / 8 :: loaded) (p.markAccessed m selector) := by
  intro i hi
  have hbase : p.gdtr.base = K.gdt := congrArg TableRegister.base hgdtr
  have hupdate := SystemRegs.markAccessed_update (m := m) (p := p) hpos
  rw [hbase, h _ (by omega)] at hupdate
  rw [hupdate, kernelSegment_cons, Function.update_apply, Function.update_apply, h i hi]

/-- A load of a segment that has been loaded before. -/
theorem KernelObjects.Segments.markAccessed_self {K : KernelObjects} {p : SystemRegs}
    {loaded : List ℕ} {selector : ℕ} (h : K.Segments loaded m) (hgdtr : p.gdtr = ⟨55, K.gdt⟩)
    (hlt : selector < 40) (hloaded : selector / 8 ∈ loaded) : p.markAccessed m selector = m := by
  have haccessed : (descriptorAt m K.gdt (selector / 8)).accessed =
      descriptorAt m K.gdt (selector / 8) := by
    rw [h _ (by omega)]
    exact kernelSegment_accessed hloaded
  have hbyte : m.load (K.gdt + 8 * (selector / 8) + 5) 1 ||| 1 =
      m.load (K.gdt + 8 * (selector / 8) + 5) 1 := congrArg Descriptor.access haccessed
  unfold SystemRegs.markAccessed
  rw [hgdtr]
  dsimp only
  split
  · rfl
  · rw [hbyte, Memory.store_load]
    exact Memory.blit_eq_self_iff.mpr fun _ _ => rfl

theorem gdtSegments_outside (hx : x < gdt ∨ gdt + 40 ≤ x) : gdtSegments m gdt x = m x := by
  unfold gdtSegments
  simp (disch := omega) only [gdtSetGate_outside]

/-- The gate of a vector. -/
def KernelObjects.gate (K : KernelObjects) (v : ℕ) : Gate :=
  if v ∈ handledVectors then ⟨K.isr v, 0x08, 0, if v = 128 then 0xEE else 0x8E⟩ else ⟨0, 0, 0, 0⟩

/-- The loop clears every gate. -/
theorem idtSetGate_times (m : Memory) (idt : ℕ) :
    ∀ v < 256, gateAt (Loop.times 256 (fun i m => idtSetGate m idt i 0 0 0) m) idt v =
      ⟨0, 0, 0, 0⟩ := by
  refine Loop.times_invariant (fun n m => ∀ v < n, gateAt m idt v = ⟨0, 0, 0, 0⟩) _ 256 m
    (fun v hv => absurd hv (Nat.not_lt_zero v)) fun n hn m hm v hv => ?_
  rw [idtSetGate_update (by decide) (by decide) (by decide)]
  by_cases hvn : v = n
  · rw [hvn, Function.update_self]
  · rw [Function.update_of_ne hvn]
    exact hm v (by omega)

theorem idtGates_gateAt {K : KernelObjects} {v : ℕ} (hv : v < 256) :
    gateAt (idtGates K m) K.idt v = K.gate v := by
  have hisr : ∀ v ∈ handledVectors, K.isr v < 2 ^ 64 := fun v hv => (K.isr_upper v hv).2
  have hzero := idtSetGate_times m K.idt v hv
  unfold idtGates
  dsimp only
  rw [idtSetGate_update (by decide) (by decide) (hisr 128 (by decide)),
    idtSetGate_update (by decide) (by decide) (hisr 33 (by decide)),
    idtSetGate_update (by decide) (by decide) (hisr 32 (by decide)),
    idtSetGate_update (by decide) (by decide) (hisr 14 (by decide)),
    idtSetGate_update (by decide) (by decide) (hisr 13 (by decide)),
    idtSetGate_update (by decide) (by decide) (hisr 0 (by decide))]
  simp only [Function.update_apply, hzero, KernelObjects.gate, handledVectors, List.mem_cons,
    List.not_mem_nil, or_false]
  split_ifs <;> grind

theorem idtGates_outside {K : KernelObjects} (hx : x < K.idt ∨ K.idt + 4096 ≤ x) :
    idtGates K m x = m x := by
  have hloop : Loop.times 256 (fun i m => idtSetGate m K.idt i 0 0 0) m x = m x :=
    Loop.times_invariant (fun _ m' => m' x = m x) _ 256 m rfl fun i hi m' hm' =>
      (idtSetGate_outside (by omega)).trans hm'
  unfold idtGates
  simp (disch := omega) only [idtSetGate_outside, hloop]

/-- The pairs of objects, none of which overlap. -/
theorem KernelObjects.pairs (K : KernelObjects) :
    ((K.gdt + 56 ≤ K.gp ∨ K.gp + 10 ≤ K.gdt) ∧
      (K.gdt + 56 ≤ K.tssEntry ∨ K.tssEntry + 104 ≤ K.gdt) ∧
      (K.gdt + 56 ≤ K.tssKernelStack ∨ K.tssKernelStack + 4096 ≤ K.gdt) ∧
      (K.gdt + 56 ≤ K.idt ∨ K.idt + 4096 ≤ K.gdt) ∧
      (K.gdt + 56 ≤ K.idtp ∨ K.idtp + 10 ≤ K.gdt)) ∧
    ((K.gp + 10 ≤ K.tssEntry ∨ K.tssEntry + 104 ≤ K.gp) ∧
      (K.gp + 10 ≤ K.tssKernelStack ∨ K.tssKernelStack + 4096 ≤ K.gp) ∧
      (K.gp + 10 ≤ K.idt ∨ K.idt + 4096 ≤ K.gp) ∧
      (K.gp + 10 ≤ K.idtp ∨ K.idtp + 10 ≤ K.gp)) ∧
    ((K.tssEntry + 104 ≤ K.tssKernelStack ∨ K.tssKernelStack + 4096 ≤ K.tssEntry) ∧
      (K.tssEntry + 104 ≤ K.idt ∨ K.idt + 4096 ≤ K.tssEntry) ∧
      (K.tssEntry + 104 ≤ K.idtp ∨ K.idtp + 10 ≤ K.tssEntry)) ∧
    ((K.tssKernelStack + 4096 ≤ K.idt ∨ K.idt + 4096 ≤ K.tssKernelStack) ∧
      (K.tssKernelStack + 4096 ≤ K.idtp ∨ K.idtp + 10 ≤ K.tssKernelStack)) ∧
    (K.idt + 4096 ≤ K.idtp ∨ K.idtp + 10 ≤ K.idt) := by
  simpa only [List.pairwise_cons, List.mem_cons, List.not_mem_nil, or_false, forall_eq_or_imp,
    forall_eq, List.Pairwise.nil, and_true, false_implies, implies_true] using K.apart

/-- The tables as the boot leaves them, and the registers of the processor that name them. -/
structure Installed (K : KernelObjects) (loaded : List ℕ) (p : SystemRegs) (m : Memory) : Prop
    where
  gdtr_eq : p.gdtr = ⟨55, K.gdt⟩
  idtr_eq : p.idtr = ⟨4095, K.idt⟩
  tr_eq : p.tr = ⟨104, K.tssEntry⟩
  segments : K.Segments loaded m
  gates : ∀ v < 256, gateAt m K.idt v = K.gate v
  rsp0_eq : m.load (K.tssEntry + 4) 8 = K.tssKernelStack + 4096
  iopb_eq : m.load (K.tssEntry + 102) 2 = 104

/-- A byte of a table or of the TSS. -/
def KernelObjects.TableByte (K : KernelObjects) (x : ℕ) : Prop :=
  K.gdt ≤ x ∧ x < K.gdt + 56 ∨ K.tssEntry ≤ x ∧ x < K.tssEntry + 104 ∨
    K.idt ≤ x ∧ x < K.idt + 4096

theorem Installed.congr {K : KernelObjects} {loaded : List ℕ} {p : SystemRegs}
    (h : Installed K loaded p m) (hsame : ∀ x, K.TableByte x → m' x = m x) :
    Installed K loaded p m' where
  gdtr_eq := h.gdtr_eq
  idtr_eq := h.idtr_eq
  tr_eq := h.tr_eq
  segments i hi :=
    (descriptorAt_congr fun x hlo hhi => hsame x (Or.inl (by omega))).trans (h.segments i hi)
  gates v hv :=
    (gateAt_congr fun x hlo hhi => hsame x (Or.inr (Or.inr (by omega)))).trans (h.gates v hv)
  rsp0_eq := (Memory.load_congr fun i hi => hsame _ (Or.inr (Or.inl (by omega)))).trans h.rsp0_eq
  iopb_eq := (Memory.load_congr fun i hi => hsame _ (Or.inr (Or.inl (by omega)))).trans h.iopb_eq

/-- The selectors the kernel uses name its segments. -/
theorem KernelObjects.Segments.descriptor {K : KernelObjects} {loaded : List ℕ} {p : SystemRegs}
    (h : K.Segments loaded m) (hgdtr : p.gdtr = ⟨55, K.gdt⟩) (selector : ℕ) (hpos : 8 ≤ selector)
    (hlt : selector < 40) (hlocal : selector / 4 % 2 = 0) :
    p.descriptor m selector = some (kernelSegment loaded (selector / 8)) := by
  unfold SystemRegs.descriptor
  rw [hgdtr]
  dsimp only
  rw [if_neg (by omega), h _ (by omega)]

theorem Installed.markAccessed {K : KernelObjects} {loaded : List ℕ} {p : SystemRegs}
    (h : Installed K loaded p m) (selector : ℕ) (hpos : 8 ≤ selector) (hlt : selector < 40) :
    Installed K (selector / 8 :: loaded) p (p.markAccessed m selector) := by
  obtain ⟨⟨-, htss, -, hidt, -⟩, -⟩ := K.pairs
  have houtside : ∀ x, x < K.gdt ∨ K.gdt + 56 ≤ x → p.markAccessed m selector x = m x := by
    intro x hx
    refine SystemRegs.markAccessed_outside ?_
    rw [h.gdtr_eq]
    dsimp only
    omega
  exact {
    gdtr_eq := h.gdtr_eq
    idtr_eq := h.idtr_eq
    tr_eq := h.tr_eq
    segments := h.segments.markAccessed h.gdtr_eq selector hpos hlt
    gates := fun v hv =>
      (gateAt_congr fun x hlo hhi => houtside x (by omega)).trans (h.gates v hv)
    rsp0_eq := (Memory.load_congr fun i hi => houtside _ (by omega)).trans h.rsp0_eq
    iopb_eq := (Memory.load_congr fun i hi => houtside _ (by omega)).trans h.iopb_eq }

/-! ## The boot -/

theorem KernelObjects.addresses (K : KernelObjects) :
    K.gdt < 2 ^ 64 - 2 ^ 13 ∧ K.gp < 2 ^ 64 - 2 ^ 13 ∧ K.tssEntry < 2 ^ 64 - 2 ^ 13 ∧
      K.tssKernelStack < 2 ^ 64 - 2 ^ 13 ∧ K.idt < 2 ^ 64 - 2 ^ 13 ∧ K.idtp < 2 ^ 64 - 2 ^ 13 := by
  have hupper := K.upper
  simp only [List.mem_cons, List.not_mem_nil, or_false, forall_eq_or_imp, forall_eq] at hupper
  omega

/-- The task register gets the whole base, whose upper half is in the entry behind. -/
theorem ltr_eq {K : KernelObjects} {p : SystemRegs} (hgdtr : p.gdtr = ⟨55, K.gdt⟩)
    (hlower : descriptorAt m K.gdt 5 = ⟨K.tssEntry % 2 ^ 32, 104, 0x89, 0⟩)
    (hupper : m.load (K.gdt + 8 * 6) 4 = K.tssEntry / 2 ^ 32) :
    p.ltr m 0x28 =
      some ({ p with tr := ⟨104, K.tssEntry⟩ }, m.store (K.gdt + 45) 1 (0x89 ||| 2)) := by
  have hdescriptor : p.descriptor m 0x28 = some ⟨K.tssEntry % 2 ^ 32, 104, 0x89, 0⟩ := by
    unfold SystemRegs.descriptor
    rw [hgdtr]
    dsimp only
    rw [if_neg (by decide), hlower]
  have havailable : Descriptor.isAvailableTss ⟨K.tssEntry % 2 ^ 32, 104, 0x89, 0⟩ = true := by
    simp [Descriptor.isAvailableTss]
  have hpresent : Descriptor.present ⟨K.tssEntry % 2 ^ 32, 104, 0x89, 0⟩ = true := by
    simp [Descriptor.present]
  have hlast : Descriptor.lastByte ⟨K.tssEntry % 2 ^ 32, 104, 0x89, 0⟩ = 104 := if_neg (by simp)
  have hentry : K.gdt + 0x28 / 8 * 8 = K.gdt + 40 := rfl
  have hjoined : K.tssEntry % 2 ^ 32 + 2 ^ 32 * (K.tssEntry / 2 ^ 32) = K.tssEntry := by omega
  unfold SystemRegs.ltr
  rw [hdescriptor, hgdtr]
  dsimp only
  rw [havailable, hpresent, hentry, show K.gdt + 40 + 8 = K.gdt + 8 * 6 from rfl, hupper, hlast,
    hjoined]
  rfl

theorem tssInstall_eq {K : KernelObjects} {p : SystemRegs} (hgdtr : p.gdtr = ⟨55, K.gdt⟩) :
    ∃ m', tssInstall p m K.gdt K.tssEntry 5 (K.tssKernelStack + 4096) =
        some ({ p with tr := ⟨104, K.tssEntry⟩ }, m') ∧
      (∀ i < 5, descriptorAt m' K.gdt i = descriptorAt m K.gdt i) ∧
      m'.load (K.tssEntry + 4) 8 = K.tssKernelStack + 4096 ∧
      m'.load (K.tssEntry + 102) 2 = 104 := by
  obtain ⟨⟨-, hapart, -⟩, -⟩ := K.pairs
  obtain ⟨hgdt, -, htssUpper, hstackUpper, -⟩ := K.addresses
  have hshift : K.tssEntry >>> 32 = K.tssEntry / 2 ^ 32 := Nat.shiftRight_eq_div_pow _ _
  unfold tssInstall
  dsimp only
  generalize hlow : gdtSetGate m K.gdt 5 K.tssEntry 104 0x89 0 = m₂
  generalize hup : gdtSetUpper m₂ K.gdt 6 (K.tssEntry >>> 32) = m₃
  generalize hfill : tssFill m₃ K.tssEntry (K.tssKernelStack + 4096) = m₄
  have hbefore : ∀ i < 5, descriptorAt m₄ K.gdt i = descriptorAt m K.gdt i := by
    refine fun i hi => descriptorAt_congr fun x hlo hhi => ?_
    rw [← hfill, tssFill_outside (by omega), ← hup, gdtSetUpper_outside (by omega), ← hlow,
      gdtSetGate_outside (by omega)]
  have hlower : descriptorAt m₄ K.gdt 5 = ⟨K.tssEntry % 2 ^ 32, 104, 0x89, 0⟩ := by
    have hsame : descriptorAt m₄ K.gdt 5 = descriptorAt m₂ K.gdt 5 :=
      descriptorAt_congr fun x hlo hhi => by
        rw [← hfill, tssFill_outside (by omega), ← hup, gdtSetUpper_outside (by omega)]
    rw [hsame, ← hlow]
    exact gdtSetGate_descriptorAt (by decide) (by decide)
  have hupper : m₄.load (K.gdt + 8 * 6) 4 = K.tssEntry / 2 ^ 32 := by
    rw [← hfill, Memory.load_congr fun i hi => tssFill_outside (by omega), ← hup,
      gdtSetUpper_load (by omega), hshift]
  refine ⟨_, ltr_eq hgdtr hlower hupper, fun i hi => ?_, ?_, ?_⟩
  · rw [← hbefore i hi]
    exact descriptorAt_congr fun x hlo hhi => Memory.store_outside (by omega)
  · rw [Memory.load_store_of_disjoint (by omega), ← hfill]
    exact tssFill_rsp0 (by omega)
  · rw [Memory.load_store_of_disjoint (by omega), ← hfill]
    exact tssFill_iopb

theorem KernelObjects.flush_canonical (K : KernelObjects) : canonical K.flush = true := by
  have hupper := K.flush_upper
  unfold canonical
  rw [decide_eq_true_eq]
  omega

theorem gdtInitialize_eq (K : KernelObjects) (p : SystemRegs) {c : Cpu} (hring : c.cpl = 0)
    (m : Memory) :
    ∃ m', gdtInitialize K p c m = some (⟨⟨55, K.gdt⟩, p.idtr, ⟨104, K.tssEntry⟩, fun _ => 0x10⟩,
        { c with cs := 0x08, ss := 0x10 }, m') ∧
      K.Segments [1, 2] m' ∧
      m'.load (K.tssEntry + 4) 8 = K.tssKernelStack + 4096 ∧
      m'.load (K.tssEntry + 102) 2 = 104 := by
  obtain ⟨⟨hapart, -⟩, -⟩ := K.pairs
  obtain ⟨hgdt, -⟩ := K.addresses
  unfold gdtInitialize
  dsimp only
  generalize hstart : (m.store K.gp 2 (8 * 7 - 1)).store (K.gp + 2) 8 K.gdt = start
  have hlimit : (gdtSegments start K.gdt).load K.gp 2 = 55 := by
    rw [Memory.load_congr fun i hi => gdtSegments_outside (by omega), ← hstart,
      Memory.load_store_of_disjoint (by omega), Memory.load_store (by decide)]
  have hbase : (gdtSegments start K.gdt).load (K.gp + 2) 8 = K.gdt := by
    rw [Memory.load_congr fun i hi => gdtSegments_outside (by omega), ← hstart,
      Memory.load_store (by omega)]
  have hsegments : K.Segments [] (gdtSegments start K.gdt) := gdtSegments_segments K
  generalize gdtSegments start K.gdt = m₁ at *
  have hgdtr : SystemRegs.gdtr { p with gdtr := ⟨55, K.gdt⟩ } = ⟨55, K.gdt⟩ := rfl
  have hdata := hsegments.markAccessed hgdtr 0x10 (by decide) (by decide)
  have hmarked := hdata.markAccessed hgdtr 0x08 (by decide) (by decide)
  generalize hmarks : SystemRegs.markAccessed { p with gdtr := ⟨55, K.gdt⟩ }
    (SystemRegs.markAccessed { p with gdtr := ⟨55, K.gdt⟩ } m₁ 0x10) 0x08 = m₂ at hmarked
  have hflush : gdtFlush p c m₁ K.gp K.flush = some (⟨⟨55, K.gdt⟩, p.idtr, p.tr, fun _ => 0x10⟩,
      { c with cs := 0x08, ss := 0x10 }, m₂) := by
    unfold gdtFlush
    rw [hlimit, hbase]
    dsimp only
    have hdata := hsegments.descriptor hgdtr 0x10 (by decide) (by decide) (by decide)
    have hcode := hsegments.descriptor hgdtr 0x08 (by decide) (by decide) (by decide)
    simp only [SystemRegs.mayLoadData, SystemRegs.mayLoadStack, SystemRegs.mayReturn, hdata, hcode,
      hring, K.flush_canonical, Option.any_some, hmarks]
    rfl
  obtain ⟨m', hinstall, hsame, hrsp0, hiopb⟩ :=
    tssInstall_eq (m := m₂) (K := K) (p := ⟨⟨55, K.gdt⟩, p.idtr, p.tr, fun _ => 0x10⟩) rfl
  rw [hflush]
  dsimp only
  rw [hinstall]
  exact ⟨m', rfl, fun i hi => (hsame i hi).trans (hmarked i hi), hrsp0, hiopb⟩

/-- The boot gets by all the checks of the processor. -/
theorem descriptorsInitialize_eq (K : KernelObjects) (p : SystemRegs) {c : Cpu} (hring : c.cpl = 0)
    (m : Memory) :
    ∃ p' m', descriptorsInitialize K p c m = some (p', { c with cs := 0x08, ss := 0x10 }, m') ∧
      Installed K [1, 2] p' m' := by
  obtain ⟨⟨-, -, -, hgdtIdt, hgdtIdtp⟩, -, ⟨-, htssIdt, htssIdtp⟩, -, hidt⟩ := K.pairs
  obtain ⟨-, -, -, -, hidtUpper, -⟩ := K.addresses
  obtain ⟨m₁, hgdt, hsegments, hrsp0, hiopb⟩ := gdtInitialize_eq K p hring m
  unfold descriptorsInitialize
  rw [hgdt]
  refine ⟨_, _, rfl, ?_⟩
  generalize hstart : (m₁.store K.idtp 2 (16 * 256 - 1)).store (K.idtp + 2) 8 K.idt = start
  have houtside : ∀ x, (x < K.idt ∨ K.idt + 4096 ≤ x) → (x < K.idtp ∨ K.idtp + 10 ≤ x) →
      idtGates K start x = m₁ x := by
    intro x hidt hidtp
    rw [idtGates_outside hidt, ← hstart, Memory.store_outside (by omega),
      Memory.store_outside (by omega)]
  have hlimit : (idtGates K start).load K.idtp 2 = 4095 := by
    rw [Memory.load_congr fun i hi => idtGates_outside (by omega), ← hstart,
      Memory.load_store_of_disjoint (by omega), Memory.load_store (by decide)]
  have hbase : (idtGates K start).load (K.idtp + 2) 8 = K.idt := by
    rw [Memory.load_congr fun i hi => idtGates_outside (by omega), ← hstart,
      Memory.load_store (by omega)]
  refine ⟨rfl, by rw [hlimit, hbase], rfl, fun i hi => ?_, fun v hv => idtGates_gateAt hv, ?_, ?_⟩
  · rw [← hsegments i hi]
    exact descriptorAt_congr fun x hlo hhi => houtside x (by omega) (by omega)
  · rw [← hrsp0]
    exact Memory.load_congr fun i hi => houtside _ (by omega) (by omega)
  · rw [← hiopb]
    exact Memory.load_congr fun i hi => houtside _ (by omega) (by omega)

end BadOS.Kernel
