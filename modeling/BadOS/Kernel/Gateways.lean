import BadOS.Foundation.Execution
import BadOS.Kernel.Descriptors

/-! # The ways into the kernel

With the tables that the boot sets up, every event comes to a routine of the kernel or shuts
the processor down, in whatever state the process is, and every interrupt takes the
process back to where it was.
-/

namespace BadOS.Kernel

variable {m m' : Memory} {K : KernelObjects} {p p' : SystemRegs} {c c' : Cpu} {e : Event}
  {loaded : List ℕ}

/-! ## Delivery -/

/-- Where the events go: to the routine of their vector when it has one that the running
code may call, or else, as a general protection fault, to `isr13`. A fault on the way of
a severe exception leads to a double fault, which has no routine. -/
def Event.route (e : Event) (cpl : ℕ) : Option (ℕ × Option ℕ) :=
  if e.vector ∈ handledVectors ∧ (e.ext = 0 → cpl = 0 ∨ e.vector = 128) then
    some (e.vector, e.pushed)
  else if e.isDoubleFault || e.severe then none
  else some (13, some e.gateCode)

theorem KernelObjects.tssTop_canonical (K : KernelObjects) :
    canonical (K.tssKernelStack + 4096) = true := by
  have hupper := K.upper
  simp only [List.mem_cons, List.not_mem_nil, or_false, forall_eq_or_imp, forall_eq] at hupper
  unfold canonical
  rw [decide_eq_true_eq]
  omega

theorem Installed.stackTop_eq (h : Installed K loaded p m) :
    p.stackTop m c 0 0 = if c.cpl = 0 then c.reg .rsp else K.tssKernelStack + 4096 := by
  unfold SystemRegs.stackTop
  rw [if_neg (by simp), h.tr_eq]
  dsimp only
  rw [h.rsp0_eq]
  by_cases hring : c.cpl = 0
  · rw [if_pos hring.symm, if_pos hring]
  · rw [if_neg fun heq => hring heq.symm, if_neg hring]

theorem Installed.gate_eq (h : Installed K loaded p m) {v : ℕ} (hv : v < 256) :
    gateAt m p.idtr.base v = K.gate v := by
  rw [h.idtr_eq]
  exact h.gates v hv

theorem handled_lt {v : ℕ} (hv : v ∈ handledVectors) : v < 256 := by
  simp only [handledVectors, List.mem_cons, List.not_mem_nil, or_false] at hv
  omega

theorem KernelObjects.gate_handled {v : ℕ} (hv : v ∈ handledVectors) :
    K.gate v = ⟨K.isr v, 0x08, 0, (K.gate v).flags⟩ ∧ (K.gate v).isInterruptGate = true ∧
      (K.gate v).present = true ∧ (K.gate v).dpl = if v = 128 then 3 else 0 := by
  unfold KernelObjects.gate
  rw [if_pos hv]
  split <;> simp [Gate.isInterruptGate, Gate.present, Gate.dpl]

theorem Installed.deliver_handled (h : Installed K loaded p m) (hloaded : 1 ∈ loaded)
    (hv : e.vector ∈ handledVectors)
    (hallowed : e.ext = 0 → c.cpl = 0 ∨ e.vector = 128)
    (hstack : c.cpl = 0 → canonical (c.reg .rsp) = true) :
    p.deliver e c m = .ok (enterGate (K.gate e.vector) 0 (p.stackTop m c 0 0) e.pushed c m) := by
  obtain ⟨hgate, hinterrupt, hpresent, hdpl⟩ := KernelObjects.gate_handled (K := K) hv
  have hcode : p.descriptor m 0x08 = some (storedSegment 1).accessed := by
    rw [h.segments.descriptor h.gdtr_eq _ (by decide) (by decide) (by decide)]
    exact congrArg some (if_pos hloaded)
  have hmarked : p.markAccessed m 0x08 = m :=
    h.segments.markAccessed_self h.gdtr_eq (by decide) hloaded
  have hsegment : (storedSegment 1).accessed.isLongCode = true ∧
      (storedSegment 1).accessed.dpl = 0 ∧ (storedSegment 1).accessed.conforming = false ∧
      (storedSegment 1).accessed.present = true := ⟨rfl, rfl, rfl, rfl⟩
  have htop : canonical (p.stackTop m c 0 0) = true := by
    rw [h.stackTop_eq]
    split
    next hring => exact hstack hring
    next => exact K.tssTop_canonical
  have hisr : canonical (K.isr e.vector) = true := by
    have hupper := K.isr_upper _ hv
    unfold canonical
    rw [decide_eq_true_eq]
    omega
  have hlt := handled_lt hv
  have hring : c.cpl < 4 := Nat.mod_lt _ (by decide)
  have hreached : ¬ (4095 < 16 * e.vector + 15 ∨
      e.ext = 0 ∧ (if e.vector = 128 then 3 else 0) < c.cpl) := by
    rintro (hlimit | ⟨hsoftware, hlevel⟩)
    · omega
    · rcases hallowed hsoftware with hzero | h128
      · omega
      · rw [if_pos h128] at hlevel
        omega
  unfold SystemRegs.deliver
  rw [h.gate_eq hlt]
  generalize K.gate e.vector = g at *
  obtain ⟨hselector, hist, hoffset⟩ :
      g.selector = 0x08 ∧ g.ist = 0 ∧ g.offset = K.isr e.vector := by
    rw [hgate]
    exact ⟨rfl, rfl, rfl⟩
  simp only [hselector, hist, hoffset, hinterrupt, hpresent, hdpl, hcode, hsegment, hisr,
    hmarked, h.idtr_eq, h.tr_eq]
  simp [not_or.mp hreached, htop]

theorem Installed.deliver_refused (h : Installed K loaded p m) (hlt : e.vector < 256)
    (hrefused : ¬ (e.vector ∈ handledVectors ∧ (e.ext = 0 → c.cpl = 0 ∨ e.vector = 128))) :
    p.deliver e c m = .error (.exception 13 e.gateCode) := by
  unfold SystemRegs.deliver
  dsimp only
  rw [h.gate_eq hlt, if_pos]
  by_cases hv : e.vector ∈ handledVectors
  · obtain ⟨-, -, -, hdpl⟩ := KernelObjects.gate_handled (K := K) hv
    rw [hdpl]
    have hsoftware : e.ext = 0 ∧ ¬ (c.cpl = 0 ∨ e.vector = 128) :=
      Classical.not_imp.mp fun hallowed => hrefused ⟨hv, hallowed⟩
    refine Or.inr (Or.inr ⟨hsoftware.1, ?_⟩)
    rw [if_neg fun h128 => hsoftware.2 (Or.inr h128)]
    exact Nat.pos_of_ne_zero fun hzero => hsoftware.2 (Or.inl hzero)
  · have hgate : K.gate e.vector = ⟨0, 0, 0, 0⟩ := if_neg hv
    rw [hgate]
    exact Or.inr (Or.inl rfl)

theorem Installed.deliverAll_eq (h : Installed K loaded p m) (hloaded : 1 ∈ loaded)
    (hlt : e.vector < 256)
    (hstack : c.cpl = 0 → canonical (c.reg .rsp) = true) :
    p.deliverAll e c m = (e.route c.cpl).map fun r =>
      enterGate (K.gate r.1) 0 (p.stackTop m c 0 0) r.2 c m := by
  -- An exception is no software interrupt, and no vector of a severe one but 0, 13 and 14 has
  -- a routine.
  have hdouble : p.doubleFault c m = none := by
    unfold SystemRegs.doubleFault
    rw [h.deliver_refused (e := .exception 8 0) (by decide)
      (by simp [Event.vector, handledVectors])]
    rfl
  unfold SystemRegs.deliverAll Event.route
  by_cases hreached : e.vector ∈ handledVectors ∧ (e.ext = 0 → c.cpl = 0 ∨ e.vector = 128)
  · rw [h.deliver_handled hloaded hreached.1 hreached.2 hstack, if_pos hreached]
    rfl
  · have hprotection : p.fault (.exception 13 e.gateCode) c m =
        some (enterGate (K.gate 13) 0 (p.stackTop m c 0 0) (some e.gateCode) c m) := by
      unfold SystemRegs.fault
      rw [h.deliver_handled (e := .exception 13 e.gateCode) hloaded
        (by simp [Event.vector, handledVectors]) (by simp [Event.ext]) hstack]
      rfl
    rw [h.deliver_refused hlt hreached, if_neg hreached]
    dsimp only
    rw [hdouble, hprotection]
    cases e.isDoubleFault <;> cases e.severe <;> rfl

theorem Installed.portAllowed_eq (h : Installed K loaded p m) (hring : c.iopl < c.cpl) (port : ℕ) :
    p.portAllowed m c port = false := by
  unfold SystemRegs.portAllowed
  rw [h.tr_eq]
  dsimp only
  rw [h.iopb_eq, decide_eq_false (by omega), decide_eq_false (by omega)]
  rfl

/-! ## The way to user mode -/

/-- `cli` and `sti` change no flag from the I/O privilege level on. -/
theorem cli_div (n : ℕ) : (n - (n &&& interruptFlag)) / 2 ^ 12 = n / 2 ^ 12 := by
  have hmask : n &&& interruptFlag = n % 2 ^ 10 &&& interruptFlag := by
    rw [← Nat.and_two_pow_sub_one_eq_mod n 10, Nat.and_assoc]
    rfl
  have hle : n &&& interruptFlag ≤ n % 2 ^ 10 := hmask ▸ Nat.and_le_left
  omega

theorem sti_div (n : ℕ) : (n ||| interruptFlag) / 2 ^ 12 = n / 2 ^ 12 := by
  rw [← Nat.shiftRight_eq_div_pow, Nat.shiftRight_or_distrib, Nat.shiftRight_eq_div_pow]
  exact Nat.or_zero _

theorem Cpu.iopl_congr (h : c'.rflags / 2 ^ 12 = c.rflags / 2 ^ 12) : c'.iopl = c.iopl :=
  congrArg (· % 4) h

theorem Cpu.nestedTask_congr (h : c'.rflags / 2 ^ 12 = c.rflags / 2 ^ 12) :
    c'.nestedTask = c.nestedTask := by
  have hbit : c'.rflags / 2 ^ 14 = c.rflags / 2 ^ 14 := by omega
  unfold Cpu.nestedTask
  rw [hbit]

/-- A return to the process. -/
theorem Installed.iretq_eq (h : Installed K loaded p m) (hnested : c.nestedTask = false)
    (hnext : Instr.iretq.exec (c, m) = (c', m)) (hcs : c'.cs = 0x1B) (hss : c'.ss = 0x23) :
    p.iretq c m =
      if canonical c'.rip then some (c', p.markAccessed (p.markAccessed m 0x1B) 0x23)
      else none := by
  have hcode : (kernelSegment loaded 3).isLongCode = true ∧ (kernelSegment loaded 3).dpl = 3 ∧
      (kernelSegment loaded 3).conforming = false ∧ (kernelSegment loaded 3).present = true := by
    unfold kernelSegment
    split <;> exact ⟨rfl, rfl, rfl, rfl⟩
  have hdata : (kernelSegment loaded 4).isWritableData = true ∧ (kernelSegment loaded 4).dpl = 3 ∧
      (kernelSegment loaded 4).present = true := by
    unfold kernelSegment
    split <;> exact ⟨rfl, rfl, rfl⟩
  have hring : c.cpl ≤ 3 := Nat.le_of_lt_succ (Nat.mod_lt _ (by decide))
  have hreturn : p.mayReturn m c.cpl 0x1B c'.rip = canonical c'.rip := by
    unfold SystemRegs.mayReturn
    rw [h.segments.descriptor h.gdtr_eq _ (by decide) (by decide) (by decide)]
    simp [hcode, hring]
  have hstack : p.mayLoadStack m 3 0x23 = true := by
    unfold SystemRegs.mayLoadStack
    rw [h.segments.descriptor h.gdtr_eq _ (by decide) (by decide) (by decide)]
    simp [hdata]
  unfold SystemRegs.iretq
  rw [hnext]
  dsimp only
  rw [hcs, hss, hnested, hreturn]
  simp [hstack]

theorem Installed.jumpToUserMode_eq (h : Installed K [4, 1, 2] p m) (hnested : c.nestedTask = false)
    (hentry : canonical (c.reg .rbx) = true) (hbounded : c.Bounded) (hroom : 40 ≤ c.reg .rsp)
    (hapart : ∀ x, K.TableByte x → x < c.reg .rsp - 40 ∨ c.reg .rsp ≤ x) :
    ∃ m', jumpToUserMode p c m = some (p, { c.set .rsp 0x800000 with
        rip := c.reg .rbx, cs := 0x1B, rflags := c.reg .rax, ss := 0x23 }, m') ∧
      Installed K [3, 4, 1, 2] p m' := by
  have hcpu := Cpu.bounded_iff.mp hbounded
  have hvalues : ∀ v ∈ [0x23, 0x800000, c.reg .rax, 0x1B, c.reg .rbx], v < 2 ^ 64 := by
    simp only [List.mem_cons, List.not_mem_nil, or_false, forall_eq_or_imp, forall_eq]
    exact ⟨by decide, by decide, hcpu.1 .rax, by decide, hcpu.1 .rbx⟩
  have hwords : WordStack.words
      (WordStack.pushAll (m, c.reg .rsp) [0x23, 0x800000, c.reg .rax, 0x1B, c.reg .rbx]).1
      (WordStack.pushAll (m, c.reg .rsp) [0x23, 0x800000, c.reg .rax, 0x1B, c.reg .rbx]).2 5 =
      [c.reg .rbx, 0x1B, c.reg .rax, 0x800000, 0x23] := by
    rw [WordStack.pushAll_pointer]
    exact WordStack.words_pushAll (n := 0) hvalues hroom
  have houtside : ∀ x, K.TableByte x →
      (WordStack.pushAll (m, c.reg .rsp) [0x23, 0x800000, c.reg .rax, 0x1B, c.reg .rbx]).1 x =
        m x :=
    fun x hx => WordStack.pushAll_outside hroom (hapart x hx)
  unfold jumpToUserMode
  generalize WordStack.pushAll (m, c.reg .rsp) [0x23, 0x800000, c.reg .rax, 0x1B, c.reg .rbx] =
    stack at *
  simp only [WordStack.words, List.cons.injEq, and_true, Nat.add_assoc, Nat.reduceAdd] at hwords
  obtain ⟨hrip, hcs, hrflags, hrsp, hss⟩ := hwords
  have hnext : Instr.iretq.exec (c.set .rsp stack.2, stack.1) = ({ c.set .rsp 0x800000 with
      rip := c.reg .rbx, cs := 0x1B, rflags := c.reg .rax, ss := 0x23 }, stack.1) := by
    simp only [Instr.exec, Cpu.set_self, Cpu.set_set, hrip, hcs, hrflags, hrsp, hss]
  have hinstalled := h.congr houtside
  have hcode : Installed K [3, 4, 1, 2] p (p.markAccessed stack.1 0x1B) :=
    hinstalled.markAccessed 0x1B (by decide) (by decide)
  have hdata : p.markAccessed (p.markAccessed stack.1 0x1B) 0x23 = p.markAccessed stack.1 0x1B :=
    hcode.segments.markAccessed_self hcode.gdtr_eq (by decide) (by decide)
  have hnested' : (c.set .rsp stack.2).nestedTask = false := hnested
  have hreturn := hinstalled.iretq_eq hnested' hnext rfl rfl
  rw [if_pos hentry, hdata] at hreturn
  refine ⟨p.markAccessed stack.1 0x1B, ?_, hcode⟩
  dsimp only
  rw [hreturn, Option.map_some]

theorem Installed.switchToUserMode_eq (h : Installed K [1, 2] p m) (hring : c.cpl = 0)
    (hnested : c.nestedTask = false) (hentry : canonical (c.reg .rdi) = true)
    (hbounded : c.Bounded) (hroom : 40 ≤ c.reg .rsp)
    (hapart : ∀ x, K.TableByte x → x < c.reg .rsp - 40 ∨ c.reg .rsp ≤ x) :
    ∃ p' c' m', switchToUserMode p c m = some (p', c', m') ∧ c'.rip = c.reg .rdi ∧ c'.cs = 0x1B ∧
      c'.ss = 0x23 ∧ c'.reg .rsp = 0x800000 ∧ c'.iopl = c.iopl ∧ c'.Bounded ∧
      Installed K [3, 4, 1, 2] p' m' := by
  have hcpu := Cpu.bounded_iff.mp hbounded
  have hflags : c.rflags - (c.rflags &&& interruptFlag) < 2 ^ 64 :=
    (Nat.sub_le _ _).trans_lt hcpu.2.2.2.1
  have hkept := cli_div c.rflags
  have hload : p.mayLoadData m 0 0x23 = true := by
    unfold SystemRegs.mayLoadData
    rw [h.segments.descriptor h.gdtr_eq _ (by decide) (by decide) (by decide)]
    rfl
  have hmarked := h.markAccessed 0x23 (by decide) (by decide)
  generalize hcli : c.rflags - (c.rflags &&& interruptFlag) = cli at hflags hkept
  have hor : cli ||| 0x200 < 2 ^ 64 := Nat.or_lt_two_pow hflags (by decide)
  have hstart : Cpu.Bounded { c with rflags := cli } :=
    Cpu.bounded_iff.mpr ⟨hcpu.1, hcpu.2.1, hcpu.2.2.1, hflags, hcpu.2.2.2.2⟩
  have hset := (hstart.set (hcpu.1 .rdi) .rbx).set hor .rax
  have hrsp : ((Cpu.set { c with rflags := cli } .rbx (c.reg .rdi)).set .rax (cli ||| 0x200)).reg
      .rsp = c.reg .rsp := by
    rw [Cpu.set_of_ne (by decide), Cpu.set_of_ne (by decide)]
  have hrbx : ((Cpu.set { c with rflags := cli } .rbx (c.reg .rdi)).set .rax (cli ||| 0x200)).reg
      .rbx = c.reg .rdi := by
    rw [Cpu.set_of_ne (by decide), Cpu.set_self]
  have hrax : ((Cpu.set { c with rflags := cli } .rbx (c.reg .rdi)).set .rax (cli ||| 0x200)).reg
      .rax = cli ||| 0x200 := Cpu.set_self
  have hring' : (Cpu.set { c with rflags := cli } .rbx (c.reg .rdi)).cpl = 0 := hring
  have hupper : (cli ||| 0x200) / 2 ^ 12 = c.rflags / 2 ^ 12 := (sti_div cli).trans hkept
  have hnested' : ((Cpu.set { c with rflags := cli } .rbx (c.reg .rdi)).set .rax
      (cli ||| 0x200)).nestedTask = false := (Cpu.nestedTask_congr hkept).trans hnested
  unfold switchToUserMode
  dsimp only
  rw [hcli, hring', hload, if_pos rfl]
  change ∃ p' c' m', jumpToUserMode _ ((Cpu.set { c with rflags := cli } .rbx (c.reg .rdi)).set .rax
    (cli ||| 0x200)) _ = some (p', c', m') ∧ _
  generalize (Cpu.set { c with rflags := cli } .rbx (c.reg .rdi)).set .rax (cli ||| 0x200) = c₁ at *
  obtain ⟨m', hjump, hinstalled⟩ := Installed.jumpToUserMode_eq (K := K)
    (m := p.markAccessed m 0x23) (p := { p with data := fun _ => 0x23 }) (c := c₁)
    ⟨h.gdtr_eq, h.idtr_eq, h.tr_eq, hmarked.segments, hmarked.gates, hmarked.rsp0_eq,
      hmarked.iopb_eq⟩ hnested' (hrbx ▸ hentry) hset (hrsp ▸ hroom) (hrsp ▸ hapart)
  refine ⟨_, _, m', hjump, hrbx, rfl, rfl, ?_, ?_, ?_, hinstalled⟩
  · exact Cpu.set_self (c := c₁) (r := .rsp) (v := 0x800000)
  · refine Cpu.iopl_congr ?_
    dsimp only
    rw [hrax, hupper]
  · have hreg := Cpu.bounded_iff.mp (hset.set (v := 0x800000) (by decide) .rsp)
    rw [Cpu.bounded_iff]
    dsimp only
    exact ⟨hreg.1, hrbx ▸ hcpu.1 .rdi, by decide, hrax ▸ hor, by decide⟩

/-! ## The process and its interrupts -/

/-- `isr33` up to the call of its handler. -/
def enterIsr33 (returnAddr : ℕ) : List Instr :=
  .cli :: pusha64 ++ [.mov .rsp .rbx, .alignRsp, .call returnAddr]

/-- The routine of a vector up to the call of its handler. -/
def isrEntry (v returnAddr : ℕ) : List Instr :=
  if v = 33 then enterIsr33 returnAddr else enterIsr returnAddr

/-- The register in which the rest of a routine finds the saved registers. -/
def isrFrame (v : ℕ) : Reg := if v = 32 then .rax else .rbx

theorem isrEntry_exec (v returnAddr : ℕ) (state : Cpu × Memory) :
    ((isrEntry v returnAddr).foldl Instr.exec state).2 =
        ((enterIsr returnAddr).foldl Instr.exec state).2 ∧
      ((isrEntry v returnAddr).foldl Instr.exec state).1.reg .rbx =
        ((enterIsr returnAddr).foldl Instr.exec state).1.reg .rbx := by
  unfold isrEntry
  split
  · unfold enterIsr33 enterIsr
    rw [List.foldl_append, List.foldl_append]
    generalize (Instr.cli :: pusha64).foldl Instr.exec state = saved
    obtain ⟨c₁, m₁⟩ := saved
    simp [Instr.exec, Cpu.set, WordStack.push]
  · exact ⟨rfl, rfl⟩

/-- The rest of a routine up to its `iretq`. -/
def restoreIsr (frame : Reg) : List Instr := .mov frame .rsp :: popa64 ++ [.sti]

theorem leaveIsr_eq (frame : Reg) : leaveIsr frame = restoreIsr frame ++ [.iretq] := rfl

/-- What goes on while the process runs. -/
inductive ProcessEvent
  | instruction
  | interrupt (e : Event)

/-- The routine of an event, from the delivery to the `iretq`, with a C handler that leaves the
tables and NT alone, and of the saved registers all but `rax`. -/
inductive Handles (K : KernelObjects) (p : SystemRegs) (c : Cpu) (m : Memory) (e : Event)
    (rax : ℕ) : Cpu × Memory → Prop
  | intro {c₂ : Cpu} {m₂ : Memory} {start entered : Cpu × Memory} {v returnAddr : ℕ}
      (hroute : e.route c.cpl = some (v, none)) (hv : v ∈ [32, 33, 128])
      (hdeliver : p.deliverAll e c m = some start)
      (hentered : (isrEntry v returnAddr).foldl Instr.exec start = entered)
      (hframe : c₂.reg (isrFrame v) = entered.1.reg .rbx) (hnested : c₂.nestedTask = false)
      (hmem : ∀ x, K.TableByte x → m₂ x = entered.2 x)
      (hsaved : WordStack.words m₂ (entered.1.reg .rbx) 20 =
        (WordStack.words entered.2 (entered.1.reg .rbx) 20).set 6 rax) (hrax : rax < 2 ^ 64) :
      Handles K p c m e rax ((restoreIsr (isrFrame v)).foldl Instr.exec (c₂, m₂))

/-- The process runs anything that leaves the tables alone, as its instructions leave the code
and the stack segment and the I/O privilege level alone; or it is interrupted by an event
whose routine gets by the checks of its return. -/
inductive ProcessStep (K : KernelObjects) (p : SystemRegs) :
    Cpu × Memory → ProcessEvent → Cpu × Memory → Prop
  | instruction {c c' : Cpu} {m m' : Memory} (hbounded : c'.Bounded) (hcs : c'.cs = c.cs)
      (hss : c'.ss = c.ss) (hiopl : c'.iopl = c.iopl) (hmem : ∀ x, K.TableByte x → m' x = m x) :
      ProcessStep K p (c, m) .instruction (c', m')
  | interrupt {c : Cpu} {m : Memory} {e : Event} {rax : ℕ} {last next : Cpu × Memory}
      (hhandles : Handles K p c m e rax last) (hreturn : p.iretq last.1 last.2 = some next) :
      ProcessStep K p (c, m) (.interrupt e) next

/-- What the kernel relies on while the process runs. -/
structure UserGuarded (K : KernelObjects) (p : SystemRegs) (c : Cpu) (m : Memory) : Prop where
  installed : Installed K [3, 4, 1, 2] p m
  bounded : c.Bounded
  cs_eq : c.cs = 0x1B
  ss_eq : c.ss = 0x23
  iopl_eq : c.iopl = 0

theorem enterGate_eq_interrupt {v top : ℕ} (hv : v ∈ handledVectors) :
    enterGate (K.gate v) 0 (if c.cpl = 0 then c.reg .rsp else top) none c m =
      interrupt top (K.isr v) c m := by
  obtain ⟨hgate, hinterrupt, -, -⟩ := KernelObjects.gate_handled (K := K) hv
  obtain ⟨hselector, hoffset⟩ : (K.gate v).selector = 0x08 ∧ (K.gate v).offset = K.isr v := by
    rw [hgate]
    exact ⟨rfl, rfl⟩
  unfold enterGate interrupt stackBase
  rw [hinterrupt, hselector, hoffset]
  simp only [Option.toList_none, List.append_nil, Cpu.cpl, if_true, eq_comm (a := 0)]
  rfl

theorem registers_set_rax (c : Cpu) (rax : ℕ) :
    c.registers.set 6 rax = (c.set .rax rax).registers := by
  simp [Cpu.registers, Cpu.set, Reg.general]

theorem Event.route_lt {cpl v : ℕ} (hroute : e.route cpl = some (v, none)) : e.vector < 256 := by
  unfold Event.route at hroute
  split at hroute
  next hreached => exact handled_lt hreached.1
  next =>
    split at hroute
    · cases hroute
    · cases hroute

theorem Event.route_handled {cpl v : ℕ} {code : Option ℕ} (hroute : e.route cpl = some (v, code)) :
    v ∈ handledVectors := by
  unfold Event.route at hroute
  split at hroute
  next hreached =>
    cases hroute
    exact hreached.1
  next =>
    split at hroute
    · cases hroute
    · cases hroute
      decide

theorem pops_flags (rs : List Reg) (c : Cpu) (m : Memory) :
    ((rs.map Instr.popq).foldl Instr.exec (c, m)).1.rflags = c.rflags := by
  induction rs generalizing c with
  | nil => rfl
  | cons r rs ih =>
      rw [List.map_cons, List.foldl_cons, Instr.exec]
      exact ih _

theorem restoreIsr_rflags (frame : Reg) (c : Cpu) (m : Memory) :
    ((restoreIsr frame).foldl Instr.exec (c, m)).1.rflags = c.rflags ||| interruptFlag := by
  have hpopa : popa64 = Reg.general.map Instr.popq := rfl
  have hpops := pops_flags Reg.general (c.set frame (c.reg frame)) m
  unfold restoreIsr
  rw [List.foldl_append, List.foldl_cons (l := popa64), hpopa]
  exact congrArg (· ||| interruptFlag) (pops_flags Reg.general _ m)

/-- An interrupt of the process, from the event to the `iretq`: unless the processor refuses
the address, the process goes on with its own registers but `rax`. -/
theorem UserGuarded.handles (h : UserGuarded K p c m) {rax : ℕ} {last : Cpu × Memory}
    (hhandles : Handles K p c m e rax last) :
    ∃ m', p.iretq last.1 last.2 =
        (if canonical c.rip then some (c.set .rax rax, m') else none) ∧
      UserGuarded K p (c.set .rax rax) m' := by
  cases hhandles with
  | @intro c₂ m₂ start entered v returnAddr hroute hv hdeliver hentered hframe hnested hmem hsaved
      hrax =>
  have hcpl : c.cpl = 3 := by rw [Cpu.cpl, h.cs_eq]
  obtain ⟨⟨-, -, hgdtStack, -⟩, -, ⟨htssStack, -⟩, ⟨hstackIdt, -⟩, -⟩ := K.pairs
  have hstackAddr := K.addresses.2.2.2.1
  have hv' : v ∈ handledVectors := by
    have hsub : [32, 33, 128] ⊆ handledVectors := by decide
    exact hsub hv
  have hstart : start = interrupt (K.tssKernelStack + 4096) (K.isr v) c m := by
    have hlt := e.route_lt hroute
    rw [h.installed.deliverAll_eq (by decide) hlt (fun hzero => absurd hzero (by omega)), hroute,
      h.installed.stackTop_eq, Option.map_some, enterGate_eq_interrupt hv'] at hdeliver
    exact (Option.some.inj hdeliver).symm
  have hbase : stackBase (K.tssKernelStack + 4096) c =
      K.tssKernelStack + 4096 - (K.tssKernelStack + 4096) % 16 := by
    unfold stackBase
    rw [if_neg (by rw [h.cs_eq]; decide)]
  obtain ⟨hmem', hrbx'⟩ := isrEntry_exec v returnAddr start
  have hentry : Entered (K.tssKernelStack + 4096) c m ((enterIsr returnAddr).foldl Instr.exec
      (interrupt (K.tssKernelStack + 4096) (K.isr v) c m)) :=
    enterIsr_entered h.bounded (by omega) (K.isr_upper v hv').2 (by omega)
  rw [hentered, hstart] at hmem' hrbx'
  generalize (enterIsr returnAddr).foldl Instr.exec
    (interrupt (K.tssKernelStack + 4096) (K.isr v) c m) = state at *
  have hsaved' : WordStack.words m₂ (c₂.reg (isrFrame v)) 20 = (c.set .rax rax).registers := by
    rw [hframe, hsaved, hmem', ← registers_set_rax, ← hentry.saved, hrbx', hentry.rbx_eq]
  have hleave : Instr.iretq.exec ((restoreIsr (isrFrame v)).foldl Instr.exec (c₂, m₂)) =
      (c.set .rax rax, m₂) := by
    have hrun := leaveIsr_exec hsaved'
    rwa [leaveIsr_eq, List.foldl_append] at hrun
  have hinstalled : Installed K [3, 4, 1, 2] p m₂ := by
    refine h.installed.congr fun x hx => (hmem x hx).trans ?_
    rw [hmem']
    refine hentry.outside x ?_
    unfold KernelObjects.TableByte at hx
    omega
  have hflags : ((restoreIsr (isrFrame v)).foldl Instr.exec (c₂, m₂)).1.nestedTask = false := by
    refine (Cpu.nestedTask_congr ?_).trans hnested
    rw [restoreIsr_rflags, sti_div]
  generalize (restoreIsr (isrFrame v)).foldl Instr.exec (c₂, m₂) = last at *
  obtain ⟨cLast, mLast⟩ := last
  obtain rfl : mLast = m₂ := congrArg Prod.snd hleave
  have hcode : p.markAccessed mLast 0x1B = mLast :=
    hinstalled.segments.markAccessed_self hinstalled.gdtr_eq (by decide) (by decide)
  have hdata : p.markAccessed mLast 0x23 = mLast :=
    hinstalled.segments.markAccessed_self hinstalled.gdtr_eq (by decide) (by decide)
  refine ⟨mLast, ?_, hinstalled, h.bounded.set hrax .rax, h.cs_eq, h.ss_eq, h.iopl_eq⟩
  have hiretq := hinstalled.iretq_eq hflags hleave h.cs_eq h.ss_eq
  rwa [hcode, hdata] at hiretq

/-- A system call whose handler changes nothing. -/
theorem UserGuarded.exists_syscall (h : UserGuarded K p c m) (hrip : canonical c.rip = true) :
    ∃ m', ProcessStep K p (c, m) (.interrupt (.software 128)) (c, m') := by
  have hcpl : c.cpl = 3 := by rw [Cpu.cpl, h.cs_eq]
  have hroute : Event.route (.software 128) c.cpl = some (128, none) :=
    if_pos ⟨by decide, fun _ => Or.inr rfl⟩
  have hdeliver := h.installed.deliverAll_eq (c := c) (e := .software 128) (by decide) (by decide)
    (fun hzero => absurd hzero (by omega))
  have hstack := K.addresses.2.2.2.1
  have hroom : 168 ≤ stackBase (K.tssKernelStack + 4096) c := by
    unfold stackBase
    rw [if_neg (by rw [h.cs_eq]; decide)]
    dsimp only
    omega
  have hentry : Entered (K.tssKernelStack + 4096) c m ((enterIsr 0).foldl Instr.exec
      (interrupt (K.tssKernelStack + 4096) (K.isr 128) c m)) :=
    enterIsr_entered h.bounded (by omega) (K.isr_upper 128 (by decide)).2 hroom
  rw [hroute, Option.map_some, h.installed.stackTop_eq, enterGate_eq_interrupt (by decide)]
    at hdeliver
  generalize hentered : (enterIsr 0).foldl Instr.exec
    (interrupt (K.tssKernelStack + 4096) (K.isr 128) c m) = entered at hentry
  have hroutine : (isrEntry 128 0).foldl Instr.exec
      (interrupt (K.tssKernelStack + 4096) (K.isr 128) c m) = entered := by
    rw [isrEntry, if_neg (by decide), hentered]
  have hsaved : WordStack.words entered.2 (entered.1.reg .rbx) 20 = c.registers := by
    rw [hentry.rbx_eq, hentry.saved]
  have hkept : c.set .rax (c.reg .rax) = c := by
    rw [Cpu.set, Function.update_eq_self]
  have hnested : Cpu.nestedTask { entered.1 with rflags := 2 } = false := by
    simp [Cpu.nestedTask]
  have hhandles : Handles K p c m (.software 128) (c.reg .rax) ((restoreIsr (isrFrame 128)).foldl
      Instr.exec ({ entered.1 with rflags := 2 }, entered.2)) :=
    .intro hroute (by decide) hdeliver hroutine rfl hnested (fun _ _ => rfl)
      (by rw [hsaved, registers_set_rax, hkept]) ((Cpu.bounded_iff.mp h.bounded).1 .rax)
  obtain ⟨m', hiretq, -⟩ := h.handles hhandles
  rw [if_pos hrip, hkept] at hiretq
  exact ⟨m', .interrupt hhandles hiretq⟩

theorem UserGuarded.run (h : UserGuarded K p c m) {events : List ProcessEvent} {c' : Cpu}
    {m' : Memory} (hrun : Execution.Run (ProcessStep K p) (c, m) events (c', m')) :
    UserGuarded K p c' m' := by
  refine hrun.invariant (fun state => UserGuarded K p state.1 state.2) h ?_
  intro state event next hstep hstate
  cases hstep with
  | instruction hbounded hcs hss hiopl hmem =>
      exact ⟨hstate.installed.congr hmem, hbounded, hcs.trans hstate.cs_eq, hss.trans hstate.ss_eq,
        hiopl.trans hstate.iopl_eq⟩
  | interrupt hhandles hreturn =>
      obtain ⟨m', hiretq, hnext⟩ := hstate.handles hhandles
      rw [hiretq] at hreturn
      split at hreturn
      · cases hreturn
        exact hnext
      · cases hreturn

/-- The ways out of the process: where the events come to that it is interrupted by, the
exceptions that shut the processor down, and the ports. -/
structure Gateways (K : KernelObjects) (p : SystemRegs) (c : Cpu) (m : Memory) : Prop where
  external : ∀ v < 256, ∃ s, p.deliverAll (.external v) c m = some s ∧
    s.1.rip = K.isr (if v ∈ handledVectors then v else 13)
  software : ∀ v < 256, ∃ s, p.deliverAll (.software v) c m = some s ∧
    s.1.rip = K.isr (if v = 128 then 128 else 13)
  exception : ∀ v < 256, ∀ code, v ∉ [8, 10, 11, 12] →
    ∃ s, p.deliverAll (.exception v code) c m = some s ∧
      s.1.rip = K.isr (if v ∈ handledVectors then v else 13)
  shutdown : ∀ v ∈ [8, 10, 11, 12], ∀ code, p.deliverAll (.exception v code) c m = none
  /-- A handler begins in ring 0, and only its stack has changed. -/
  entered : ∀ e s, e.vector < 256 → p.deliverAll e c m = some s →
    s.1.cs = 0x08 ∧ ∀ x, x < K.tssKernelStack ∨ K.tssKernelStack + 4096 ≤ x → s.2 x = m x
  /-- After an interrupt the process goes on with its registers, but perhaps `rax`. -/
  returns : ∀ e rax last, Handles K p c m e rax last → canonical c.rip = true →
    ∃ m', p.iretq last.1 last.2 = some (c.set .rax rax, m')
  syscall : canonical c.rip = true →
    ∃ m', ProcessStep K p (c, m) (.interrupt (.software 128)) (c, m')
  ports : ∀ port, p.portAllowed m c port = false

theorem UserGuarded.gateways (h : UserGuarded K p c m) : Gateways K p c m := by
  have hcpl : c.cpl = 3 := by rw [Cpu.cpl, h.cs_eq]
  have hstack := K.addresses.2.2.2.1
  have hroute : ∀ e : Event, e.vector < 256 → p.deliverAll e c m = (e.route 3).map fun r =>
      enterGate (K.gate r.1) 0 (K.tssKernelStack + 4096) r.2 c m := by
    intro e hlt
    rw [h.installed.deliverAll_eq (by decide) hlt (fun hzero => absurd hzero (by omega)),
      h.installed.stackTop_eq, hcpl]
    rfl
  have hrip : ∀ v ∈ handledVectors, ∀ code,
      (enterGate (K.gate v) 0 (K.tssKernelStack + 4096) code c m).1.rip = K.isr v := by
    intro v hv code
    rw [enterGate, (KernelObjects.gate_handled hv).1]
  have hreached : ∀ e : Event, e.vector < 256 →
      ∀ v ∈ handledVectors, ∀ code, e.route 3 = some (v, code) →
      ∃ s, p.deliverAll e c m = some s ∧ s.1.rip = K.isr v := by
    intro e hlt v hv code hr
    rw [hroute e hlt, hr]
    exact ⟨_, rfl, hrip v hv code⟩
  refine ⟨fun v hlt => ?_, fun v hlt => ?_, fun v hlt code hv => ?_, fun v hv code => ?_,
    fun e s hlt hs => ?_, fun e rax last hhandles hrip => ?_, h.exists_syscall,
    h.installed.portAllowed_eq (by rw [h.iopl_eq, hcpl]; decide)⟩
  · by_cases hv : v ∈ handledVectors
    · rw [if_pos hv]
      exact hreached (.external v) hlt v hv none (if_pos ⟨hv, fun hext => absurd hext one_ne_zero⟩)
    · rw [if_neg hv]
      exact hreached (.external v) hlt 13 (by decide) _ (if_neg fun hboth => hv hboth.1)
  · by_cases hv : v = 128
    · rw [if_pos hv, hv]
      exact hreached (.software 128) (by decide) 128 (by decide) none
        (if_pos ⟨by decide, fun _ => Or.inr rfl⟩)
    · rw [if_neg hv]
      exact hreached (.software v) hlt 13 (by decide) _
        (if_neg fun hboth => (hboth.2 rfl).elim (by decide) hv)
  · by_cases hhandled : v ∈ handledVectors
    · rw [if_pos hhandled]
      exact hreached (.exception v code) hlt v hhandled _
        (if_pos ⟨hhandled, fun hext => absurd hext one_ne_zero⟩)
    · have hbenign : (Event.isDoubleFault (.exception v code) ||
          Event.severe (.exception v code)) = false := by
        simp only [handledVectors, List.mem_cons, List.not_mem_nil, or_false, not_or] at hhandled hv
        simp [Event.isDoubleFault, Event.severe, hhandled, hv]
      rw [if_neg hhandled]
      refine hreached (.exception v code) hlt 13 (by decide)
        (some (Event.gateCode (.exception v code))) ?_
      rw [Event.route, if_neg fun hboth => hhandled hboth.1, hbenign]
      rfl
  · have hunhandled : v ∉ handledVectors ∧ v < 256 ∧ (Event.isDoubleFault (.exception v code) ||
        Event.severe (.exception v code)) = true := by
      simp only [List.mem_cons, List.not_mem_nil, or_false] at hv
      rcases hv with rfl | rfl | rfl | rfl <;> exact ⟨by decide, by decide, rfl⟩
    rw [hroute (.exception v code) hunhandled.2.1, Event.route,
      if_neg fun hboth => hunhandled.1 hboth.1, hunhandled.2.2]
    rfl
  · rw [hroute e hlt] at hs
    obtain ⟨⟨v, code⟩, hr, rfl⟩ := Option.map_eq_some_iff.mp hs
    obtain ⟨hgate, -, -, -⟩ := KernelObjects.gate_handled (K := K) (e.route_handled hr)
    dsimp only
    unfold enterGate
    rw [hgate]
    dsimp only
    refine ⟨rfl, fun x hx => WordStack.pushAll_outside ?_ ?_⟩
    all_goals
      have hlength : code.toList.length ≤ 1 := by cases code <;> simp
      rw [List.length_append, List.length_cons, List.length_cons, List.length_cons,
        List.length_cons, List.length_cons, List.length_nil]
      omega
  · obtain ⟨m', hiretq, -⟩ := h.handles hhandles
    exact ⟨m', hiretq.trans (if_pos hrip)⟩

/-! ## From the boot to the process -/

/-- What `_start` and the loader do between the set-up of the tables and the call of
`switch_to_user_mode`: they leave the tables alone, and come there in ring 0, with NT clear,
ports closed to the other rings, the stack off the tables and an entry point that is an
address. -/
structure KernelReady (K : KernelObjects) (m₁ : Memory) (c : Cpu) (m : Memory) : Prop where
  kept : ∀ x, K.TableByte x → m x = m₁ x
  ring : c.cpl = 0
  nestedTask_eq : c.nestedTask = false
  iopl_eq : c.iopl = 0
  entry : canonical (c.reg .rdi) = true
  bounded : c.Bounded
  room : 40 ≤ c.reg .rsp
  apart : ∀ x, K.TableByte x → x < c.reg .rsp - 40 ∨ c.reg .rsp ≤ x

/-- The tables get by the checks of the processor, and whatever the process does, the
kernel is entered through the routines that `idt_initialize` put into the table. -/
theorem boot_gateways (K : KernelObjects) (p₀ : SystemRegs) {c₀ : Cpu} (hring : c₀.cpl = 0)
    (m₀ : Memory) :
    ∃ p m₁, descriptorsInitialize K p₀ c₀ m₀ = some (p, { c₀ with cs := 0x08, ss := 0x10 }, m₁) ∧
      ∀ c₂ m₂, KernelReady K m₁ c₂ m₂ →
        ∃ p' c₃ m₃, switchToUserMode p c₂ m₂ = some (p', c₃, m₃) ∧ c₃.rip = c₂.reg .rdi ∧
          c₃.reg .rsp = 0x800000 ∧
          ∀ events c m, Execution.Run (ProcessStep K p') (c₃, m₃) events (c, m) →
            c.cs = 0x1B ∧ Gateways K p' c m := by
  obtain ⟨p, m₁, hboot, hinstalled⟩ := descriptorsInitialize_eq K p₀ hring m₀
  refine ⟨p, m₁, hboot, fun c₂ m₂ hready => ?_⟩
  obtain ⟨p', c₃, m₃, hswitch, hrip, hcs, hss, hrsp, hiopl, hbounded, hinstalled'⟩ :=
    (hinstalled.congr hready.kept).switchToUserMode_eq hready.ring hready.nestedTask_eq
      hready.entry hready.bounded hready.room hready.apart
  refine ⟨p', c₃, m₃, hswitch, hrip, hrsp, fun events c m hrun => ?_⟩
  have hguarded :=
    UserGuarded.run ⟨hinstalled', hbounded, hcs, hss, hiopl.trans hready.iopl_eq⟩ hrun
  exact ⟨hguarded.cs_eq, hguarded.gateways⟩

/-- A kernel image with its objects side by side, and the routines a page behind them. -/
def smallKernel : KernelObjects where
  gdt := 0xFFFFFFFF80000000
  gp := 0xFFFFFFFF80000040
  tssEntry := 0xFFFFFFFF80000050
  tssKernelStack := 0xFFFFFFFF80001000
  idt := 0xFFFFFFFF80002000
  idtp := 0xFFFFFFFF80003000
  flush := 0xFFFFFFFF80003800
  isr := fun v => 0xFFFFFFFF80004000 + 16 * v
  apart := by decide
  upper := by decide
  flush_upper := by decide
  isr_upper := by decide

/-- A processor in ring 0 with its stack at the top of the second page. -/
def smallCpu : Cpu := ⟨fun r => if r = .rsp then 0x2000 else 0x400000, 0, 0, 2, 0⟩

/-- The process is booted, makes a system call and goes on behind it. -/
theorem smallKernel_gateways : ∃ p c m m', c.rip = 0x400000 ∧
    ProcessStep smallKernel p (c, m) (.interrupt (.software 128)) (c, m') ∧
      Gateways smallKernel p c m' := by
  obtain ⟨p, m₁, -, hready⟩ := boot_gateways smallKernel ⟨⟨0, 0⟩, ⟨0, 0⟩, ⟨0, 0⟩, fun _ => 0⟩
    (show smallCpu.cpl = 0 from rfl) fun _ => 0
  obtain ⟨p', c, m, -, hrip, -, hrun⟩ := hready { smallCpu with cs := 0x08, ss := 0x10 } m₁ {
    kept := fun _ _ => rfl
    ring := rfl
    nestedTask_eq := rfl
    iopl_eq := rfl
    entry := rfl
    bounded := by
      rw [Cpu.bounded_iff]
      refine ⟨fun r => ?_, by decide, by decide, by decide, by decide⟩
      cases r <;> decide
    room := by decide
    apart := fun x hx => by
      unfold KernelObjects.TableByte smallKernel at hx
      refine Or.inr ?_
      have hrsp : smallCpu.reg .rsp = 0x2000 := rfl
      dsimp only at hx ⊢
      omega }
  obtain ⟨m', hstep⟩ := (hrun [] c m (.nil _)).2.syscall (by rw [hrip]; rfl)
  exact ⟨p', c, m, m', hrip, hstep,
    (hrun [.interrupt (.software 128)] c m' (.cons hstep (.nil _))).2⟩

end BadOS.Kernel
