import BadOS.Foundation.WordStack

/-! # Interrupt entry and exit

The assembly of `isr32` and `isr128`, up to the call of the C handler and behind it, on a
processor that has the registers of `struct registers`.
-/

namespace BadOS.Kernel

inductive Reg
  | rdi | rsi | rbp | rbx | rdx | rcx | rax
  | r8 | r9 | r10 | r11 | r12 | r13 | r14 | r15
  | rsp
deriving DecidableEq

/-- The registers of the running code. -/
@[ext] structure Cpu where
  reg : Reg → ℕ
  rip : ℕ
  cs : ℕ
  rflags : ℕ
  ss : ℕ

/-- The general registers as `struct registers` has them. -/
def Reg.general : List Reg :=
  [.rdi, .rsi, .rbp, .rbx, .rdx, .rcx, .rax, .r8, .r9, .r10, .r11, .r12, .r13, .r14, .r15]

namespace Cpu

def set (c : Cpu) (r : Reg) (v : ℕ) : Cpu := { c with reg := Function.update c.reg r v }

/-- The words of a `struct registers`. -/
def registers (c : Cpu) : List ℕ :=
  Reg.general.map c.reg ++ [c.rip, c.cs, c.rflags, c.reg .rsp, c.ss]

/-- Every register has 64 bits. -/
def Bounded (c : Cpu) : Prop := ∀ v ∈ c.registers, v < 2 ^ 64

end Cpu

/-! ## Instructions -/

inductive Instr
  | pushq (r : Reg)
  | popq (r : Reg)
  | mov (src dst : Reg)
  /-- `and $-16, %rsp` -/
  | alignRsp
  | cli
  | sti
  | call (returnAddr : ℕ)
  | iretq
deriving DecidableEq

/-- The interrupt flag. -/
def interruptFlag : ℕ := 0x200

/-- The other flags that the processor clears on an interrupt: TF, NT, RF and VM. -/
def taskFlags : ℕ := 0x34100

def Instr.exec (state : Cpu × Memory) (instr : Instr) : Cpu × Memory :=
  let (c, m) := state
  let rsp := c.reg .rsp
  match instr with
  | .pushq r =>
      let stack := WordStack.push (m, rsp) (c.reg r)
      (c.set .rsp stack.2, stack.1)
  | .popq r => ((c.set .rsp (rsp + 8)).set r (m.load rsp 8), m)
  | .mov src dst => (c.set dst (c.reg src), m)
  | .alignRsp => (c.set .rsp (rsp - rsp % 16), m)
  | .cli => ({ c with rflags := c.rflags - (c.rflags &&& interruptFlag) }, m)
  | .sti => ({ c with rflags := c.rflags ||| interruptFlag }, m)
  | .call returnAddr =>
      let stack := WordStack.push (m, rsp) returnAddr
      (c.set .rsp stack.2, stack.1)
  | .iretq =>
      ({ c.set .rsp (m.load (rsp + 24) 8) with
        rip := m.load rsp 8
        cs := m.load (rsp + 8) 8
        rflags := m.load (rsp + 16) 8
        ss := m.load (rsp + 32) 8 }, m)

def pusha64 : List Instr :=
  [.pushq .r15, .pushq .r14, .pushq .r13, .pushq .r12, .pushq .r11, .pushq .r10, .pushq .r9,
    .pushq .r8, .pushq .rax, .pushq .rcx, .pushq .rdx, .pushq .rbx, .pushq .rbp, .pushq .rsi,
    .pushq .rdi]

def popa64 : List Instr :=
  [.popq .rdi, .popq .rsi, .popq .rbp, .popq .rbx, .popq .rdx, .popq .rcx, .popq .rax, .popq .r8,
    .popq .r9, .popq .r10, .popq .r11, .popq .r12, .popq .r13, .popq .r14, .popq .r15]

/-- Both routines up to the first instruction of the C handler. -/
def enterIsr (returnAddr : ℕ) : List Instr :=
  .cli :: pusha64 ++ [.mov .rsp .rdi, .mov .rsp .rbx, .alignRsp, .call returnAddr]

/-- The rest of a routine, which finds the registers to restore at `frame`. -/
def leaveIsr (frame : Reg) : List Instr := .mov frame .rsp :: popa64 ++ [.sti, .iretq]

/-- `isr32` behind the call: the handler returns the stack to go on with. -/
def leaveIsr32 : List Instr := leaveIsr .rax

/-- `isr128` behind the call. -/
def leaveIsr128 : List Instr := leaveIsr .rbx

/-- Where the processor pushes on an interrupt: below the stack pointer, or on the stack
of the TSS when the code does not run in ring 0. -/
def stackBase (rsp0 : ℕ) (c : Cpu) : ℕ :=
  let top := if c.cs % 4 = 0 then c.reg .rsp else rsp0
  top - top % 16

/-- The processor's part of an interrupt through a gate of the kernel's code segment. -/
def interrupt (rsp0 handler : ℕ) (c : Cpu) (m : Memory) : Cpu × Memory :=
  let stack := WordStack.pushAll (m, stackBase rsp0 c)
    [c.ss, c.reg .rsp, c.rflags, c.cs, c.rip]
  ({ c.set .rsp stack.2 with
    rip := handler
    cs := 0x08
    rflags := c.rflags - (c.rflags &&& (taskFlags ||| interruptFlag))
    ss := if c.cs % 4 = 0 then c.ss else 0 }, stack.1)

variable {c c' : Cpu} {m : Memory} {rs : List Reg} {rsp0 handler returnAddr v w : ℕ} {r frame : Reg}

theorem Reg.mem_general {r : Reg} (hr : r ≠ .rsp) : r ∈ Reg.general := by
  cases r
  case rsp => exact absurd rfl hr
  all_goals decide

namespace Cpu

@[simp] theorem set_self : (c.set r v).reg r = v := Function.update_self _ _ _

theorem set_of_ne {q : Reg} (h : q ≠ r) : (c.set r v).reg q = c.reg q := Function.update_of_ne h _ _

@[simp] theorem set_set : (c.set r v).set r w = c.set r w := by
  simp [set]

theorem mem_registers_reg (r : Reg) : c.reg r ∈ c.registers := by
  cases r <;> simp [registers, Reg.general]

theorem bounded_iff : c.Bounded ↔
    (∀ r, c.reg r < 2 ^ 64) ∧ c.rip < 2 ^ 64 ∧ c.cs < 2 ^ 64 ∧ c.rflags < 2 ^ 64 ∧
      c.ss < 2 ^ 64 := by
  constructor
  · intro h
    refine ⟨fun r => h _ (mem_registers_reg r), h _ ?_, h _ ?_, h _ ?_, h _ ?_⟩ <;>
      simp [registers]
  · rintro ⟨hreg, hrip, hcs, hrflags, hss⟩ v hv
    simp only [registers, List.mem_append, List.mem_map, List.mem_cons, List.not_mem_nil,
      or_false] at hv
    obtain ⟨r, -, rfl⟩ | rfl | rfl | rfl | rfl | rfl := hv
    exacts [hreg r, hrip, hcs, hrflags, hreg .rsp, hss]

theorem Bounded.set (h : c.Bounded) (hv : v < 2 ^ 64) (r : Reg) : (c.set r v).Bounded := by
  rw [bounded_iff] at h ⊢
  refine ⟨fun q => ?_, h.2⟩
  by_cases hq : q = r
  · rw [hq, set_self]
    exact hv
  · rw [set_of_ne hq]
    exact h.1 q

end Cpu

/-! ## Entry -/

theorem pushes_exec (hrs : Reg.rsp ∉ rs) (c : Cpu) (m : Memory) :
    (rs.map Instr.pushq).foldl Instr.exec (c, m) =
      (c.set .rsp (WordStack.pushAll (m, c.reg .rsp) (rs.map c.reg)).2,
        (WordStack.pushAll (m, c.reg .rsp) (rs.map c.reg)).1) := by
  induction rs generalizing c m with
  | nil => simp [WordStack.pushAll, Cpu.set]
  | cons r rs ih =>
      have htail : Reg.rsp ∉ rs := fun h => hrs (List.mem_cons_of_mem r h)
      have hreg : rs.map (c.set .rsp (c.reg .rsp - 8)).reg = rs.map c.reg :=
        List.map_congr_left fun q hq => Cpu.set_of_ne fun h => htail (h ▸ hq)
      rw [List.map_cons, List.foldl_cons, Instr.exec]
      dsimp only [WordStack.push]
      rw [ih htail, hreg, Cpu.set_self, Cpu.set_set]
      rfl

/-- The words an interrupt and `pusha64` push. -/
def Cpu.pushed (c : Cpu) : List ℕ :=
  [c.ss, c.reg .rsp, c.rflags, c.cs, c.rip] ++ Reg.general.reverse.map c.reg

theorem Cpu.pushed_reverse (c : Cpu) : c.pushed.reverse = c.registers := rfl

/-- The state in which the C handler begins: its argument and `rbx` are the address of
the saved registers. -/
structure Entered (rsp0 : ℕ) (c : Cpu) (m : Memory) (state : Cpu × Memory) : Prop where
  rdi_eq : state.1.reg .rdi = stackBase rsp0 c - 160
  rbx_eq : state.1.reg .rbx = stackBase rsp0 c - 160
  rsp_eq : state.1.reg .rsp = stackBase rsp0 c - 168
  cs_eq : state.1.cs = 0x08
  bounded : state.1.Bounded
  saved : WordStack.words state.2 (stackBase rsp0 c - 160) 20 = c.registers
  outside : ∀ x, x < stackBase rsp0 c - 168 ∨ stackBase rsp0 c ≤ x → state.2 x = m x

theorem stackBase_mod (rsp0 : ℕ) (c : Cpu) : stackBase rsp0 c % 16 = 0 := by
  unfold stackBase
  dsimp only
  omega

theorem map_update_rsp (hrs : Reg.rsp ∉ rs) (f : Reg → ℕ) (v : ℕ) :
    rs.map (Function.update f .rsp v) = rs.map f :=
  List.map_congr_left fun _ hr => Function.update_of_ne (ne_of_mem_of_not_mem hr hrs) _ _

theorem update_lt {f : Reg → ℕ} (hf : ∀ r, f r < 2 ^ 64) (q : Reg) (hv : v < 2 ^ 64) :
    ∀ r, Function.update f q v r < 2 ^ 64 :=
  (Function.forall_update_iff f fun _ w => w < 2 ^ 64).mpr ⟨hv, fun r _ => hf r⟩

/-- The processor and the memory after the pushes. -/
theorem pusha64_exec (rsp0 handler : ℕ) (c : Cpu) (m : Memory) :
    let state := (Instr.cli :: pusha64).foldl Instr.exec (interrupt rsp0 handler c m)
    let stack := WordStack.pushAll (m, stackBase rsp0 c) c.pushed
    state.2 = stack.1 ∧ state.1.reg = Function.update c.reg .rsp stack.2 ∧
      state.1.rip = handler ∧ state.1.cs = 0x08 ∧ state.1.rflags ≤ c.rflags ∧
      state.1.ss ≤ c.ss := by
  have hpusha : pusha64 = Reg.general.reverse.map Instr.pushq := rfl
  dsimp only
  rw [List.foldl_cons, hpusha, Instr.exec, interrupt]
  dsimp only
  rw [pushes_exec (by decide), Cpu.pushed, WordStack.pushAll_append]
  dsimp only [Cpu.set]
  rw [Function.update_self, map_update_rsp (by decide), Function.update_idem]
  refine ⟨rfl, rfl, rfl, rfl, ?_, ?_⟩
  · exact (Nat.sub_le _ _).trans (Nat.sub_le _ _)
  · split
    · exact le_rfl
    · exact Nat.zero_le _

theorem enterIsr_entered (hc : c.Bounded) (hrsp0 : rsp0 < 2 ^ 64) (hhandler : handler < 2 ^ 64)
    (hroom : 168 ≤ stackBase rsp0 c) :
    Entered rsp0 c m ((enterIsr returnAddr).foldl Instr.exec (interrupt rsp0 handler c m)) := by
  obtain ⟨hmem, hreg, hrip, hcs, hrflags, hss⟩ := pusha64_exec rsp0 handler c m
  have hpointer : (WordStack.pushAll (m, stackBase rsp0 c) c.pushed).2 =
      stackBase rsp0 c - 160 := WordStack.pushAll_pointer _ _ _
  have hmod := stackBase_mod rsp0 c
  have hbounded := Cpu.bounded_iff.mp hc
  have hbase : stackBase rsp0 c < 2 ^ 64 := by
    have hrsp := hbounded.1 .rsp
    unfold stackBase
    dsimp only
    split <;> omega
  rw [hpointer] at hreg
  unfold enterIsr
  rw [List.foldl_append]
  generalize (Instr.cli :: pusha64).foldl Instr.exec (interrupt rsp0 handler c m) = state at *
  obtain ⟨c₁, m₁⟩ := state
  dsimp only at hmem hreg hrip hcs hrflags hss
  -- The return address goes below the saved registers, on a 16-byte boundary.
  have haligned : (stackBase rsp0 c - 160) - (stackBase rsp0 c - 160) % 16 - 8 =
      stackBase rsp0 c - 168 := by omega
  simp only [List.foldl_cons, List.foldl_nil, Instr.exec, WordStack.push, Cpu.set, hreg]
  simp only [ne_eq, reduceCtorEq, not_false_eq_true, Function.update_self, Function.update_of_ne,
    haligned]
  refine ⟨rfl, rfl, rfl, hcs, ?_, ?_, fun x hx => ?_⟩
  · rw [Cpu.bounded_iff]
    refine ⟨?_, hrip.trans_lt hhandler, hcs.trans_lt (by decide),
      hrflags.trans_lt hbounded.2.2.2.1, hss.trans_lt hbounded.2.2.2.2⟩
    exact update_lt (update_lt (update_lt (update_lt (update_lt hbounded.1 _ (by omega)) _
      (by omega)) _ (by omega)) _ (by omega)) _ (by omega)
  · rw [WordStack.words_congr fun x hlo _ => Memory.store_outside (by omega), hmem,
      ← Cpu.pushed_reverse]
    refine (WordStack.words_pushAll (n := 0) (fun v hv => ?_) ?_).trans (List.append_nil _)
    · exact hc v (List.mem_reverse.mp hv)
    · exact (show 160 ≤ _ by omega)
  · dsimp only
    rw [Memory.store_outside (by omega), hmem]
    exact WordStack.pushAll_outside (show 160 ≤ _ by omega) (show _ < _ - 160 ∨ _ by omega)

/-! ## Exit -/

theorem pops_exec (hrs : Reg.rsp ∉ rs) (f : Reg → ℕ)
    (hwords : WordStack.words m (c.reg .rsp) rs.length = rs.map f) :
    let state := (rs.map Instr.popq).foldl Instr.exec (c, m)
    state.2 = m ∧ state.1.reg .rsp = c.reg .rsp + 8 * rs.length ∧
      ∀ r ≠ .rsp, state.1.reg r = if r ∈ rs then f r else c.reg r := by
  induction rs generalizing c with
  | nil => exact ⟨rfl, rfl, fun r _ => (if_neg List.not_mem_nil).symm⟩
  | cons r rs ih =>
      have hr : r ≠ Reg.rsp := fun h => hrs (h ▸ List.mem_cons_self)
      rw [List.length_cons, WordStack.words, List.map_cons, List.cons.injEq] at hwords
      have hrsp : ((c.set .rsp (c.reg .rsp + 8)).set r (m.load (c.reg .rsp) 8)).reg .rsp =
          c.reg .rsp + 8 := by
        rw [Cpu.set_of_ne hr.symm, Cpu.set_self]
      obtain ⟨hmem, hpointer, hreg⟩ := ih (fun h => hrs (List.mem_cons_of_mem r h))
        (c := (c.set .rsp (c.reg .rsp + 8)).set r (m.load (c.reg .rsp) 8))
        ((congrArg (WordStack.words m · rs.length) hrsp).trans hwords.2)
      rw [List.map_cons, List.foldl_cons, Instr.exec]
      refine ⟨hmem, hpointer.trans ?_, fun q hq => (hreg q hq).trans ?_⟩
      · rw [hrsp, List.length_cons]
        omega
      · by_cases hqr : q = r
        · rw [hqr, Cpu.set_self, hwords.1, ite_self, if_pos List.mem_cons_self]
        · rw [Cpu.set_of_ne hqr, Cpu.set_of_ne hq]
          simp only [List.mem_cons, hqr, false_or]

/-- A routine that finds the words of a `struct registers` goes on with exactly those
registers. -/
theorem leaveIsr_exec (hsaved : WordStack.words m (c.reg frame) 20 = c'.registers) :
    (leaveIsr frame).foldl Instr.exec (c, m) = (c', m) := by
  have hsplit := (WordStack.words_append m (c.reg frame) 15 5).symm.trans hsaved
  obtain ⟨hgeneral, hreturn⟩ := List.append_inj hsplit WordStack.words_length
  have hwords : WordStack.words m ((c.set .rsp (c.reg frame)).reg .rsp) Reg.general.length =
      Reg.general.map c'.reg := by
    rw [Cpu.set_self]
    exact hgeneral
  obtain ⟨hmem, hpointer, hreg⟩ := pops_exec (by decide) c'.reg hwords
  have hmov : Instr.exec (c, m) (.mov frame .rsp) = (c.set .rsp (c.reg frame), m) := rfl
  have hpopa : popa64 = Reg.general.map Instr.popq := rfl
  unfold leaveIsr
  rw [List.foldl_append, List.foldl_cons (l := popa64), hmov, hpopa]
  generalize (Reg.general.map Instr.popq).foldl Instr.exec (c.set .rsp (c.reg frame), m) =
    state at *
  obtain ⟨c₁, m₁⟩ := state
  dsimp only at hmem hpointer hreg
  simp only [WordStack.words, List.cons.injEq, and_true, Nat.add_assoc, Nat.reduceMul,
    Nat.reduceAdd] at hreturn
  obtain ⟨hrip, hcs, hrflags, hrsp, hss⟩ := hreturn
  rw [Cpu.set_self] at hpointer
  have htop : c₁.reg .rsp = c.reg frame + 120 := hpointer
  obtain rfl : m₁ = m := hmem
  simp only [List.foldl_cons, List.foldl_nil, Instr.exec, Cpu.set, htop, Nat.add_assoc,
    Nat.reduceAdd, hrip, hcs, hrflags, hrsp, hss]
  refine Prod.ext (Cpu.ext (funext fun r => ?_) rfl rfl rfl rfl) rfl
  dsimp only
  by_cases hr : r = .rsp
  · rw [hr, Function.update_self]
  · rw [Function.update_of_ne hr, hreg r hr, if_pos (Reg.mem_general hr)]

end BadOS.Kernel
