import BadOS.Kernel.Interrupts
import BadOS.Kernel.SchedulerRing

/-! # Preemption

Threads run, are interrupted by the timer and make system calls. The code that
runs and the C handlers are unknown, except that they leave saved registers alone:
a thread goes on with the registers it was interrupted with.
-/

namespace BadOS.Kernel

open Execution

/-- The stacks of the threads and what the processor is set up with. Only the thread
`user` runs in ring 3, so that the stack of the TSS is its own. -/
structure Stacks where
  own : ℕ → Set ℕ
  disjoint : ∀ p q, p ≠ q → ∀ x ∈ own p, x ∉ own q
  user : ℕ
  rsp0 : ℕ
  isr32 : ℕ
  isr128 : ℕ
  rsp0_lt : rsp0 < 2 ^ 64
  isr32_lt : isr32 < 2 ^ 64
  isr128_lt : isr128 < 2 ^ 64

/-- The bytes of a `struct registers`. -/
def registerFrame (a : ℕ) : Set ℕ := Set.Ico a (a + 160)

/-- The registers a thread made by `create_kernel_thread` starts with. -/
def threadStart (function stackPhys : ℕ) : Cpu where
  reg := fun r => if r = .rsp then stackPhys + 4096 else 0
  rip := function
  cs := 0x08
  rflags := 0x202
  ss := 0x10

/-- How a thread came to wait for its turn. -/
inductive Suspension
  | interrupted (c : Cpu)
  | created (function stackPhys : ℕ)

/-- The registers the thread has to go on with. -/
def Suspension.cpu : Suspension → Cpu
  | interrupted c => c
  | created function stackPhys => threadStart function stackPhys

/-- A system call in progress: the argument of the handler, `rbx` at its call, the
registers of the caller, and the uptime when the handler has looked at the number. -/
structure SystemCall where
  regs : ℕ
  rbx : ℕ
  entry : Cpu
  uptime : Option ℕ

/-- The registers the caller goes on with. -/
def SystemCall.cpu (call : SystemCall) : Cpu :=
  match call.uptime with
  | none => call.entry
  | some uptime => if call.entry.reg .rax = 3 then call.entry.set .rax uptime else call.entry

/-- The machine, the threads there are, and as history how each thread was suspended and
which system calls have begun. -/
structure System where
  cpu : Cpu
  scheduler : Scheduler
  threads : List ℕ
  suspended : ℕ → Option Suspension
  pending : ℕ → Option SystemCall

inductive SystemEvent
  | run
  | create (function task frame : ℕ)
  | timer
  | syscall
  | handle
  | sysret

/-- `syscall_handler` on its argument and the uptime, for every number but 2; the
other system calls do not change the saved registers. -/
def syscallHandler (uptimeMs regs : ℕ) (mem : Memory) : Memory :=
  if mem.load (regs + 48) 8 = 3 then mem.store (regs + 48) 8 uptimeMs else mem

namespace System

/-- The running thread. -/
def current (s : System) : ℕ := s.scheduler.currentProcess

/-- Any code has run. -/
def run (s : System) (c : Cpu) (mem : Memory) : System :=
  { s with cpu := c, scheduler := { s.scheduler with mem } }

def exec (s : System) (code : List Instr) : System :=
  let state := code.foldl Instr.exec (s.cpu, s.scheduler.mem)
  s.run state.1 state.2

/-- An interrupt up to the call of the C handler. -/
def enter (L : Stacks) (s : System) (isr returnAddr : ℕ) : System :=
  let state := interrupt L.rsp0 isr s.cpu s.scheduler.mem
  (s.run state.1 state.2).exec (enterIsr returnAddr)

/-- A whole call of `create_kernel_thread`. -/
def create (s : System) (function task frame : ℕ) : System :=
  { s with
    scheduler := s.scheduler.createThread function task frame
    threads := s.threads ++ [task]
    suspended := Function.update s.suspended task (some (.created function frame)) }

/-- A timer interrupt up to the return of `irq0_handler`, and the value returned. -/
def timer (L : Stacks) (s : System) (returnAddr : ℕ) : ℕ × System :=
  let s₁ := s.enter L L.isr32 returnAddr
  let (rsp, scheduler) := s₁.scheduler.irq0Handler (s₁.cpu.reg .rdi)
  (rsp, { s₁ with
    scheduler
    suspended := Function.update s.suspended s.current (some (.interrupted s.cpu)) })

/-- Record the system call of the running thread. -/
def pend (s : System) (call : Option SystemCall) : System :=
  { s with pending := Function.update s.pending s.current call }

/-- `int $0x80` up to the call of `syscall_handler`. -/
def syscall (L : Stacks) (s : System) (returnAddr : ℕ) : System :=
  let s₁ := s.enter L L.isr128 returnAddr
  s₁.pend (some ⟨s₁.cpu.reg .rdi, s₁.cpu.reg .rbx, s.cpu, none⟩)

/-- The handler looks at the number of the call. -/
def handle (s : System) (call : SystemCall) : System :=
  let s₁ := s.run s.cpu (syscallHandler s.scheduler.uptimeMs call.regs s.scheduler.mem)
  s₁.pend (some { call with uptime := some s.scheduler.uptimeMs })

/-- The return from `syscall_handler` to the caller. -/
def sysret (s : System) : System := (s.exec leaveIsr128).pend none

/-- What the running code of a thread keeps to: ring 3 is for one thread, and in
a system call it is in ring 0 with its stack below the saved registers. -/
structure Runs (L : Stacks) (p : ℕ) (pending : Option SystemCall) (c : Cpu) : Prop where
  bounded : c.Bounded
  ring : c.cs % 4 ≠ 0 → p = L.user
  below : ∀ call, pending = some call → c.cs % 4 = 0 ∧ c.reg .rsp ≤ call.regs

/-- `mem` has the saved registers of the threads in `P` and of the system calls. -/
structure Kept (s : System) (P : ℕ → Prop) (mem : Memory) : Prop where
  suspended : ∀ p ∈ s.threads, P p →
    ∀ x ∈ registerFrame (s.scheduler.process p).rsp, mem x = s.scheduler.mem x
  pending : ∀ p call, s.pending p = some call →
    ∀ x ∈ registerFrame call.regs, mem x = s.scheduler.mem x

/-- The interrupt's own words fit on the stack of the thread. -/
structure Room (L : Stacks) (s : System) : Prop where
  le : 168 ≤ stackBase L.rsp0 s.cpu
  own : Set.Ico (stackBase L.rsp0 s.cpu - 168) (stackBase L.rsp0 s.cpu) ⊆ L.own s.current

/-- The steps, in any order. A handler may change all registers that it does not return
a value in and, as it keeps to the calling convention, not `rbx`. -/
inductive Step (L : Stacks) (s : System) : SystemEvent → System → Prop
  | run {c : Cpu} {mem : Memory} (hruns : Runs L s.current (s.pending s.current) c)
      (hkept : s.Kept (· ≠ s.current) mem) : Step L s .run (s.run c mem)
  | create {function task frame : ℕ} (hnull : task ≠ 0) (hfresh : task ∉ s.threads)
      (hfunction : function < 2 ^ 64) (hframe : frame + 4096 < 2 ^ 64)
      (hown : Set.Ico frame (frame + 4096) ⊆ L.own task) :
      Step L s (.create function task frame) (s.create function task frame)
  | timer {returnAddr : ℕ} {c : Cpu} {mem : Memory} (hroom : s.Room L)
      (hrax : c.reg .rax = (s.timer L returnAddr).1)
      (hkept : (s.timer L returnAddr).2.Kept (fun _ => True) mem) :
      Step L s .timer (((s.timer L returnAddr).2.run c mem).exec leaveIsr32)
  | syscall {returnAddr : ℕ} (hroom : s.Room L) (hidle : s.pending s.current = none)
      (hnumber : s.cpu.reg .rax ≠ 2) : Step L s .syscall (s.syscall L returnAddr)
  | handle {call : SystemCall} (hcall : s.pending s.current = some call)
      (hfirst : call.uptime = none) : Step L s .handle (s.handle call)
  | sysret {call : SystemCall} (hcall : s.pending s.current = some call)
      (hhandled : call.uptime ≠ none) (hrbx : s.cpu.reg .rbx = call.rbx) :
      Step L s .sysret s.sysret

/-- The boot thread runs, right after `multitasking_initialize`. -/
structure Start (L : Stacks) (s : System) : Prop where
  initialized : ∃ (s₀ : Scheduler) (p pageDir : ℕ), p ≠ 0 ∧ s₀.uptimeMs < 2 ^ 64 ∧
    s.scheduler = s₀.multitaskingInitialize p pageDir ∧ s.threads = [p]
  idle : ∀ p, s.pending p = none
  runs : Runs L s.current none s.cpu

/-! ## The invariant -/

/-- The registers `c` of a thread are saved at `rsp`. -/
structure Saved (L : Stacks) (p rsp : ℕ) (pending : Option SystemCall) (mem : Memory)
    (c : Cpu) : Prop where
  runs : Runs L p pending c
  own : registerFrame rsp ⊆ L.own p
  words : WordStack.words mem rsp 20 = c.registers
  below : ∀ call, pending = some call → rsp + 160 ≤ call.regs

/-- The registers of a system call are saved. -/
structure Begun (L : Stacks) (p : ℕ) (mem : Memory) (call : SystemCall) : Prop where
  runs : Runs L p none call.entry
  rbx_eq : call.rbx = call.regs
  own : registerFrame call.regs ⊆ L.own p
  words : WordStack.words mem call.regs 20 = call.cpu.registers
  uptime_lt : ∀ uptime, call.uptime = some uptime → uptime < 2 ^ 64

/-- The saved registers of the threads in `P` and of the system calls. -/
structure Frames (L : Stacks) (s : System) (P : ℕ → Prop) : Prop where
  suspended : ∀ p ∈ s.threads, P p → ∃ suspension, s.suspended p = some suspension ∧
    Saved L p (s.scheduler.process p).rsp (s.pending p) s.scheduler.mem suspension.cpu
  pending : ∀ p call, s.pending p = some call → p ∈ s.threads ∧ Begun L p s.scheduler.mem call

structure Inv (L : Stacks) (s : System) : Prop where
  current_mem : s.current ∈ s.threads
  list_mem : s.scheduler.processList ∈ s.threads
  next_mem : ∀ p ∈ s.threads, s.scheduler.next p ∈ s.threads
  null : 0 ∉ s.threads
  uptime_lt : s.scheduler.uptimeMs < 2 ^ 64
  runs : Runs L s.current (s.pending s.current) s.cpu
  frames : Frames L s (· ≠ s.current)

variable {L : Stacks} {s s' : System} {P : ℕ → Prop} {p rsp isr returnAddr : ℕ}
variable {function task frame : ℕ} {c : Cpu} {mem mem' : Memory} {pending : Option SystemCall}
variable {call : SystemCall}

theorem Saved.congr (h : Saved L p rsp pending mem c)
    (hmem : ∀ x ∈ registerFrame rsp, mem' x = mem x) : Saved L p rsp pending mem' c :=
  { h with words := (WordStack.words_congr fun x hlo hhi => hmem x ⟨hlo, hhi⟩).trans h.words }

theorem Begun.congr (h : Begun L p mem call)
    (hmem : ∀ x ∈ registerFrame call.regs, mem' x = mem x) : Begun L p mem' call :=
  { h with words := (WordStack.words_congr fun x hlo hhi => hmem x ⟨hlo, hhi⟩).trans h.words }

theorem Frames.run (h : Frames L s P) (hkept : s.Kept P mem) (c : Cpu) :
    Frames L (s.run c mem) P where
  suspended := fun p hp hP =>
    let ⟨suspension, hsuspension, hsaved⟩ := h.suspended p hp hP
    ⟨suspension, hsuspension, hsaved.congr (hkept.suspended p hp hP)⟩
  pending := fun p call hcall =>
    ⟨(h.pending p call hcall).1, (h.pending p call hcall).2.congr (hkept.pending p call hcall)⟩

theorem Runs.set (h : Runs L p none c) {v : ℕ} (hv : v < 2 ^ 64) (r : Reg) :
    Runs L p none (c.set r v) :=
  ⟨h.bounded.set hv r, h.ring, fun call h => absurd h.symm (Option.some_ne_none call)⟩

theorem Begun.runs_cpu (h : Begun L p mem call) : Runs L p none call.cpu := by
  unfold SystemCall.cpu
  cases huptime : call.uptime with
  | none => exact h.runs
  | some uptime =>
      dsimp only
      split
      · exact h.runs.set (h.uptime_lt uptime huptime) .rax
      · exact h.runs

/-! ## Code that runs -/

theorem Inv.run (hinv : Inv L s) (hruns : Runs L s.current (s.pending s.current) c)
    (hkept : s.Kept (· ≠ s.current) mem) : Inv L (s.run c mem) :=
  { hinv with runs := hruns, frames := hinv.frames.run hkept c }

/-! ## The creation of a thread -/

theorem registers_threadStart (function frame : ℕ) :
    (initialFrame function frame).reverse = (threadStart function frame).registers := rfl

theorem threadStart_bounded (hfunction : function < 2 ^ 64) (hframe : frame + 4096 < 2 ^ 64) :
    (threadStart function frame).Bounded := by
  rw [Cpu.bounded_iff]
  unfold threadStart
  dsimp only
  refine ⟨fun r => ?_, hfunction, by decide, by decide, by decide⟩
  split
  · exact hframe
  · exact Nat.two_pow_pos 64

/-- The registers of the new thread are on its stack, which is all that changes. -/
theorem stackMem_saved (hfunction : function < 2 ^ 64) (hframe : frame + 4096 < 2 ^ 64)
    (hown : Set.Ico frame (frame + 4096) ⊆ L.own task) (mem : Memory) :
    Saved L task (initialRsp frame) none (stackMem mem function frame)
        (threadStart function frame) ∧
      ∀ x ∉ L.own task, stackMem mem function frame x = mem x := by
  have hlength : (initialFrame function frame).length = 20 := rfl
  have hroom : 8 * (initialFrame function frame).length ≤
      frame + 4096 - (frame + 4096) % 16 := by omega
  have hbounded := threadStart_bounded hfunction hframe
  have hruns : Runs L task none (threadStart function frame) :=
    ⟨hbounded, fun h => absurd (show 0x08 % 4 = 0 from rfl) h,
      fun call h => absurd h.symm (Option.some_ne_none call)⟩
  refine ⟨⟨hruns, fun x hx => hown ?_, ?_,
    fun call h => absurd h.symm (Option.some_ne_none call)⟩, fun x hx => ?_⟩
  · unfold registerFrame initialRsp at hx
    rw [Set.mem_Ico] at hx ⊢
    omega
  · refine (WordStack.words_pushAll (n := 0) (fun v hv => hbounded v ?_) hroom).trans
      (List.append_nil _)
    rw [← registers_threadStart]
    exact List.mem_reverse.mpr hv
  · have hoff : x < frame ∨ frame + 4096 ≤ x := by
      by_contra hin
      exact hx (hown ⟨by omega, by omega⟩)
    exact WordStack.pushAll_outside hroom (by omega)

theorem Inv.create (hinv : Inv L s) (hnull : task ≠ 0) (hfresh : task ∉ s.threads)
    (hfunction : function < 2 ^ 64) (hframe : frame + 4096 < 2 ^ 64)
    (hown : Set.Ico frame (frame + 4096) ⊆ L.own task) :
    Inv L (s.create function task frame) := by
  have hne : ∀ p ∈ s.threads, p ≠ task := fun p hp => ne_of_mem_of_not_mem hp hfresh
  obtain ⟨hcurrent, hlist, -, huptime, hmem, htask, hhead, hother⟩ :
      Created s.scheduler function task frame (s.scheduler.createThread function task frame) :=
    createThread_created (hne _ hinv.current_mem).symm (hne _ hinv.list_mem).symm
  obtain ⟨hsaved, houtside⟩ := stackMem_saved (L := L) hfunction hframe hown s.scheduler.mem
  have hold : ∀ p ∈ s.threads, ∀ x ∈ L.own p,
      (s.create function task frame).scheduler.mem x = s.scheduler.mem x := by
    intro p hp x hx
    exact (congrFun hmem x).trans (houtside x (L.disjoint p task (hne p hp) x hx))
  -- Of the listed records only the first changes, and only its `next`.
  have hprocess : ∀ p ∈ s.threads,
      ((s.create function task frame).scheduler.process p).rsp = (s.scheduler.process p).rsp ∧
        ((s.create function task frame).scheduler.next p = s.scheduler.next p ∨
          (s.create function task frame).scheduler.next p = task) := by
    intro p hp
    by_cases hfirst : p = s.scheduler.processList
    · rw [hfirst]
      exact ⟨(congrArg Process.rsp hhead :), Or.inr (congrArg Process.next hhead :)⟩
    · have hsame := hother p (hne p hp) hfirst
      exact ⟨congrArg Process.rsp hsame, Or.inl (congrArg Process.next hsame)⟩
  have hidle : s.pending task = none := by
    cases hcall : s.pending task with
    | none => rfl
    | some call => exact absurd (hinv.frames.pending task call hcall).1 hfresh
  have hmember : ∀ p ∈ s.threads, p ∈ (s.create function task frame).threads :=
    fun p hp => List.mem_append_left _ hp
  have hcurrent' : (s.create function task frame).current = s.current := hcurrent
  refine ⟨?_, ?_, fun p hp => ?_, fun h => ?_, ?_, ?_, ⟨fun p hp hP => ?_, fun p call hcall => ?_⟩⟩
  · exact hcurrent'.symm ▸ hmember _ hinv.current_mem
  · exact hlist.symm ▸ hmember _ hinv.list_mem
  · rcases List.mem_append.mp hp with hp | hp
    · rcases (hprocess p hp).2 with hnext | hnext
      · exact hnext.symm ▸ hmember _ (hinv.next_mem p hp)
      · exact hnext.symm ▸ List.mem_append_right _ (List.mem_singleton_self task)
    · rw [List.mem_singleton.mp hp]
      have hnext : (s.create function task frame).scheduler.next task =
          s.scheduler.next s.scheduler.processList := (congrArg Process.next htask :)
      exact hnext.symm ▸ hmember _ (hinv.next_mem _ hinv.list_mem)
  · rcases List.mem_append.mp h with h | h
    · exact hinv.null h
    · exact hnull (List.mem_singleton.mp h).symm
  · exact huptime.trans_lt hinv.uptime_lt
  · rw [hcurrent']
    exact hinv.runs
  · rcases List.mem_append.mp hp with hp | hp
    · obtain ⟨suspension, hsuspension, hold'⟩ := hinv.frames.suspended p hp (hcurrent' ▸ hP)
      refine ⟨suspension, (Function.update_of_ne (hne p hp) _ _).trans hsuspension, ?_⟩
      rw [(hprocess p hp).1]
      exact hold'.congr fun x hx => hold p hp x (hold'.own hx)
    · obtain rfl := List.mem_singleton.mp hp
      refine ⟨_, Function.update_self _ _ _, ?_⟩
      have hrsp : ((s.create function p frame).scheduler.process p).rsp = initialRsp frame :=
        (congrArg Process.rsp htask :)
      have hmem' : (s.create function p frame).scheduler.mem =
          stackMem s.scheduler.mem function frame := hmem
      rw [hrsp, hmem']
      exact hidle.symm ▸ hsaved
  · obtain ⟨hp, hbegun⟩ := hinv.frames.pending p call hcall
    exact ⟨hmember p hp, hbegun.congr fun x hx => hold p hp x (hbegun.own hx)⟩

/-! ## Interrupts -/

theorem stackBase_le (hcs : c.cs % 4 = 0) (rsp0 : ℕ) : stackBase rsp0 c ≤ c.reg .rsp := by
  unfold stackBase
  rw [if_pos hcs]
  exact Nat.sub_le _ _

/-- An interrupt saves the registers on the stack of the running thread and leaves the
saved registers there are alone. -/
theorem Inv.enter (hinv : Inv L s) (hroom : s.Room L) (hisr : isr < 2 ^ 64) (returnAddr : ℕ) :
    ∃ c mem, s.enter L isr returnAddr = s.run c mem ∧
      Entered L.rsp0 s.cpu s.scheduler.mem (c, mem) ∧ s.Kept (· ≠ s.current) mem ∧
      ∀ p ≠ s.current, ∀ x ∈ L.own p, mem x = s.scheduler.mem x := by
  obtain ⟨⟨c, mem⟩, hstate⟩ : ∃ state, (enterIsr returnAddr).foldl Instr.exec
      (interrupt L.rsp0 isr s.cpu s.scheduler.mem) = state := ⟨_, rfl⟩
  have hentered : Entered L.rsp0 s.cpu s.scheduler.mem (c, mem) :=
    hstate ▸ enterIsr_entered hinv.runs.bounded L.rsp0_lt hisr hroom.le
  have henter : s.enter L isr returnAddr = s.run c mem := by
    unfold System.enter System.exec
    rw [System.run, System.run, hstate]
    rfl
  have hother : ∀ p ≠ s.current, ∀ x ∈ L.own p,
      x < stackBase L.rsp0 s.cpu - 168 ∨ stackBase L.rsp0 s.cpu ≤ x := by
    intro p hp x hx
    by_contra hin
    have hcurrent : x ∈ L.own s.current := hroom.own ⟨by omega, by omega⟩
    exact L.disjoint p s.current hp x hx hcurrent
  refine ⟨c, mem, henter, hentered, ⟨fun p hp hne x hx => hentered.outside x ?_,
    fun p call hcall x hx => hentered.outside x ?_⟩,
    fun p hne x hx => hentered.outside x (hother p hne x hx)⟩
  · obtain ⟨suspension, -, hsaved⟩ := hinv.frames.suspended p hp hne
    exact hother p hne x (hsaved.own hx)
  · by_cases hp : p = s.current
    · obtain ⟨hcs, hbelow⟩ := hinv.runs.below call (hp ▸ hcall)
      exact Or.inr ((stackBase_le hcs L.rsp0).trans (hbelow.trans hx.1))
    · exact hother p hp x ((hinv.frames.pending p call hcall).2.own hx)

/-- The words saved at an interrupt. -/
theorem Inv.saved (hinv : Inv L s) (hroom : s.Room L)
    (hentered : Entered L.rsp0 s.cpu s.scheduler.mem (c, mem)) :
    Saved L s.current (stackBase L.rsp0 s.cpu - 160) (s.pending s.current) mem s.cpu where
  runs := hinv.runs
  own := fun x hx => hroom.own <| by
    unfold registerFrame at hx
    have hle := hroom.le
    rw [Set.mem_Ico] at hx ⊢
    omega
  words := hentered.saved
  below := fun call hcall => by
    obtain ⟨hcs, hbelow⟩ := hinv.runs.below call hcall
    rw [Nat.sub_add_cancel ((by decide : 160 ≤ 168).trans hroom.le)]
    exact (stackBase_le hcs L.rsp0).trans hbelow

theorem exec_leaveIsr {r : Reg} {c' : Cpu}
    (hwords : WordStack.words s.scheduler.mem (s.cpu.reg r) 20 = c'.registers) :
    s.exec (leaveIsr r) = s.run c' s.scheduler.mem := by
  unfold System.exec
  rw [leaveIsr_exec hwords]

/-! ## The timer -/

theorem irq0Handler_cases {scheduler scheduler' : Scheduler} {result : ℕ}
    (hcurrent : scheduler.currentProcess ≠ 0)
    (hirq0 : scheduler.irq0Handler rsp = (result, scheduler')) :
    scheduler'.currentProcess = scheduler.next scheduler.currentProcess ∧
      (∀ q, (scheduler'.process q).rsp =
        if q = scheduler.currentProcess then rsp else (scheduler.process q).rsp) ∧
      result = (scheduler'.process scheduler'.currentProcess).rsp ∧
      scheduler'.next = scheduler.next ∧ scheduler'.processList = scheduler.processList ∧
      scheduler'.mem = scheduler.mem ∧ scheduler'.uptimeMs < 2 ^ 64 := by
  unfold Scheduler.irq0Handler at hirq0
  dsimp only at hirq0
  obtain ⟨hnext, hprocess, hresult⟩ := Scheduler.schedule_eq
    (s := { scheduler with uptimeMs := (scheduler.uptimeMs + 10) % 2 ^ 64 }) hcurrent rsp
  obtain rfl : _ = result := congrArg Prod.fst hirq0
  obtain rfl : _ = scheduler' := congrArg Prod.snd hirq0
  refine ⟨hnext, fun q => ?_, hresult, ?_, (Scheduler.schedule_kept _ rsp).1, ?_, ?_⟩
  · rw [hprocess]
    split <;> rfl
  · exact funext fun q => Scheduler.schedule_next _ rsp q
  · unfold Scheduler.schedule
    rw [if_neg hcurrent]
    rfl
  · unfold Scheduler.schedule
    rw [if_neg hcurrent]
    exact Nat.mod_lt _ (Nat.two_pow_pos 64)

/-- When `irq0_handler` returns, all threads are suspended, and it returns where the
registers of the next one are. -/
theorem Inv.timer (hinv : Inv L s) (hroom : s.Room L) (returnAddr : ℕ) :
    ∃ s₁, s.timer L returnAddr = ((s₁.scheduler.process s₁.current).rsp, s₁) ∧
      s₁.threads = s.threads ∧ s₁.pending = s.pending ∧
      s₁.suspended = Function.update s.suspended s.current (some (.interrupted s.cpu)) ∧
      s₁.current = s.scheduler.next s.current ∧
      s₁.scheduler.processList = s.scheduler.processList ∧
      s₁.scheduler.next = s.scheduler.next ∧ s₁.scheduler.uptimeMs < 2 ^ 64 ∧
      Frames L s₁ fun _ => True := by
  obtain ⟨c, mem, henter, hentered, hkept, -⟩ := hinv.enter hroom L.isr32_lt returnAddr
  have hframes := hinv.frames.run hkept c
  have hnonnull : (s.run c mem).scheduler.currentProcess ≠ 0 :=
    fun h => hinv.null (h ▸ hinv.current_mem)
  obtain ⟨result, scheduler, hirq0⟩ : ∃ result scheduler,
      (s.run c mem).scheduler.irq0Handler ((s.run c mem).cpu.reg .rdi) = (result, scheduler) :=
    ⟨_, _, rfl⟩
  obtain ⟨hcurrent, hrsp, hresult, hnext, hlist, hmem, huptime⟩ := irq0Handler_cases hnonnull hirq0
  unfold System.timer
  rw [henter]
  dsimp only
  rw [hirq0]
  have hsaved : ∀ q, (scheduler.process q).rsp =
      if q = s.current then stackBase L.rsp0 s.cpu - 160 else (s.scheduler.process q).rsp :=
    fun q => (hrsp q).trans (congrArg (ite _ · _) hentered.rdi_eq)
  -- The interrupted thread is saved on its own stack, the others are where they were.
  refine ⟨_, Prod.ext hresult rfl, rfl, rfl, rfl, hcurrent, hlist, hnext, huptime,
    fun p hp _ => ?_, fun p call hcall => ?_⟩
  · dsimp only
    rw [hsaved, hmem]
    by_cases hp' : p = s.current
    · refine ⟨.interrupted s.cpu, by rw [hp', Function.update_self], ?_⟩
      rw [hp', if_pos rfl]
      exact hinv.saved hroom hentered
    · obtain ⟨suspension, hsuspension, hkept⟩ := hframes.suspended p hp hp'
      refine ⟨suspension, (Function.update_of_ne hp' _ _).trans hsuspension, ?_⟩
      rw [if_neg hp']
      exact hkept
  · dsimp only
    rw [hmem]
    exact hframes.pending p call hcall

/-- After a timer interrupt the thread whose turn it is has the registers it was
suspended with. -/
theorem Inv.resume (hinv : Inv L s) (hroom : s.Room L)
    (hrax : c.reg .rax = (s.timer L returnAddr).1)
    (hkept : (s.timer L returnAddr).2.Kept (fun _ => True) mem) :
    ∃ s₁ suspension, ((s.timer L returnAddr).2.run c mem).exec leaveIsr32 = s₁ ∧
      s₁.current = s.scheduler.next s.current ∧
      s₁.suspended = Function.update s.suspended s.current (some (.interrupted s.cpu)) ∧
      s₁.suspended s₁.current = some suspension ∧ s₁.cpu = suspension.cpu ∧ Inv L s₁ := by
  obtain ⟨s₁, htimer, hthreads, hpending, hsuspended, hcurrent, hlist, hnext, huptime, hframes⟩ :=
    hinv.timer hroom returnAddr
  rw [htimer] at hrax hkept ⊢
  have hmem : s₁.current ∈ s₁.threads := by
    rw [hcurrent, hthreads]
    exact hinv.next_mem _ hinv.current_mem
  have hkept' := hframes.run hkept c
  obtain ⟨suspension, hsuspension, hsaved⟩ := hkept'.suspended s₁.current hmem trivial
  have hresume : (s₁.run c mem).exec leaveIsr32 = s₁.run suspension.cpu mem := by
    refine exec_leaveIsr (s := s₁.run c mem) (r := .rax) ?_
    exact (congrArg (WordStack.words mem · 20) hrax).trans hsaved.words
  refine ⟨_, suspension, hresume, hcurrent, hsuspended, hsuspension, rfl, ?_⟩
  refine ⟨hmem, ?_, fun p hp => ?_, ?_, huptime, hsaved.runs, fun p hp _ => ?_, hkept'.pending⟩
  · change s₁.scheduler.processList ∈ s₁.threads
    rw [hlist, hthreads]
    exact hinv.list_mem
  · change s₁.scheduler.next p ∈ s₁.threads
    rw [hnext, hthreads]
    exact hinv.next_mem p (hthreads ▸ hp)
  · change 0 ∉ s₁.threads
    rw [hthreads]
    exact hinv.null
  · exact hkept'.suspended p hp trivial

/-! ## System calls -/

/-- What the running thread does on its own stack, and to its own system call, leaves
the others alone. -/
theorem Inv.pend (hinv : Inv L s)
    (hother : ∀ p ≠ s.current, ∀ x ∈ L.own p, mem x = s.scheduler.mem x)
    (hruns : Runs L s.current pending c)
    (hbegun : ∀ call, pending = some call → Begun L s.current mem call) :
    Inv L ((s.run c mem).pend pending) := by
  have hupdate : ∀ p ≠ s.current, ((s.run c mem).pend pending).pending p = s.pending p :=
    fun p hne => Function.update_of_ne hne _ _
  have hself : ((s.run c mem).pend pending).pending s.current = pending :=
    Function.update_self _ _ _
  refine { hinv with runs := ?_, frames := ⟨fun p hp hne => ?_, fun p call hcall => ?_⟩ }
  · exact hself.symm ▸ hruns
  · obtain ⟨suspension, hsuspension, hsaved⟩ := hinv.frames.suspended p hp hne
    refine ⟨suspension, hsuspension, ?_⟩
    rw [hupdate p hne]
    exact hsaved.congr fun x hx => hother p hne x (hsaved.own hx)
  · by_cases hp : p = s.current
    · rw [hp] at hcall ⊢
      exact ⟨hinv.current_mem, hbegun call (hself.symm.trans hcall)⟩
    · obtain ⟨hmem, hcall'⟩ := hinv.frames.pending p call ((hupdate p hp).symm.trans hcall)
      exact ⟨hmem, hcall'.congr fun x hx => hother p hp x (hcall'.own hx)⟩

theorem Inv.syscall (hinv : Inv L s) (hroom : s.Room L) (hidle : s.pending s.current = none)
    (returnAddr : ℕ) : Inv L (s.syscall L returnAddr) := by
  obtain ⟨c, mem, henter, hentered, -, hother⟩ := hinv.enter hroom L.isr128_lt returnAddr
  have hsaved := hinv.saved hroom hentered
  have hcs : c.cs % 4 = 0 := congrArg (· % 4) hentered.cs_eq
  have hbelow : c.reg .rsp ≤ c.reg .rdi :=
    hentered.rsp_eq.trans_le ((Nat.sub_le_sub_left (by decide) _).trans_eq hentered.rdi_eq.symm)
  unfold System.syscall
  rw [henter]
  refine hinv.pend hother ⟨hentered.bounded, fun h => absurd hcs h, ?_⟩ ?_
  · rintro call ⟨⟩
    exact ⟨hcs, hbelow⟩
  · rintro call ⟨⟩
    refine ⟨hidle ▸ hinv.runs, hentered.rbx_eq.trans hentered.rdi_eq.symm, ?_, ?_,
      fun uptime h => absurd h.symm (Option.some_ne_none uptime)⟩
    · exact (congrArg registerFrame hentered.rdi_eq).subset.trans hsaved.own
    · exact (congrArg (WordStack.words mem · 20) hentered.rdi_eq).trans hsaved.words

theorem syscallHandler_outside {uptime regs x : ℕ} (hx : x ∉ registerFrame regs) :
    syscallHandler uptime regs mem x = mem x := by
  unfold syscallHandler
  unfold registerFrame at hx
  rw [Set.mem_Ico] at hx
  split
  · exact Memory.store_outside (by omega)
  · rfl

/-- The handler stores the uptime as the saved `rax` if the number was 3. -/
theorem syscallHandler_words {uptime regs : ℕ} (huptime : uptime < 2 ^ 64)
    (hwords : WordStack.words mem regs 20 = c.registers) :
    WordStack.words (syscallHandler uptime regs mem) regs 20 =
      (if c.reg .rax = 3 then c.set .rax uptime else c).registers := by
  have hnumber : some (mem.load (regs + 8 * 6) 8) = some (c.reg .rax) := by
    rw [← WordStack.words_getElem? (n := 20) (by decide), hwords]
    rfl
  unfold syscallHandler
  rw [Option.some_injective _ hnumber]
  split
  · rw [WordStack.words_store (i := 6) huptime (by decide), hwords]
    rfl
  · exact hwords

theorem Inv.handle (hinv : Inv L s) (hcall : s.pending s.current = some call)
    (hfirst : call.uptime = none) : Inv L (s.handle call) := by
  obtain ⟨-, hbegun⟩ := hinv.frames.pending _ _ hcall
  refine hinv.pend (fun p hne x hx => syscallHandler_outside fun hx' => ?_) ?_ ?_
  · exact L.disjoint p s.current hne x hx (hbegun.own hx')
  · exact ⟨hinv.runs.bounded, hinv.runs.ring, fun call' h =>
      Option.some_injective _ h ▸ hinv.runs.below call hcall⟩
  · rintro call' ⟨⟩
    refine ⟨hbegun.runs, hbegun.rbx_eq, hbegun.own, ?_, ?_⟩
    · refine syscallHandler_words hinv.uptime_lt (hbegun.words.trans ?_)
      unfold SystemCall.cpu
      rw [hfirst]
    · rintro uptime ⟨⟩
      exact hinv.uptime_lt

theorem Inv.sysret (hinv : Inv L s) (hcall : s.pending s.current = some call)
    (hrbx : s.cpu.reg .rbx = call.rbx) :
    ∃ s₁, s.sysret = s₁ ∧ s₁.cpu = call.cpu ∧ Inv L s₁ := by
  obtain ⟨-, hbegun⟩ := hinv.frames.pending _ _ hcall
  have hreturn : s.exec leaveIsr128 = s.run call.cpu s.scheduler.mem := by
    refine exec_leaveIsr (r := .rbx) ?_
    rw [hrbx, hbegun.rbx_eq]
    exact hbegun.words
  unfold System.sysret
  rw [hreturn]
  refine ⟨_, rfl, rfl, hinv.pend (fun _ _ _ _ => rfl) hbegun.runs_cpu fun call h =>
    absurd h.symm (Option.some_ne_none call)⟩

/-! ## Runs -/

theorem Start.inv (hstart : Start L s) : Inv L s := by
  obtain ⟨s₀, p, pageDir, hp, huptime, hscheduler, hthreads⟩ := hstart.initialized
  have hcurrent : s.current = p := congrArg Scheduler.currentProcess hscheduler
  have hlist : s.scheduler.processList = p := congrArg Scheduler.processList hscheduler
  have hprocess : (s₀.multitaskingInitialize p pageDir).process p = ⟨0, 0, pageDir, p⟩ :=
    Function.update_self _ _ _
  have hnext : s.scheduler.next p = p := by
    rw [hscheduler]
    exact congrArg Process.next hprocess
  have hmem : p ∈ s.threads := hthreads ▸ List.mem_singleton_self p
  refine ⟨hcurrent ▸ hmem, hlist ▸ hmem, fun q hq => ?_, fun h => ?_, ?_, ?_,
    fun q hq hne => ?_, fun q call hcall => ?_⟩
  · rw [hthreads] at hq
    rw [List.mem_singleton.mp hq, hnext]
    exact hmem
  · rw [hthreads] at h
    exact hp (List.mem_singleton.mp h).symm
  · rw [hscheduler]
    exact huptime
  · rw [hstart.idle]
    exact hstart.runs
  · rw [hthreads] at hq
    exact absurd ((List.mem_singleton.mp hq).trans hcurrent.symm) hne
  · exact absurd hcall.symm ((hstart.idle q).symm ▸ Option.some_ne_none call)

theorem step_inv {event : SystemEvent} (hstep : Step L s event s') (hinv : Inv L s) :
    Inv L s' := by
  cases hstep with
  | run hruns hkept => exact hinv.run hruns hkept
  | create hnull hfresh hfunction hframe hown =>
      exact hinv.create hnull hfresh hfunction hframe hown
  | timer hroom hrax hkept =>
      obtain ⟨s₁, -, rfl, -, -, -, -, hinv'⟩ := hinv.resume hroom hrax hkept
      exact hinv'
  | syscall hroom hidle hnumber => exact hinv.syscall hroom hidle _
  | handle hcall hfirst => exact hinv.handle hcall hfirst
  | sysret hcall hhandled hrbx =>
      obtain ⟨s₁, rfl, -, hinv'⟩ := hinv.sysret hcall hrbx
      exact hinv'

/-- In every run, a timer interrupt lets the next thread of the ring go on with
exactly the registers it was interrupted with, or with those of a new thread if it
has not run yet; and a system call returns with the registers of its caller, except
that number 3 returns the uptime. -/
theorem run_transparent {s₀ : System} {events : List SystemEvent} (hstart : Start L s₀)
    (hrun : Run (Step L) s₀ events s) :
    (∀ s', Step L s .timer s' → ∃ suspension,
      s'.current = s.scheduler.next s.current ∧
      s'.suspended = Function.update s.suspended s.current (some (.interrupted s.cpu)) ∧
      s'.suspended s'.current = some suspension ∧ s'.cpu = suspension.cpu) ∧
    ∀ s', Step L s .sysret s' → ∃ call uptime,
      s.pending s.current = some call ∧ call.uptime = some uptime ∧
      s'.cpu = if call.entry.reg .rax = 3 then call.entry.set .rax uptime else call.entry := by
  have hinv : Inv L s :=
    hrun.invariant (Inv L) hstart.inv fun _ _ _ hstep hinv => step_inv hstep hinv
  refine ⟨fun s' hstep => ?_, fun s' hstep => ?_⟩
  · cases hstep with
    | timer hroom hrax hkept =>
        obtain ⟨s₁, suspension, rfl, hcurrent, hsuspended, hsuspension, hcpu, -⟩ :=
          hinv.resume hroom hrax hkept
        exact ⟨suspension, hcurrent, hsuspended, hsuspension, hcpu⟩
  · cases hstep with
    | sysret hcall hhandled hrbx =>
        obtain ⟨s₁, rfl, hcpu, -⟩ := hinv.sysret hcall hrbx
        obtain ⟨uptime, huptime⟩ := Option.ne_none_iff_exists'.mp hhandled
        refine ⟨_, uptime, hcall, huptime, ?_⟩
        rw [hcpu, SystemCall.cpu, huptime]

/-- Every thread has a megabyte. -/
def megabytes : Stacks where
  own := fun p => {x | x / 0x100000 = p}
  disjoint := fun p q hpq x hp hq => hpq (hp.symm.trans hq)
  user := 1
  rsp0 := 0x1F0000
  isr32 := 0x500
  isr128 := 0x600
  rsp0_lt := by decide
  isr32_lt := by decide
  isr128_lt := by decide

/-- The boot thread, which is the process at address 1. -/
def booted : System where
  cpu := ⟨fun r => if r = .rsp then 0x180000 else 3, 0x400, 0x08, 0x202, 0x10⟩
  scheduler := (Scheduler.boot (fun _ => ⟨0, 0, 0, 0⟩) (fun _ => 0)).multitaskingInitialize 1 0x1000
  threads := [1]
  suspended := fun _ => none
  pending := fun _ => none

theorem booted_start : Start megabytes booted := by
  refine ⟨⟨_, 1, 0x1000, by decide, by decide, rfl, rfl⟩, fun _ => rfl, ?_, by decide, ?_⟩
  · unfold Cpu.Bounded
    decide
  · intro call h
    exact absurd h.symm (Option.some_ne_none call)

theorem exists_enter (L : Stacks) (s : System) (isr returnAddr : ℕ) :
    ∃ c mem, s.enter L isr returnAddr = s.run c mem := ⟨_, _, rfl⟩

/-- A timer interrupt can be taken whenever there is room for it. -/
theorem Room.exists_timer (hroom : s.Room L) (returnAddr : ℕ) (hcurrent : s.current ≠ 0) :
    ∃ s', Step L s .timer s' ∧ s'.pending = s.pending ∧ s'.scheduler.next = s.scheduler.next ∧
      s'.scheduler.uptimeMs = (s.scheduler.uptimeMs + 10) % 2 ^ 64 := by
  obtain ⟨c, mem, henter⟩ := exists_enter L s L.isr32 returnAddr
  obtain ⟨rsp, scheduler, hirq0⟩ : ∃ rsp scheduler,
      (s.run c mem).scheduler.irq0Handler ((s.run c mem).cpu.reg .rdi) = (rsp, scheduler) :=
    ⟨_, _, rfl⟩
  obtain ⟨result, hresult⟩ : ∃ result, s.timer L returnAddr = result := ⟨_, rfl⟩
  have htimer : result.2.scheduler = scheduler ∧ result.2.pending = s.pending := by
    rw [← hresult]
    unfold System.timer
    rw [henter]
    dsimp only
    rw [hirq0]
    exact ⟨rfl, rfl⟩
  have hstep : Step L s .timer
      ((result.2.run (result.2.cpu.set .rax result.1) result.2.scheduler.mem).exec leaveIsr32) := by
    subst hresult
    exact .timer hroom Cpu.set_self ⟨fun _ _ _ _ _ => rfl, fun _ _ _ _ _ => rfl⟩
  have hcurrent' : (s.run c mem).scheduler.currentProcess ≠ 0 := hcurrent
  obtain ⟨-, -, -, hnext, -⟩ := irq0Handler_cases hcurrent' hirq0
  have huptime :=
    Scheduler.irq0Handler_uptimeMs (s.run c mem).scheduler ((s.run c mem).cpu.reg .rdi)
  rw [hirq0] at huptime
  refine ⟨_, hstep, htimer.2, ?_, ?_⟩
  · exact (congrArg Scheduler.next htimer.1).trans hnext
  · exact (congrArg Scheduler.uptimeMs htimer.1).trans huptime

/-- A system call can be made whenever there is room for it, and then returns. -/
theorem Room.exists_sysret (hroom : s.Room L) (returnAddr : ℕ)
    (hidle : s.pending s.current = none) (hnumber : s.cpu.reg .rax ≠ 2) :
    ∃ handled call, Run (Step L) s [.syscall, .handle] handled ∧
      Step L handled .sysret handled.sysret ∧ handled.pending handled.current = some call ∧
      call.entry = s.cpu ∧ call.uptime = some s.scheduler.uptimeMs := by
  obtain ⟨c, mem, henter⟩ := exists_enter L s L.isr128 returnAddr
  have hcall : Step L s .syscall (s.syscall L returnAddr) := .syscall hroom hidle hnumber
  unfold System.syscall at hcall
  rw [henter] at hcall
  dsimp only at hcall
  generalize hcalled : (s.run c mem).pend _ = called at hcall
  have hpend : called.pending called.current =
      some ⟨(s.run c mem).cpu.reg .rdi, (s.run c mem).cpu.reg .rbx, s.cpu, none⟩ := by
    subst hcalled
    exact Function.update_self _ _ _
  have hhandle : Step L called .handle _ := .handle hpend rfl
  generalize hhandled : called.handle _ = handled at hhandle
  unfold System.handle at hhandled
  generalize syscallHandler _ _ _ = mem' at hhandled
  have hpend' : handled.pending handled.current = some ⟨(s.run c mem).cpu.reg .rdi,
      (s.run c mem).cpu.reg .rbx, s.cpu, some s.scheduler.uptimeMs⟩ := by
    subst hhandled hcalled
    exact Function.update_self _ _ _
  have hrbx : handled.cpu.reg .rbx = (s.run c mem).cpu.reg .rbx := by
    subst hhandled hcalled
    rfl
  exact ⟨handled, _, .cons hcall (.cons hhandle (.nil _)),
    .sysret hpend' (Option.some_ne_none _) hrbx, hpend', rfl, rfl⟩

/-- Where the stack pointer is in the own megabyte there is room. -/
theorem room_megabytes {p base : ℕ} (hcurrent : s.current = p)
    (hbase : stackBase megabytes.rsp0 s.cpu = base) (hlo : 0x100000 * p + 168 ≤ base)
    (hhi : base ≤ 0x100000 * (p + 1)) : s.Room megabytes := by
  refine ⟨by omega, fun x hx => ?_⟩
  rw [hbase, Set.mem_Ico] at hx
  rw [hcurrent]
  change x / 0x100000 = p
  omega

/-- The first timer interrupt starts the thread that was made, the second one lets the boot
thread go on, and then its system call 3 returns the uptime. -/
theorem booted_transparent : ∃ started resumed handled returned,
    Run (Step megabytes) booted [.create 0x700 2 0x200000, .timer] started ∧
    started.cpu = threadStart 0x700 0x200000 ∧
    Step megabytes started .timer resumed ∧ resumed.cpu = booted.cpu ∧
    Run (Step megabytes) resumed [.syscall, .handle] handled ∧
    Step megabytes handled .sysret returned ∧ returned.cpu = booted.cpu.set .rax 20 := by
  let s := booted.create 0x700 2 0x200000
  have hcreate : Run (Step megabytes) booted [.create 0x700 2 0x200000] s := by
    refine .cons (.create (by decide) (by decide) (by decide) (by decide) fun x hx => ?_) (.nil _)
    exact Nat.div_eq_of_lt_le hx.1 (hx.2.trans (by decide))
  have hbootBase : stackBase megabytes.rsp0 booted.cpu = 0x180000 := by decide
  -- The new thread starts.
  obtain ⟨started, hfirst, hpending, hring, huptime⟩ :=
    (room_megabytes (s := s) (p := 1) rfl hbootBase (by decide) (by decide)).exists_timer 0x555
      (by decide)
  obtain ⟨suspension, hcurrent, hsuspended, hsuspension, hcpu⟩ :=
    (run_transparent booted_start hcreate).1 _ hfirst
  have hsecond : started.current = 2 := hcurrent
  rw [hsecond, hsuspended] at hsuspension
  obtain rfl := Option.some_injective _ hsuspension
  have hthreadBase : stackBase megabytes.rsp0 started.cpu = 0x201000 := by
    rw [hcpu]
    decide
  have hstarted := hcreate.append (.cons hfirst (.nil _))
  -- The boot thread goes on.
  obtain ⟨resumed, hagain, hpending', hring', huptime'⟩ :=
    (room_megabytes hsecond hthreadBase (by decide) (by decide)).exists_timer 0x555
      (by rw [hsecond]; decide)
  obtain ⟨suspension, hcurrent', hsuspended', hsuspension', hcpu'⟩ :=
    (run_transparent booted_start hstarted).1 _ hagain
  have hfirst' : resumed.current = 1 := by
    rw [hcurrent', hring, hsecond]
    rfl
  rw [hfirst', hsuspended', Function.update_of_ne (by rw [hsecond]; decide), hsuspended]
    at hsuspension'
  obtain rfl := Option.some_injective _ hsuspension'
  have hresumed := hstarted.append (.cons hagain (.nil _))
  -- Its system call returns.
  have hbase : stackBase megabytes.rsp0 resumed.cpu = 0x180000 := by
    rw [hcpu']
    exact hbootBase
  have hidle : resumed.pending resumed.current = none := by rw [hpending', hpending]; rfl
  have hnumber : resumed.cpu.reg .rax ≠ 2 := by
    rw [hcpu']
    decide
  obtain ⟨handled, call, hrun, hsysret, hpend, hentry, hread⟩ :=
    (room_megabytes hfirst' hbase (by decide) (by decide)).exists_sysret 0x666 hidle hnumber
  obtain ⟨done, uptime, hdone, hread', hreturn⟩ :=
    (run_transparent booted_start (hresumed.append hrun)).2 _ hsysret
  obtain rfl := Option.some_injective _ (hpend.symm.trans hdone)
  obtain rfl := Option.some_injective _ (hread.symm.trans hread')
  have hticks : resumed.scheduler.uptimeMs = 20 := by
    rw [huptime', huptime]
    rfl
  refine ⟨started, resumed, handled, _, hstarted, hcpu, hagain, hcpu', hrun, hsysret, ?_⟩
  rw [hreturn, hticks, hentry, hcpu']
  rfl

end System

end BadOS.Kernel
