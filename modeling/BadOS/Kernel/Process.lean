import BadOS.Foundation.CInt
import BadOS.Foundation.WordStack

/-! # Processes

`create_kernel_thread` as the list of its statements, so that a timer interrupt
can come between any two of them, and the scheduler.
-/

namespace BadOS.Kernel

/-- `process_t`. -/
structure Process where
  pid : ℤ
  rsp : ℕ
  pageDirectory : ℕ
  next : ℕ
deriving DecidableEq

/-- The processes at their addresses, the variables of `process.c` and the memory
of the stacks. -/
structure Scheduler where
  process : ℕ → Process
  currentProcess : ℕ
  processList : ℕ
  nextPid : ℤ
  uptimeMs : ℕ
  mem : Memory

namespace Scheduler

/-- Change the process at an address. -/
def modify (s : Scheduler) (p : ℕ) (f : Process → Process) : Scheduler :=
  { s with process := Function.update s.process p (f (s.process p)) }

/-- `multitasking_initialize`; `kmalloc` returns `p` and the active page
directory is `pageDir`. -/
def multitaskingInitialize (s : Scheduler) (p pageDir : ℕ) : Scheduler :=
  let s := { s with currentProcess := p }
  let s := s.modify p fun process =>
    { process with pid := 0, rsp := 0, pageDirectory := pageDir, next := p }
  { s with processList := s.currentProcess }

def schedule (s : Scheduler) (currentRsp : ℕ) : ℕ × Scheduler :=
  if s.currentProcess = 0 then (currentRsp, s)
  else
    let s := s.modify s.currentProcess fun process => { process with rsp := currentRsp }
    let s := { s with currentProcess := (s.process s.currentProcess).next }
    ((s.process s.currentProcess).rsp, s)

def irq0Handler (s : Scheduler) (rsp : ℕ) : ℕ × Scheduler :=
  let s := { s with uptimeMs := (s.uptimeMs + 10) % 2 ^ 64 }
  s.schedule rsp

theorem irq0Handler_uptimeMs (s : Scheduler) (rsp : ℕ) :
    (s.irq0Handler rsp).2.uptimeMs = (s.uptimeMs + 10) % 2 ^ 64 := by
  unfold irq0Handler schedule
  dsimp only
  split_ifs <;> rfl

end Scheduler

/-- A value that `create_kernel_thread` pushes on the new stack. -/
inductive Pushed
  | const (value : ℕ)
  | stackEnd
  | function
deriving DecidableEq

/-- A statement of `create_kernel_thread`; the results of the allocators are given. -/
inductive Statement
  | newTask (task : ℕ)
  | pid
  | pageDirectory
  | next
  | link
  | stackPhys (frame : ℕ)
  | stackTop
  | align
  | push (value : Pushed)
  | rsp
  | printf
deriving DecidableEq

/-- A call of `create_kernel_thread`: its argument and its local variables. -/
structure ThreadCall where
  function : ℕ
  newTask : ℕ
  stackPhys : ℕ
  stackTop : ℕ

namespace ThreadCall

def value (call : ThreadCall) : Pushed → ℕ
  | .const v => v
  | .stackEnd => call.stackPhys + 4096
  | .function => call.function

end ThreadCall

/-- The scheduler and a call in progress after a statement. -/
def Statement.exec (state : Scheduler × ThreadCall) (statement : Statement) :
    Scheduler × ThreadCall :=
  let (s, call) := state
  match statement with
  | .newTask task => (s, { call with newTask := task })
  | .pid =>
      ({ s.modify call.newTask fun process => { process with pid := s.nextPid } with
        nextPid := CInt.toI32 (s.nextPid + 1) }, call)
  | .pageDirectory =>
      (s.modify call.newTask fun process =>
        { process with pageDirectory := (s.process s.currentProcess).pageDirectory }, call)
  | .next =>
      (s.modify call.newTask fun process =>
        { process with next := (s.process s.processList).next }, call)
  | .link => (s.modify s.processList fun process => { process with next := call.newTask }, call)
  | .stackPhys frame => (s, { call with stackPhys := frame })
  | .stackTop => (s, { call with stackTop := call.stackPhys + 4096 })
  | .align => (s, { call with stackTop := call.stackTop - call.stackTop % 16 })
  | .push value =>
      let stack := WordStack.push (s.mem, call.stackTop) (call.value value)
      ({ s with mem := stack.1 }, { call with stackTop := stack.2 })
  | .rsp => (s.modify call.newTask fun process => { process with rsp := call.stackTop }, call)
  | .printf => (s, call)

namespace Statement

/-- The statements up to the one that links the new task. -/
def linkTask (task : ℕ) : List Statement := [.newTask task, .pid, .pageDirectory, .next, .link]

/-- The pushes on the new stack: SS, RSP, RFLAGS, CS and RIP, then the registers
from `r15` to `rdi`. -/
def initialPushes : List Pushed :=
  [.const 0x10, .stackEnd, .const 0x202, .const 0x08, .function] ++ List.replicate 15 (.const 0)

/-- The statements that prepare the stack. -/
def prepareStack (frame : ℕ) : List Statement :=
  [.stackPhys frame, .stackTop, .align] ++ initialPushes.map .push

end Statement

/-- The statements of `create_kernel_thread`, when `kmalloc` returns `task` and
`pmm_alloc_block` returns `frame`. -/
def createKernelThread (task frame : ℕ) : List Statement :=
  Statement.linkTask task ++ Statement.prepareStack frame ++ [.rsp, .printf]

/-- A call that begins; its local variables are not set. -/
def ThreadCall.begin (function : ℕ) : ThreadCall where
  function := function
  newTask := 0
  stackPhys := 0
  stackTop := 0

/-- A whole call of `create_kernel_thread(function)`. -/
def Scheduler.createThread (s : Scheduler) (function task frame : ℕ) : Scheduler :=
  ((createKernelThread task frame).foldl Statement.exec (s, .begin function)).1

/-- The stack pointer `create_kernel_thread` prepares: 20 quadwords below the end
of the stack. -/
def initialRsp (frame : ℕ) : ℕ := frame + 4096 - (frame + 4096) % 16 - 160

namespace Scheduler

variable {s : Scheduler} {p q task frame function : ℕ} {f : Process → Process}

@[simp] theorem modify_self : (s.modify p f).process p = f (s.process p) :=
  Function.update_self _ _ _

theorem modify_of_ne (h : q ≠ p) : (s.modify p f).process q = s.process q :=
  Function.update_of_ne h _ _

@[simp] theorem modify_currentProcess : (s.modify p f).currentProcess = s.currentProcess := rfl

@[simp] theorem modify_processList : (s.modify p f).processList = s.processList := rfl

@[simp] theorem modify_nextPid : (s.modify p f).nextPid = s.nextPid := rfl

@[simp] theorem modify_uptimeMs : (s.modify p f).uptimeMs = s.uptimeMs := rfl

@[simp] theorem modify_mem : (s.modify p f).mem = s.mem := rfl

end Scheduler

/-! ## A whole call -/

variable {s : Scheduler} {call : ThreadCall} {function task frame : ℕ}

theorem foldl_push (values : List Pushed) (s : Scheduler) (call : ThreadCall) :
    (values.map .push).foldl Statement.exec (s, call) =
      ({ s with mem := (WordStack.pushAll (s.mem, call.stackTop) (values.map call.value)).1 },
        { call with
          stackTop := (WordStack.pushAll (s.mem, call.stackTop) (values.map call.value)).2 }) := by
  induction values generalizing s call with
  | nil => rfl
  | cons value values ih =>
      rw [List.map_cons, List.foldl_cons, ih]
      rfl

/-- The values pushed on a new stack: the interrupt frame and the registers. -/
def initialFrame (function frame : ℕ) : List ℕ :=
  [0x10, frame + 4096, 0x202, 0x08, function] ++ List.replicate 15 0

/-- The memory after the stack in `frame` is prepared. -/
def stackMem (mem : Memory) (function frame : ℕ) : Memory :=
  (WordStack.pushAll (mem, frame + 4096 - (frame + 4096) % 16) (initialFrame function frame)).1

theorem prepareStack_exec (frame : ℕ) (s : Scheduler) (call : ThreadCall) :
    (Statement.prepareStack frame).foldl Statement.exec (s, call) =
      ({ s with mem := stackMem s.mem call.function frame },
        { call with stackPhys := frame, stackTop := initialRsp frame }) := by
  have hpointer := WordStack.pushAll_pointer (initialFrame call.function frame) s.mem
    (frame + 4096 - (frame + 4096) % 16)
  rw [show (initialFrame call.function frame).length = 20 from rfl] at hpointer
  rw [Statement.prepareStack, List.foldl_append, foldl_push]
  unfold stackMem initialRsp
  rw [← hpointer]
  rfl

/-- What a whole call does: the new process is linked after the first one and its
stack is prepared. -/
structure Created (s : Scheduler) (function task frame : ℕ) (s' : Scheduler) : Prop where
  currentProcess_eq : s'.currentProcess = s.currentProcess
  processList_eq : s'.processList = s.processList
  nextPid_eq : s'.nextPid = CInt.toI32 (s.nextPid + 1)
  uptimeMs_eq : s'.uptimeMs = s.uptimeMs
  mem_eq : s'.mem = stackMem s.mem function frame
  task_eq : s'.process task = ⟨s.nextPid, initialRsp frame,
    (s.process s.currentProcess).pageDirectory, (s.process s.processList).next⟩
  list_eq : s'.process s.processList = { s.process s.processList with next := task }
  other_eq : ∀ q, q ≠ task → q ≠ s.processList → s'.process q = s.process q

theorem createThread_created (hcurrent : task ≠ s.currentProcess) (hlist : task ≠ s.processList) :
    Created s function task frame (s.createThread function task frame) := by
  unfold Scheduler.createThread createKernelThread
  rw [List.foldl_append, List.foldl_append]
  simp only [Statement.linkTask, List.foldl_cons, List.foldl_nil, Statement.exec,
    ThreadCall.begin, prepareStack_exec]
  refine ⟨rfl, rfl, rfl, rfl, ?_, ?_, ?_, fun q htask hq => ?_⟩
  · simp only [Scheduler.modify]
  · simp [Scheduler.modify, hlist, hlist.symm, hcurrent.symm]
  · simp [Scheduler.modify, hlist, hlist.symm, hcurrent.symm]
  · simp [Scheduler.modify, htask, hq]

end BadOS.Kernel
