import BadOS.Kernel.SchedulerRing

/-! # Timer interrupts during thread creation

`create_kernel_thread` links the new process into the ring long before it sets
its stack pointer. A timer interrupt in between goes to the half-built process
if the current process is the first one of the ring, and not otherwise.
-/

namespace BadOS.Kernel

open Execution PointerRing

/-- A call of `create_kernel_thread` that has executed `done` statements; `task`
and `frame` are what its allocations return. -/
structure ActiveCall where
  locals : ThreadCall
  task : ℕ
  frame : ℕ
  done : ℕ

namespace ActiveCall

/-- The next statement. -/
def statement? (c : ActiveCall) : Option Statement := (createKernelThread c.task c.frame)[c.done]?

/-- The new process is linked, and its stack pointer is not set yet. -/
def inWindow (c : ActiveCall) : Prop := 5 ≤ c.done ∧ c.done ≤ 28

end ActiveCall

/-- The scheduler with a call in progress and the history: the processes that have
been linked, and the stack pointer last stored for each process, by `schedule` or
by the final assignment of `create_kernel_thread`. -/
structure CreationRun where
  scheduler : Scheduler
  call : Option ActiveCall
  linked : List ℕ
  stored : ℕ → Option ℕ

/-- A call begins, a statement of it is executed, or a timer interrupt comes. -/
inductive CreationEvent
  | begin (function task frame : ℕ)
  | statement
  | tick (rsp : ℕ)

namespace CreationRun

def begin (s : CreationRun) (function task frame : ℕ) : CreationRun :=
  { s with
    call := some { locals := .begin function, task, frame, done := 0 }
    stored := Function.update s.stored task none }

/-- The history after a statement. -/
def record (s : CreationRun) (locals : ThreadCall) : Statement → CreationRun
  | .link => { s with linked := s.linked ++ [locals.newTask] }
  | .rsp => { s with stored := Function.update s.stored locals.newTask (some locals.stackTop) }
  | _ => s

/-- Execute a statement of the call `c`. -/
def execute (s : CreationRun) (c : ActiveCall) (statement : Statement) : CreationRun :=
  let (scheduler, locals) := statement.exec (s.scheduler, c.locals)
  let call := { c with locals, done := c.done + 1 }
  { s.record c.locals statement with
    scheduler, call := if call.statement?.isSome then some call else none }

def tick (s : CreationRun) (rsp : ℕ) : CreationRun :=
  { s with
    scheduler := (s.scheduler.irq0Handler rsp).2
    stored := Function.update s.stored s.scheduler.currentProcess (some rsp) }

/-- A timer interrupt now returns a stack pointer that was stored for the process
it chooses. -/
def ReturnsStored (s : CreationRun) (rsp : ℕ) : Prop :=
  (s.tick rsp).stored (s.tick rsp).scheduler.currentProcess =
    some (s.scheduler.irq0Handler rsp).1

/-- The current process is not the first of the ring while a process is half-built. -/
def TickAllowed (s : CreationRun) : Prop :=
  ∀ c, s.call = some c → c.inWindow → s.scheduler.currentProcess ≠ s.scheduler.processList

/-- Steps in any order; a statement may be executed whatever the current process
is, so that every way of scheduling the caller is covered. Timer interrupts come
only when `TickAllowed`. -/
inductive Step (s : CreationRun) : CreationEvent → CreationRun → Prop
  | begin {function task frame : ℕ} (hidle : s.call = none) (hnull : task ≠ 0)
      (hfresh : task ∉ s.linked) : Step s (.begin function task frame) (s.begin function task frame)
  | statement {c : ActiveCall} {statement : Statement} (hcall : s.call = some c)
      (hstatement : c.statement? = some statement) : Step s .statement (s.execute c statement)
  | tick {rsp : ℕ} (hallowed : s.TickAllowed) : Step s (.tick rsp) (s.tick rsp)

/-- A ring in which all processes but the current one have been suspended or
prepared, with no creation in progress. -/
structure Start (s : CreationRun) : Prop where
  idle : s.call = none
  ring : ∃ l, IsRing s.scheduler.next s.scheduler.processList l ∧ l.Perm s.linked
  current_mem : s.scheduler.currentProcess ∈ s.linked
  null : 0 ∉ s.linked
  stored_eq : ∀ p ∈ s.linked, p ≠ s.scheduler.currentProcess →
    s.stored p = some (s.scheduler.process p).rsp

/-! ## The invariant -/

/-- What holds of a call in progress. -/
structure CallInv (s : CreationRun) (c : ActiveCall) : Prop where
  done_lt : c.done < 30
  task_ne : c.task ≠ 0
  newTask_eq : 1 ≤ c.done → c.locals.newTask = c.task
  fresh : c.done < 5 → c.task ∉ s.linked
  next_eq : c.done = 4 → s.scheduler.next c.task = s.scheduler.next s.scheduler.processList
  window : c.inWindow → s.scheduler.next s.scheduler.processList = c.task ∧
    c.task ∈ s.linked ∧ s.scheduler.currentProcess ≠ c.task
  unstored : c.done ≤ 28 → s.stored c.task = none

structure Inv (s : CreationRun) : Prop where
  ring : ∃ l, IsRing s.scheduler.next s.scheduler.processList l ∧ l.Perm s.linked
  current_mem : s.scheduler.currentProcess ∈ s.linked
  null : 0 ∉ s.linked
  stored_eq : ∀ p ∈ s.linked, p ≠ s.scheduler.currentProcess →
    (∀ c, s.call = some c → c.inWindow → p ≠ c.task) →
    s.stored p = some (s.scheduler.process p).rsp
  callInv : ∀ c, s.call = some c → CallInv s c

variable {s s' : CreationRun} {c : ActiveCall} {rsp function task frame : ℕ}

theorem Start.inv (hstart : Start s) : Inv s :=
  ⟨hstart.ring, hstart.current_mem, hstart.null, fun p hp hne _ => hstart.stored_eq p hp hne,
    fun c hc => by rw [hstart.idle] at hc; exact nomatch hc⟩

theorem Inv.begin (hinv : Inv s) (hidle : s.call = none) (hnull : task ≠ 0)
    (hfresh : task ∉ s.linked) : Inv (s.begin function task frame) := by
  refine ⟨hinv.ring, hinv.current_mem, hinv.null, fun p hp hne _ => ?_, ?_⟩
  · have hother : p ≠ task := fun h => hfresh (h ▸ hp)
    change Function.update s.stored task none p = _
    rw [Function.update_of_ne hother]
    exact hinv.stored_eq p hp hne fun c hc => by rw [hidle] at hc; cases hc
  · intro c hc
    obtain rfl := Option.some_injective _ hc
    refine ⟨Nat.zero_lt_succ _, hnull, ?_, fun _ => hfresh, ?_, ?_,
      fun _ => Function.update_self _ _ _⟩
    · exact fun h => absurd h (Nat.not_succ_le_zero 0)
    · exact fun h => nomatch h
    · exact fun h => absurd h.1 (Nat.not_succ_le_zero 4)

/-- Until its stack pointer is set, the new process is not the current one. -/
theorem CallInv.current_ne (hcall : CallInv s c)
    (hcurrent : s.scheduler.currentProcess ∈ s.linked) (hdone : c.done ≤ 28) :
    s.scheduler.currentProcess ≠ c.task := by
  rcases Nat.lt_or_ge c.done 5 with hbefore | hlinked
  · exact fun h => hcall.fresh hbefore (h ▸ hcurrent)
  · exact (hcall.window ⟨hlinked, hdone⟩).2.2

/-! ## Timer interrupts -/

theorem tick_eq (hinv : Inv s) (rsp : ℕ) :
    (s.tick rsp).scheduler.currentProcess = s.scheduler.next s.scheduler.currentProcess ∧
      (∀ q, (s.tick rsp).scheduler.process q = if q = s.scheduler.currentProcess then
        { s.scheduler.process q with rsp := rsp } else s.scheduler.process q) ∧
      (s.scheduler.irq0Handler rsp).1 =
        ((s.tick rsp).scheduler.process (s.tick rsp).scheduler.currentProcess).rsp ∧
      (∀ q, (s.tick rsp).scheduler.next q = s.scheduler.next q) ∧
      (s.tick rsp).scheduler.processList = s.scheduler.processList := by
  have hnonnull : s.scheduler.currentProcess ≠ 0 := fun h => hinv.null (h ▸ hinv.current_mem)
  let ticked : Scheduler := { s.scheduler with uptimeMs := (s.scheduler.uptimeMs + 10) % 2 ^ 64 }
  obtain ⟨hcurrent, hprocess, hreturn⟩ :=
    Scheduler.schedule_eq (s := ticked) hnonnull rsp
  exact ⟨hcurrent, hprocess, hreturn, Scheduler.schedule_next ticked rsp,
    (Scheduler.schedule_kept ticked rsp).1⟩

/-- When the interrupt is allowed the next process is not half-built. -/
theorem Inv.next_ne (hinv : Inv s) (hallowed : s.TickAllowed) (hcall : s.call = some c)
    (hwindow : c.inWindow) : s.scheduler.next s.scheduler.currentProcess ≠ c.task := by
  obtain ⟨l, hring, hperm⟩ := hinv.ring
  obtain ⟨hnext, -, -⟩ := (hinv.callInv c hcall).window hwindow
  rw [← hnext]
  intro hsame
  have heq := hring.next_injective (hperm.symm.subset hinv.current_mem) hring.mem hsame
  exact hallowed c hcall hwindow heq

theorem Inv.tick (hinv : Inv s) (hallowed : s.TickAllowed) (rsp : ℕ) : Inv (s.tick rsp) := by
  obtain ⟨hcurrent, hprocess, -, hnext, hlist⟩ := tick_eq hinv rsp
  obtain ⟨l, hring, hperm⟩ := hinv.ring
  refine ⟨⟨l, ?_, hperm⟩, ?_, hinv.null, fun p hp hne hother => ?_, fun c hc => ?_⟩
  · rw [hlist]
    exact hring.congr fun q _ => hnext q
  · rw [hcurrent]
    exact hperm.subset (hring.next_mem (hperm.symm.subset hinv.current_mem))
  · rw [hprocess]
    change Function.update s.stored s.scheduler.currentProcess (some rsp) p = _
    rw [Function.update_apply]
    split
    next => rfl
    next hp' => exact hinv.stored_eq p hp hp' hother
  · obtain ⟨hlt, hnull, hlocal, hfresh, hcopied, hwindow, hunstored⟩ := hinv.callInv c hc
    refine ⟨hlt, hnull, hlocal, hfresh, fun h => ?_, fun h => ?_, fun h => ?_⟩
    · rw [hnext, hnext, hlist]
      exact hcopied h
    · obtain ⟨hhead, hmem, -⟩ := hwindow h
      rw [hnext, hlist, hcurrent]
      exact ⟨hhead, hmem, hinv.next_ne hallowed hc h⟩
    · change Function.update s.stored s.scheduler.currentProcess (some rsp) c.task = _
      rw [Function.update_of_ne ((hinv.callInv c hc).current_ne hinv.current_mem h).symm,
        hunstored h]

/-! ## Statements -/

/-- A statement by its position. -/
theorem statement?_cases {statement : Statement} (h : c.statement? = some statement) :
    c.done < 30 ∧ (c.done = 0 ∧ statement = .newTask c.task ∨ c.done = 1 ∧ statement = .pid ∨
      c.done = 2 ∧ statement = .pageDirectory ∨ c.done = 3 ∧ statement = .next ∨
      c.done = 4 ∧ statement = .link ∨
      (5 ≤ c.done ∧ c.done ≤ 27) ∧ statement ∈ Statement.prepareStack c.frame ∨
      c.done = 28 ∧ statement = .rsp ∨ c.done = 29 ∧ statement = .printf) := by
  have hlength : (createKernelThread c.task c.frame).length = 30 := rfl
  have hprepared : (Statement.linkTask c.task ++ Statement.prepareStack c.frame).length = 28 := rfl
  have hlinked : (Statement.linkTask c.task).length = 5 := rfl
  have hlt : c.done < 30 := hlength ▸ (List.getElem?_eq_some_iff.mp h).1
  refine ⟨hlt, ?_⟩
  unfold ActiveCall.statement? createKernelThread at h
  rcases Nat.lt_or_ge c.done 28 with hprepare | hset
  · rw [List.getElem?_append_left (by rwa [hprepared])] at h
    rcases Nat.lt_or_ge c.done 5 with hbefore | hafter
    · rw [List.getElem?_append_left (by rwa [hlinked])] at h
      generalize c.done = done at *
      interval_cases done <;> obtain rfl := Option.some_injective _ h <;> simp
    · rw [List.getElem?_append_right (by rwa [hlinked])] at h
      have hmem := List.mem_of_getElem? h
      simp only [hmem, and_true]
      omega
  · rw [List.getElem?_append_right (by rwa [hprepared]), hprepared] at h
    generalize c.done = done at *
    interval_cases done <;> obtain rfl := Option.some_injective _ h <;> simp

theorem statement?_isSome (h : c.done < 29) (locals : ThreadCall) :
    ({ c with locals, done := c.done + 1 } : ActiveCall).statement?.isSome := by
  have hlength : (createKernelThread c.task c.frame).length = 30 := rfl
  unfold ActiveCall.statement?
  rw [List.getElem?_eq_getElem (by dsimp only; omega)]
  rfl

/-- The statements that prepare the stack change only local variables and the
memory of the stack. -/
theorem exec_prepareStack (s : CreationRun) {statement : Statement} (scheduler : Scheduler)
    (locals : ThreadCall) (h : statement ∈ Statement.prepareStack frame) :
    (statement.exec (scheduler, locals)).1 =
        { scheduler with mem := (statement.exec (scheduler, locals)).1.mem } ∧
      (statement.exec (scheduler, locals)).2.newTask = locals.newTask ∧
      s.record locals statement = s := by
  unfold Statement.prepareStack at h
  rcases List.mem_append.mp h with hfirst | hpush
  · simp only [List.mem_cons, List.not_mem_nil, or_false] at hfirst
    rcases hfirst with rfl | rfl | rfl <;> exact ⟨rfl, rfl, rfl⟩
  · obtain ⟨value, -, rfl⟩ := List.mem_map.mp hpush
    exact ⟨rfl, rfl, rfl⟩

/-- Once the process is linked only the window and its stack pointer matter. -/
theorem CallInv.of_linked (hdone : 5 ≤ c.done) (hlt : c.done < 30) (hne : c.task ≠ 0)
    (htask : c.locals.newTask = c.task)
    (hwindow : c.done ≤ 28 → s.scheduler.next s.scheduler.processList = c.task ∧
      c.task ∈ s.linked ∧ s.scheduler.currentProcess ≠ c.task)
    (hunstored : c.done ≤ 28 → s.stored c.task = none) : CallInv s c := by
  refine ⟨hlt, hne, fun _ => htask, fun h => ?_, fun h => ?_, fun h => hwindow h.2, hunstored⟩
  · omega
  · omega

/-- A step that leaves the linked processes and the history alone. -/
theorem Inv.congr (hinv : Inv s) (hlinked : s'.linked = s.linked) (hstored : s'.stored = s.stored)
    (hcurrent : s'.scheduler.currentProcess = s.scheduler.currentProcess)
    (hlist : s'.scheduler.processList = s.scheduler.processList)
    (hprocess : ∀ q ∈ s.linked, s'.scheduler.process q = s.scheduler.process q)
    (hwindow : ∀ c, s.call = some c → c.inWindow →
      ∃ c', s'.call = some c' ∧ c'.inWindow ∧ c'.task = c.task)
    (hcall : ∀ c, s'.call = some c → CallInv s' c) : Inv s' := by
  obtain ⟨l, hring, hperm⟩ := hinv.ring
  refine ⟨⟨l, ?_, hlinked ▸ hperm⟩, ?_, hlinked ▸ hinv.null, fun p hp hne hother => ?_, hcall⟩
  · rw [hlist]
    exact hring.congr fun q hq => congrArg Process.next (hprocess q (hperm.subset hq))
  · rw [hcurrent, hlinked]
    exact hinv.current_mem
  · rw [hlinked] at hp
    rw [hcurrent] at hne
    rw [hstored, hprocess p hp]
    apply hinv.stored_eq p hp hne
    intro c hc hin
    obtain ⟨c', hc', hin', htask⟩ := hwindow c hc hin
    rw [← htask]
    exact hother c' hc' hin'

/-- The call after a statement, if it goes on. -/
theorem execute_call {statement : Statement} {c' : ActiveCall}
    (h : (s.execute c statement).call = some c') :
    c' = { c with locals := (statement.exec (s.scheduler, c.locals)).2, done := c.done + 1 } ∧
      c.done + 1 < 30 := by
  unfold execute at h
  dsimp only at h
  split at h
  next hmore =>
    refine ⟨(Option.some_injective _ h).symm, ?_⟩
    have hlength : (createKernelThread c.task c.frame).length = 30 := rfl
    obtain ⟨statement', hnext⟩ := Option.isSome_iff_exists.mp hmore
    exact hlength ▸ (List.getElem?_eq_some_iff.mp hnext).1
  next => cases h

theorem execute_call_of_lt (s : CreationRun) (statement : Statement) (h : c.done < 29) :
    (s.execute c statement).call =
      some { c with locals := (statement.exec (s.scheduler, c.locals)).2, done := c.done + 1 } := by
  unfold execute
  dsimp only
  rw [if_pos (statement?_isSome h _)]

/-- A statement that neither links a process nor stores a stack pointer. -/
theorem execute_of_record {statement : Statement} (hrecord : s.record c.locals statement = s) :
    (s.execute c statement).linked = s.linked ∧ (s.execute c statement).stored = s.stored := by
  unfold execute
  rw [hrecord]
  exact ⟨rfl, rfl⟩

theorem Inv.execute_newTask (hinv : Inv s) (hc : s.call = some c) (hdone : c.done = 0) :
    Inv (s.execute c (.newTask c.task)) := by
  have hcall := hinv.callInv c hc
  refine hinv.congr rfl rfl rfl rfl (fun _ _ => rfl) (fun c₁ hc₁ hin => ?_) fun c' hc' => ?_
  · obtain rfl := Option.some_injective _ (hc₁.symm.trans hc)
    exact absurd hin.1 (by omega)
  · obtain ⟨rfl, hlt⟩ := execute_call hc'
    refine ⟨hlt, hcall.task_ne, fun _ => rfl, fun _ => hcall.fresh (by omega), fun h => ?_,
      fun h => absurd h.1 ?_, fun _ => hcall.unstored (by omega)⟩ <;> dsimp only at * <;> omega

/-- A statement that sets fields of the new process before it is linked. -/
theorem Inv.execute_modify (hinv : Inv s) (hc : s.call = some c) (hlo : 1 ≤ c.done)
    (hhi : c.done < 4) {statement : Statement} {f : Process → Process} (nextPid : ℤ)
    (hexec : statement.exec (s.scheduler, c.locals) =
      ({ s.scheduler.modify c.locals.newTask f with nextPid }, c.locals))
    (hrecord : s.record c.locals statement = s)
    (hnext : c.done = 3 → (f (s.scheduler.process c.task)).next =
      s.scheduler.next s.scheduler.processList) : Inv (s.execute c statement) := by
  have hcall := hinv.callInv c hc
  have htask := hcall.newTask_eq hlo
  have hfresh := hcall.fresh (by omega)
  obtain ⟨l, hring, hperm⟩ := hinv.ring
  obtain ⟨hlinked, hstored⟩ := execute_of_record hrecord
  have hscheduler : (s.execute c statement).scheduler =
      { s.scheduler.modify c.task f with nextPid } := by
    unfold execute
    rw [hexec, htask]
  -- The new record is in no list yet, so the listed threads are as before.
  have hother : ∀ q ∈ s.linked, (s.execute c statement).scheduler.process q =
      s.scheduler.process q := by
    intro q hq
    rw [hscheduler]
    exact Scheduler.modify_of_ne fun h => hfresh (h ▸ hq)
  have hlist : (s.execute c statement).scheduler.processList = s.scheduler.processList := by
    rw [hscheduler]
    rfl
  refine hinv.congr hlinked hstored (by rw [hscheduler]; rfl) hlist hother
    (fun c₁ hc₁ hin => ?_) fun c' hc' => ?_
  · obtain rfl := Option.some_injective _ (hc₁.symm.trans hc)
    exact absurd hin.1 (by omega)
  · obtain ⟨rfl, hlt⟩ := execute_call hc'
    refine ⟨hlt, hcall.task_ne, fun _ => ?_, fun _ => ?_, fun h => ?_, fun h => absurd h.1 ?_,
      fun _ => ?_⟩
    · rw [hexec]
      exact htask
    · rw [hlinked]
      exact hfresh
    · have hthree : c.done = 3 := Nat.succ_injective h
      rw [hlist]
      unfold Scheduler.next
      rw [hother _ (hperm.subset hring.mem), hscheduler]
      dsimp only
      rw [Scheduler.modify_self]
      exact hnext hthree
    · dsimp only
      omega
    · rw [hstored]
      exact hcall.unstored (by omega)

theorem Inv.execute_link (hinv : Inv s) (hc : s.call = some c) (hdone : c.done = 4) :
    Inv (s.execute c .link) := by
  have hcall := hinv.callInv c hc
  have htask : c.locals.newTask = c.task := hcall.newTask_eq (by omega)
  have hfresh := hcall.fresh (by omega)
  obtain ⟨l, hring, hperm⟩ := hinv.ring
  obtain ⟨tail, rfl⟩ := hring.exists_eq_cons
  have hlinked : (s.execute c .link).linked = s.linked ++ [c.task] := by
    rw [← htask]
    rfl
  have hscheduler : (s.execute c .link).scheduler =
      s.scheduler.modify s.scheduler.processList fun process =>
        { process with next := c.task } := by
    rw [← htask]
    rfl
  have hstored : (s.execute c .link).stored = s.stored := rfl
  have hhead : (s.execute c .link).scheduler.next s.scheduler.processList = c.task := by
    rw [hscheduler, Scheduler.next, Scheduler.modify_self]
  have hother : ∀ q ≠ s.scheduler.processList, (s.execute c .link).scheduler.process q =
      s.scheduler.process q := by
    intro q hq
    rw [hscheduler]
    exact Scheduler.modify_of_ne hq
  have hrsp : ∀ q, ((s.execute c .link).scheduler.process q).rsp = (s.scheduler.process q).rsp := by
    intro q
    by_cases hq : q = s.scheduler.processList
    · rw [hscheduler, hq, Scheduler.modify_self]
    · rw [hother q hq]
  have hlist : (s.execute c .link).scheduler.processList = s.scheduler.processList := by
    rw [hscheduler]
    rfl
  have hcurrent : (s.execute c .link).scheduler.currentProcess = s.scheduler.currentProcess := by
    rw [hscheduler]
    rfl
  have hcall' := execute_call_of_lt s .link (show c.done < 29 by omega)
  have hne : c.task ≠ s.scheduler.processList := fun h =>
    hfresh (h ▸ hperm.subset List.mem_cons_self)
  refine ⟨⟨s.scheduler.processList :: c.task :: tail, ?_, ?_⟩, ?_, ?_, fun p hp hne' hnot => ?_,
    fun c' hc' => ?_⟩
  -- The new thread comes second; the statement before this one stored its `next`.
  · rw [hlist]
    refine hring.insert (fun h => hfresh (hperm.subset h)) hhead ?_ fun q hq => ?_
    · rw [← hcall.next_eq hdone]
      exact congrArg Process.next (hother _ hne)
    · refine congrArg Process.next (hother q ?_)
      rintro rfl
      exact (List.nodup_cons.mp hring.nodup).1 hq
  · rw [hlinked]
    have hswap := ((List.perm_append_singleton c.task tail).symm).cons s.scheduler.processList
    exact hswap.trans (hperm.append_right [c.task])
  · rw [hcurrent, hlinked]
    exact List.mem_append_left _ hinv.current_mem
  · rw [hlinked, List.mem_append, List.mem_singleton]
    exact not_or.mpr ⟨hinv.null, hcall.task_ne.symm⟩
  -- Here the window opens: the new thread is listed, its stack pointer is not stored.
  · have hp' : p ∈ s.linked := by
      rw [hlinked, List.mem_append, List.mem_singleton] at hp
      have hwindow : 5 ≤ c.done + 1 ∧ c.done + 1 ≤ 28 := by omega
      have hnew := hnot _ hcall' hwindow
      exact hp.resolve_right hnew
    rw [hcurrent] at hne'
    rw [hstored, hrsp]
    refine hinv.stored_eq p hp' hne' fun c₁ hc₁ hin => ?_
    obtain rfl := Option.some_injective _ (hc₁.symm.trans hc)
    exact absurd hin.1 (by omega)
  · obtain ⟨rfl, hlt⟩ := execute_call hc'
    refine .of_linked (show 5 ≤ c.done + 1 by omega) hlt hcall.task_ne htask
      (fun _ => ⟨?_, ?_, ?_⟩) fun _ => hcall.unstored (by omega)
    · rw [hlist]
      exact hhead
    · rw [hlinked]
      exact List.mem_append_right _ (List.mem_singleton_self _)
    · rw [hcurrent]
      exact hcall.current_ne hinv.current_mem (by omega)

theorem Inv.execute_prepare (hinv : Inv s) (hc : s.call = some c)
    (hdone : 5 ≤ c.done ∧ c.done ≤ 27) {statement : Statement}
    (hstatement : statement ∈ Statement.prepareStack c.frame) :
    Inv (s.execute c statement) := by
  have hcall := hinv.callInv c hc
  obtain ⟨hexec, hlocal, hrecord⟩ :=
    exec_prepareStack s s.scheduler c.locals hstatement
  obtain ⟨hhead, hmem, hcurrent⟩ := hcall.window ⟨hdone.1, by omega⟩
  obtain ⟨hlinked, hstored⟩ := execute_of_record hrecord
  have hscheduler : (s.execute c statement).scheduler =
      { s.scheduler with mem := (statement.exec (s.scheduler, c.locals)).1.mem } := hexec
  have hcall' := execute_call_of_lt s statement (show c.done < 29 by omega)
  refine hinv.congr hlinked hstored (by rw [hscheduler]) (by rw [hscheduler])
    (fun q _ => by rw [hscheduler]) (fun c₁ hc₁ _ => ?_) fun c' hc' => ?_
  · obtain rfl := Option.some_injective _ (hc₁.symm.trans hc)
    refine ⟨_, hcall', ⟨?_, ?_⟩, rfl⟩ <;> dsimp only <;> omega
  · obtain ⟨rfl, hlt⟩ := execute_call hc'
    refine .of_linked (show 5 ≤ c.done + 1 by omega) hlt hcall.task_ne ?_ (fun _ => ?_) fun _ => ?_
    · exact hlocal.trans (hcall.newTask_eq (by omega))
    · rw [hlinked, hscheduler]
      exact ⟨hhead, hmem, hcurrent⟩
    · rw [hstored]
      exact hcall.unstored (by omega)

theorem Inv.execute_rsp (hinv : Inv s) (hc : s.call = some c) (hdone : c.done = 28) :
    Inv (s.execute c .rsp) := by
  have hcall := hinv.callInv c hc
  have htask : c.locals.newTask = c.task := hcall.newTask_eq (by omega)
  obtain ⟨hhead, hmem, hcurrent⟩ := hcall.window ⟨by omega, by omega⟩
  obtain ⟨l, hring, hperm⟩ := hinv.ring
  have hscheduler : (s.execute c .rsp).scheduler =
      s.scheduler.modify c.task fun process => { process with rsp := c.locals.stackTop } := by
    rw [← htask]
    rfl
  have hstored : (s.execute c .rsp).stored =
      Function.update s.stored c.task (some c.locals.stackTop) := by
    rw [← htask]
    rfl
  have hcurrent' : (s.execute c .rsp).scheduler.currentProcess = s.scheduler.currentProcess := by
    rw [hscheduler]
    rfl
  have hlinked : (s.execute c .rsp).linked = s.linked := rfl
  refine ⟨⟨l, ?_, hperm⟩, ?_, hinv.null, fun p hp hne _ => ?_, fun c' hc' => ?_⟩
  · rw [hscheduler]
    refine hring.congr fun q _ => ?_
    by_cases hq : q = c.task
    · rw [hq, Scheduler.next, Scheduler.modify_self]
      rfl
    · exact congrArg Process.next (Scheduler.modify_of_ne hq)
  · rw [hcurrent']
    exact hinv.current_mem
  · rw [hcurrent'] at hne
    rw [hstored, hscheduler]
    by_cases hp' : p = c.task
    · rw [hp', Function.update_self, Scheduler.modify_self]
    · rw [Function.update_of_ne hp', Scheduler.modify_of_ne hp']
      refine hinv.stored_eq p hp hne fun c₁ hc₁ _ => ?_
      obtain rfl := Option.some_injective _ (hc₁.symm.trans hc)
      exact hp'
  · obtain ⟨rfl, hlt⟩ := execute_call hc'
    -- The stored stack pointer closes the window.
    have hclosed : ¬ c.done + 1 ≤ 28 := by omega
    exact .of_linked (show 5 ≤ c.done + 1 by omega) hlt hcall.task_ne htask
      (fun h => absurd h hclosed) fun h => absurd h hclosed

theorem Inv.execute_printf (hinv : Inv s) (hc : s.call = some c) (hdone : c.done = 29) :
    Inv (s.execute c .printf) := by
  refine hinv.congr rfl rfl rfl rfl (fun _ _ => rfl) (fun c₁ hc₁ hin => ?_) fun c' hc' => ?_
  · obtain rfl := Option.some_injective _ (hc₁.symm.trans hc)
    exact absurd hin.2 (by omega)
  · obtain ⟨-, hlt⟩ := execute_call hc'
    omega

theorem Inv.execute (hinv : Inv s) (hc : s.call = some c) {statement : Statement}
    (hstatement : c.statement? = some statement) : Inv (s.execute c statement) := by
  obtain ⟨-, ⟨hdone, rfl⟩ | ⟨hdone, rfl⟩ | ⟨hdone, rfl⟩ | ⟨hdone, rfl⟩ | ⟨hdone, rfl⟩ |
    ⟨hdone, hmem⟩ | ⟨hdone, rfl⟩ | ⟨hdone, rfl⟩⟩ := statement?_cases hstatement
  · exact hinv.execute_newTask hc hdone
  · exact hinv.execute_modify hc (by omega) (by omega) _ rfl rfl fun h => by omega
  · exact hinv.execute_modify hc (by omega) (by omega) s.scheduler.nextPid
      (f := fun process => { process with
        pageDirectory := (s.scheduler.process s.scheduler.currentProcess).pageDirectory })
      rfl rfl fun h => by omega
  · exact hinv.execute_modify hc (by omega) (by omega) s.scheduler.nextPid
      (f := fun process => { process with
        next := (s.scheduler.process s.scheduler.processList).next })
      rfl rfl fun _ => rfl
  · exact hinv.execute_link hc hdone
  · exact hinv.execute_prepare hc hdone hmem
  · exact hinv.execute_rsp hc hdone
  · exact hinv.execute_printf hc hdone

theorem step_inv {event : CreationEvent} (hstep : Step s event s') (hinv : Inv s) : Inv s' := by
  cases hstep with
  | begin hidle hnull hfresh => exact hinv.begin hidle hnull hfresh
  | statement hcall hstatement => exact hinv.execute hcall hstatement
  | tick hallowed => exact hinv.tick hallowed _

/-! ## What a timer interrupt returns -/

/-- A timer interrupt returns a stored stack pointer unless it finds the first
process current while a new one is half-built. -/
theorem Inv.returnsStored_iff (hinv : Inv s) (rsp : ℕ) : s.ReturnsStored rsp ↔ s.TickAllowed := by
  obtain ⟨hcurrent, hprocess, hreturn, -, -⟩ := tick_eq hinv rsp
  have hstored : (s.tick rsp).stored =
      Function.update s.stored s.scheduler.currentProcess (some rsp) := rfl
  unfold ReturnsStored
  constructor
  · intro hreturns c hc hwindow hhead
    obtain ⟨hnext, -, hne⟩ := (hinv.callInv c hc).window hwindow
    rw [hstored, hcurrent, hhead, hnext, ← hhead, Function.update_of_ne hne.symm,
      (hinv.callInv c hc).unstored hwindow.2] at hreturns
    cases hreturns
  · intro hallowed
    have hinv' := hinv.tick hallowed rsp
    rw [hreturn, hstored, hcurrent, hprocess, Function.update_apply]
    split
    next => rfl
    next hother =>
      obtain ⟨l, hring, hperm⟩ := hinv.ring
      have hmem := hperm.subset (hring.next_mem (hperm.symm.subset hinv.current_mem))
      exact hinv.stored_eq _ hmem hother fun c hc hwindow => hinv.next_ne hallowed hc hwindow

/-- In every run in which no timer interrupt finds the first process of the ring
current while a new process is half-built, every timer interrupt returns a stack
pointer stored for the process it chooses; and in each state reached, a timer
interrupt does so only under that condition. -/
theorem run_returnsStored {events : List CreationEvent} {s₀ : CreationRun} (hstart : Start s₀)
    (hrun : Run Step s₀ events s) :
    (∀ rsp s', Step s (.tick rsp) s' → s.ReturnsStored rsp) ∧
      ∀ rsp, s.ReturnsStored rsp ↔ s.TickAllowed := by
  have hinv : Inv s :=
    hrun.invariant Inv hstart.inv fun _ _ _ hstep hinv => step_inv hstep hinv
  refine ⟨fun rsp s' hstep => ?_, hinv.returnsStored_iff⟩
  cases hstep with
  | tick hallowed => exact (hinv.returnsStored_iff rsp).mpr hallowed

/-- One process at address 16; elsewhere memory holds 0xDEAD for a stack pointer. -/
def lone : CreationRun where
  scheduler := (Scheduler.boot (fun _ => ⟨0, 0xDEAD, 0, 0⟩) (fun _ => 0)).multitaskingInitialize
    16 0x1000
  call := none
  linked := [16]
  stored := fun _ => none

theorem lone_start : Start lone := by
  have hinit : (SchedulerRun.init (fun _ => ⟨0, 0xDEAD, 0, 0⟩) (fun _ => 0) 16 0x1000).Inv :=
    SchedulerRun.init_inv (by decide)
  have hring := hinit.ring
  refine ⟨rfl, hring, List.mem_singleton_self 16, by decide, fun p hp hne => ?_⟩
  exact absurd (List.mem_singleton.mp hp) hne

/-- Two processes, the second one at address 48 current and the first one suspended. -/
def pair : CreationRun where
  scheduler := ((lone.scheduler.createThread 0x100 48 0x5000).schedule 0x8000).2
  call := none
  linked := [16, 48]
  stored := Function.update (fun _ => none) 16 (some 0x8000)

theorem pair_start : Start pair := by
  have hinit : (SchedulerRun.init (fun _ => ⟨0, 0xDEAD, 0, 0⟩) (fun _ => 0) 16 0x1000).Inv :=
    SchedulerRun.init_inv (by decide)
  have hpair : (((SchedulerRun.init (fun _ => ⟨0, 0xDEAD, 0, 0⟩) (fun _ => 0) 16 0x1000).create
      0x100 48 0x5000).schedule 0x8000).Inv :=
    (hinit.create (by decide) (by decide)).schedule 0x8000
  refine ⟨rfl, hpair.ring, by decide, by decide, fun p hp hne => ?_⟩
  obtain rfl | rfl : p = 16 ∨ p = 48 := by simpa [pair] using hp
  · rfl
  · exact absurd rfl hne

/-- A timer interrupt that finds the second process current while a third one is half-built
goes to the first one; from there the next one would go to the half-built process. -/
theorem pair_returnsStored : ∃ s s',
    Run Step pair (.begin 0x200 80 0x6000 :: List.replicate 5 .statement) s ∧
    Step s (.tick 0x9000) s' ∧ s.ReturnsStored 0x9000 ∧
    s'.scheduler.currentProcess = 16 ∧ ¬ s'.ReturnsStored 0xA000 := by
  obtain ⟨s, hrun, hcurrent, hlist, ⟨c, hcall, hwindow⟩, hcurrent', hlist'⟩ : ∃ s,
      Run Step pair (.begin 0x200 80 0x6000 :: List.replicate 5 .statement) s ∧
      s.scheduler.currentProcess = 48 ∧ s.scheduler.processList = 16 ∧
      (∃ c, s.call = some c ∧ c.inWindow) ∧
      (s.tick 0x9000).scheduler.currentProcess = 16 ∧
      (s.tick 0x9000).scheduler.processList = 16 :=
    ⟨_, .cons (.begin rfl (by decide) (by decide)) (.cons (.statement rfl rfl)
      (.cons (.statement rfl rfl) (.cons (.statement rfl rfl) (.cons (.statement rfl rfl)
        (.cons (.statement rfl rfl) (.nil _)))))), rfl, rfl, ⟨_, rfl, by decide, by decide⟩,
      rfl, rfl⟩
  have htick : Step s (.tick 0x9000) (s.tick 0x9000) := by
    refine .tick fun c hc hwindow => ?_
    rw [hcurrent, hlist]
    decide
  obtain ⟨hreturns, -⟩ := run_returnsStored pair_start hrun
  obtain ⟨-, hallowed⟩ := run_returnsStored pair_start (hrun.append (.cons htick (.nil _)))
  refine ⟨s, _, hrun, htick, hreturns _ _ htick, hcurrent', (hallowed 0xA000).not.mpr fun h => ?_⟩
  exact h c hcall hwindow (hcurrent'.trans hlist'.symm)

/-- A timer interrupt right after the new process is linked goes to it and returns
what its memory held. -/
theorem lone_halfBuilt : ∃ s, Start lone ∧
    Run Step lone (.begin 0x100 48 0x5000 :: List.replicate 5 .statement) s ∧
    (s.tick 0x8000).scheduler.currentProcess = 48 ∧
    (s.scheduler.irq0Handler 0x8000).1 = 0xDEAD ∧ (s.tick 0x8000).stored 48 = none ∧
    ¬ s.ReturnsStored 0x8000 := by
  have hrun : Run Step lone (.begin 0x100 48 0x5000 :: List.replicate 5 .statement) _ :=
    .cons (.begin rfl (by decide) (by decide)) (.cons (.statement rfl rfl)
      (.cons (.statement rfl rfl) (.cons (.statement rfl rfl) (.cons (.statement rfl rfl)
        (.cons (.statement rfl rfl) (.nil _))))))
  refine ⟨_, lone_start, hrun, rfl, rfl, rfl, ?_⟩
  unfold ReturnsStored
  decide

end CreationRun

end BadOS.Kernel
