import BadOS.Foundation.Execution
import BadOS.Foundation.PointerRing
import BadOS.Kernel.Process

/-! # The ring of processes

The processes form one ring, which creation extends after the first process and
which `schedule` follows, so that all processes take turns.
-/

namespace BadOS.Kernel

open Execution PointerRing

namespace Scheduler

variable {s : Scheduler} {p q rsp : ℕ}

/-- The successor of a process. -/
def next (s : Scheduler) (p : ℕ) : ℕ := (s.process p).next

/-- The variables when the kernel is started, over any contents of memory. -/
def boot (process : ℕ → Process) (mem : Memory) : Scheduler where
  process := process
  currentProcess := 0
  processList := 0
  nextPid := 1
  uptimeMs := 0
  mem := mem

/-- What `schedule` does when there is a current process: it stores the stack
pointer for it and goes to the next one. -/
theorem schedule_eq (hcurrent : s.currentProcess ≠ 0) (rsp : ℕ) :
    (s.schedule rsp).2.currentProcess = s.next s.currentProcess ∧
      (∀ q, (s.schedule rsp).2.process q =
        if q = s.currentProcess then { s.process q with rsp := rsp } else s.process q) ∧
      (s.schedule rsp).1 = ((s.schedule rsp).2.process (s.schedule rsp).2.currentProcess).rsp := by
  unfold schedule next
  rw [if_neg hcurrent]
  dsimp only
  rw [modify_currentProcess, modify_self]
  refine ⟨rfl, fun q => ?_, rfl⟩
  split
  next h => rw [h, modify_self]
  next h => exact modify_of_ne h

theorem schedule_next (s : Scheduler) (rsp p : ℕ) : (s.schedule rsp).2.next p = s.next p := by
  by_cases hcurrent : s.currentProcess = 0
  · unfold schedule
    rw [if_pos hcurrent]
  · obtain ⟨-, hprocess, -⟩ := schedule_eq hcurrent rsp
    unfold next
    rw [hprocess]
    split <;> rfl

theorem schedule_kept (s : Scheduler) (rsp : ℕ) :
    (s.schedule rsp).2.processList = s.processList ∧ (s.schedule rsp).2.nextPid = s.nextPid ∧
      ∀ p, ((s.schedule rsp).2.process p).pid = (s.process p).pid := by
  by_cases hcurrent : s.currentProcess = 0
  · unfold schedule
    rw [if_pos hcurrent]
    exact ⟨rfl, rfl, fun _ => rfl⟩
  · obtain ⟨-, hprocess, -⟩ := schedule_eq hcurrent rsp
    refine ⟨?_, ?_, fun p => ?_⟩
    · unfold schedule
      rw [if_neg hcurrent]
      rfl
    · unfold schedule
      rw [if_neg hcurrent]
      rfl
    · rw [hprocess]
      split <;> rfl

end Scheduler

/-- The scheduler with its history: the processes in the order of their creation
and the stack pointer last stored for each. -/
structure SchedulerRun where
  scheduler : Scheduler
  created : List ℕ
  stored : ℕ → ℕ

/-- A completed call. -/
inductive SchedulerEvent
  | create (function task frame : ℕ)
  | schedule (rsp : ℕ)

namespace SchedulerRun

/-- After `multitasking_initialize`. -/
def init (process : ℕ → Process) (mem : Memory) (p pageDir : ℕ) : SchedulerRun where
  scheduler := (Scheduler.boot process mem).multitaskingInitialize p pageDir
  created := [p]
  stored := fun _ => 0

def create (s : SchedulerRun) (function task frame : ℕ) : SchedulerRun where
  scheduler := s.scheduler.createThread function task frame
  created := s.created ++ [task]
  stored := Function.update s.stored task (initialRsp frame)

def schedule (s : SchedulerRun) (rsp : ℕ) : SchedulerRun where
  scheduler := (s.scheduler.schedule rsp).2
  created := s.created
  stored := Function.update s.stored s.scheduler.currentProcess rsp

/-- Creations, in which `kmalloc` returns a new address, and calls of `schedule`. -/
inductive Step (s : SchedulerRun) : SchedulerEvent → SchedulerRun → Prop
  | create {function task frame : ℕ} (hnull : task ≠ 0) (hfresh : task ∉ s.created) :
      Step s (.create function task frame) (s.create function task frame)
  | schedule {rsp : ℕ} : Step s (.schedule rsp) (s.schedule rsp)

structure Inv (s : SchedulerRun) : Prop where
  ring : ∃ l, IsRing s.scheduler.next s.scheduler.processList l ∧ l.Perm s.created
  current_mem : s.scheduler.currentProcess ∈ s.created
  null : 0 ∉ s.created
  pids : (s.created.map fun p => (s.scheduler.process p).pid) =
    (List.range s.created.length).map fun i : ℕ => CInt.toI32 i
  nextPid_eq : s.scheduler.nextPid = CInt.toI32 s.created.length
  rsp_eq : ∀ p ∈ s.created, (s.scheduler.process p).rsp = s.stored p

variable {s s' : SchedulerRun} {process : ℕ → Process} {mem : Memory}
variable {p pageDir function task frame rsp : ℕ} {event : SchedulerEvent}

theorem init_inv (hp : p ≠ 0) : Inv (init process mem p pageDir) := by
  have hprocess : (init process mem p pageDir).scheduler.process p = ⟨0, 0, pageDir, p⟩ :=
    Function.update_self _ _ _
  refine ⟨⟨[p], isRing_singleton ?_, List.Perm.refl _⟩, List.mem_singleton_self p, ?_, ?_, ?_, ?_⟩
  · exact congrArg Process.next hprocess
  · exact fun h => hp (List.mem_singleton.mp h).symm
  · change [((init process mem p pageDir).scheduler.process p).pid] = [CInt.toI32 (0 : ℕ)]
    rw [hprocess, CInt.toI32_natCast (by decide)]
    rfl
  · exact (CInt.toI32_natCast (n := 1) (by decide)).symm
  · intro q hq
    rw [List.mem_singleton.mp hq, hprocess]
    rfl

theorem Inv.create (hinv : Inv s) (hnull : task ≠ 0) (hfresh : task ∉ s.created) :
    Inv (s.create function task frame) := by
  obtain ⟨⟨l, hring, hperm⟩, hcurrent, hzero, hpids, hnext, hrsp⟩ := hinv
  have hlist : s.scheduler.processList ∈ s.created := hperm.subset hring.mem
  have hne : ∀ q ∈ s.created, q ≠ task := fun q hq h => hfresh (h ▸ hq)
  have hcreated : Created s.scheduler function task frame
      (s.scheduler.createThread function task frame) :=
    createThread_created (hne _ hcurrent).symm (hne _ hlist).symm
  have hold : ∀ q ∈ s.created,
      ((s.scheduler.createThread function task frame).process q).pid = (s.scheduler.process q).pid ∧
      ((s.scheduler.createThread function task frame).process q).rsp =
        (s.scheduler.process q).rsp := by
    intro q hq
    by_cases hhead : q = s.scheduler.processList
    · rw [hhead, hcreated.list_eq]
      exact ⟨rfl, rfl⟩
    · rw [hcreated.other_eq q (hne q hq) hhead]
      exact ⟨rfl, rfl⟩
  -- The new thread comes second in the ring but last in the order of creation.
  obtain ⟨tail, rfl⟩ := hring.exists_eq_cons
  refine ⟨⟨s.scheduler.processList :: task :: tail, ?_, ?_⟩, ?_, ?_, ?_, ?_, ?_⟩
  · have hprocessList : (s.create function task frame).scheduler.processList =
        s.scheduler.processList := hcreated.processList_eq
    rw [hprocessList]
    refine hring.insert (fun h => hfresh (hperm.subset h)) ?_ ?_ fun q hq => ?_
    · exact (congrArg Process.next hcreated.list_eq :)
    · exact (congrArg Process.next hcreated.task_eq :)
    · have hq' : q ∈ s.created := hperm.subset (List.mem_cons_of_mem _ hq)
      have hhead : q ≠ s.scheduler.processList := by
        rintro rfl
        exact (List.nodup_cons.mp hring.nodup).1 hq
      exact congrArg Process.next (hcreated.other_eq q (hne q hq') hhead)
  · have hswap : (s.scheduler.processList :: task :: tail).Perm
        ((s.scheduler.processList :: tail) ++ [task]) :=
      ((List.perm_append_singleton task tail).symm).cons _
    exact hswap.trans (hperm.append_right [task])
  · change (s.scheduler.createThread function task frame).currentProcess ∈ _
    rw [hcreated.currentProcess_eq]
    exact List.mem_append_left _ hcurrent
  · intro hmem
    rcases List.mem_append.mp hmem with hmem | hmem
    · exact hzero hmem
    · exact hnull (List.mem_singleton.mp hmem).symm
  · unfold SchedulerRun.create
    dsimp only
    rw [List.map_append, List.map_singleton, hcreated.task_eq, hnext, List.length_append,
      List.length_singleton, List.range_succ, List.map_append, List.map_singleton, ← hpids]
    congr 1
    exact List.map_congr_left fun q hq => (hold q hq).1
  · unfold SchedulerRun.create
    dsimp only
    rw [hcreated.nextPid_eq, hnext, CInt.toI32_toI32_add, List.length_append,
      List.length_singleton, Nat.cast_add, Nat.cast_one]
  · intro q hq
    unfold SchedulerRun.create
    dsimp only
    rcases List.mem_append.mp hq with hq | hq
    · rw [(hold q hq).2, Function.update_of_ne (hne q hq), hrsp q hq]
    · rw [List.mem_singleton.mp hq, hcreated.task_eq, Function.update_self]

theorem Inv.schedule (hinv : Inv s) (rsp : ℕ) : Inv (s.schedule rsp) := by
  obtain ⟨⟨l, hring, hperm⟩, hcurrent, hzero, hpids, hnext, hrsp⟩ := hinv
  have hnonnull : s.scheduler.currentProcess ≠ 0 := fun h => hzero (h ▸ hcurrent)
  obtain ⟨hcurrent', hprocess, -⟩ := Scheduler.schedule_eq hnonnull rsp
  obtain ⟨hlist, hpid, hpids'⟩ := Scheduler.schedule_kept s.scheduler rsp
  refine ⟨⟨l, ?_, hperm⟩, ?_, hzero, ?_, hpid.trans hnext, ?_⟩
  · unfold SchedulerRun.schedule
    dsimp only
    rw [hlist]
    exact hring.congr fun q _ => Scheduler.schedule_next s.scheduler rsp q
  · unfold SchedulerRun.schedule
    dsimp only
    rw [hcurrent']
    exact hperm.subset (hring.next_mem (hperm.symm.subset hcurrent))
  · unfold SchedulerRun.schedule
    dsimp only
    rw [← hpids]
    exact List.map_congr_left fun q _ => hpids' q
  · intro q hq
    unfold SchedulerRun.schedule
    dsimp only
    rw [hprocess, Function.update_apply]
    split
    · rfl
    · exact hrsp q hq

theorem step_inv (hstep : Step s event s') (hinv : Inv s) : Inv s' := by
  cases hstep with
  | create hnull hfresh => exact hinv.create hnull hfresh
  | schedule => exact hinv.schedule _

/-! ## Turns -/

/-- `n` calls of `schedule` with the given stack pointers. -/
def scheduleTimes (s : SchedulerRun) (rsps : ℕ → ℕ) : ℕ → SchedulerRun
  | 0 => s
  | n + 1 => (s.scheduleTimes rsps n).schedule (rsps n)

theorem scheduleTimes_inv (hinv : Inv s) (rsps : ℕ → ℕ) (n : ℕ) :
    Inv (s.scheduleTimes rsps n) := by
  induction n with
  | zero => exact hinv
  | succ n ih => exact ih.schedule _

/-- `schedule` goes around the ring. -/
theorem scheduleTimes_current (hinv : Inv s) (rsps : ℕ → ℕ) (n : ℕ) :
    (∀ q, (s.scheduleTimes rsps n).scheduler.next q = s.scheduler.next q) ∧
      (s.scheduleTimes rsps n).scheduler.currentProcess =
        s.scheduler.next^[n] s.scheduler.currentProcess := by
  induction n with
  | zero => exact ⟨fun _ => rfl, rfl⟩
  | succ n ih =>
      obtain ⟨hnext, hcurrent⟩ := ih
      have hinv' := scheduleTimes_inv hinv rsps n
      have hnonnull : (s.scheduleTimes rsps n).scheduler.currentProcess ≠ 0 :=
        fun h => hinv'.null (h ▸ hinv'.current_mem)
      obtain ⟨hcurrent', -, -⟩ := Scheduler.schedule_eq hnonnull (rsps n)
      refine ⟨fun q => (Scheduler.schedule_next _ _ q).trans (hnext q), hcurrent'.trans ?_⟩
      rw [hnext, hcurrent, Function.iterate_succ_apply']

theorem Inv.turns (hinv : Inv s) (rsps : ℕ → ℕ) {q : ℕ} (hq : q ∈ s.created) :
    ∃! k, k < s.created.length ∧
      (s.scheduleTimes rsps (k + 1)).scheduler.currentProcess = q := by
  obtain ⟨l, hring, hperm⟩ := hinv.ring
  obtain ⟨l', hring', hperm'⟩ := hring.of_mem (hperm.symm.subset hinv.current_mem)
  have hall := hperm'.trans hperm
  have hunique := hring'.existsUnique_iterate (hall.symm.subset hq)
  rw [hall.length_eq] at hunique
  simpa only [scheduleTimes_current hinv] using hunique

theorem Inv.pids_nodup (hinv : Inv s) (hcount : s.created.length ≤ 2 ^ 31) :
    (s.created.map fun p => (s.scheduler.process p).pid).Nodup := by
  rw [hinv.pids]
  refine List.Nodup.map_on (fun i hi j hj hsame => ?_) List.nodup_range
  rw [List.mem_range] at hi hj
  rw [CInt.toI32_natCast (by omega), CInt.toI32_natCast (by omega)] at hsame
  exact Int.ofNat_inj.mp hsame

/-- In every run of creations and calls of `schedule`: the ring from `process_list`
visits every process once, the current process is one of them, and the pids of
fewer than `2 ^ 31` threads are distinct; a call of `schedule` changes the stored
stack pointer of the outgoing process only and returns the one last stored for
the incoming process; and in as many calls as there are processes each becomes
current exactly once. -/
theorem run_ring {events : List SchedulerEvent} (hp : p ≠ 0)
    (hrun : Run Step (init process mem p pageDir) events s) :
    (∃ l, IsRing s.scheduler.next s.scheduler.processList l ∧ l.Perm s.created) ∧
      s.scheduler.currentProcess ∈ s.created ∧
      (s.created.length ≤ 2 ^ 31 →
        (s.created.map fun p => (s.scheduler.process p).pid).Nodup) ∧
      (∀ rsp, (∀ q, (s.scheduler.schedule rsp).2.process q =
          if q = s.scheduler.currentProcess then { s.scheduler.process q with rsp := rsp }
          else s.scheduler.process q) ∧
        (s.scheduler.schedule rsp).2.currentProcess =
          s.scheduler.next s.scheduler.currentProcess ∧
        (s.scheduler.schedule rsp).1 =
          (s.schedule rsp).stored (s.scheduler.schedule rsp).2.currentProcess) ∧
      ∀ rsps, ∀ q ∈ s.created, ∃! k, k < s.created.length ∧
        (s.scheduleTimes rsps (k + 1)).scheduler.currentProcess = q := by
  have hinv : Inv s := hrun.invariant Inv (init_inv hp) fun _ _ _ hstep hinv => step_inv hstep hinv
  refine ⟨hinv.ring, hinv.current_mem, hinv.pids_nodup, fun rsp => ?_,
    fun rsps q hq => hinv.turns rsps hq⟩
  have hnonnull : s.scheduler.currentProcess ≠ 0 := fun h => hinv.null (h ▸ hinv.current_mem)
  obtain ⟨hcurrent, hprocess, hreturn⟩ := Scheduler.schedule_eq hnonnull rsp
  have hinv' := hinv.schedule rsp
  exact ⟨hprocess, hcurrent, hreturn.trans (hinv'.rsp_eq _ hinv'.current_mem)⟩

theorem twoThreads_ring : ∃ s, Run Step (init (fun _ => ⟨0, 0, 0, 0⟩) (fun _ => 0) 16 0x1000)
      [.create 0x100 48 0x5000, .schedule 0x8000, .create 0x200 80 0x6000] s ∧
    s.created = [16, 48, 80] ∧ (s.created.map fun p => (s.scheduler.process p).pid).Nodup ∧
    ∀ rsps, ∀ q ∈ s.created, ∃! k, k < 3 ∧
      (s.scheduleTimes rsps (k + 1)).scheduler.currentProcess = q := by
  have hrun : Run Step (init (fun _ => ⟨0, 0, 0, 0⟩) (fun _ => 0) 16 0x1000)
      [.create 0x100 48 0x5000, .schedule 0x8000, .create 0x200 80 0x6000] _ :=
    .cons (.create (by decide) (by decide)) (.cons .schedule
      (.cons (.create (by decide) (by decide)) (.nil _)))
  obtain ⟨-, -, hpids, -, hturns⟩ := run_ring (by decide) hrun
  exact ⟨_, hrun, rfl, hpids (by decide), hturns⟩

end SchedulerRun

end BadOS.Kernel
