import BadOS.Foundation.Execution
import BadOS.Kernel.Pic
import BadOS.Kernel.Process

/-! # Interrupts and the uptime

The lines of the chips go up and down at any time, also while the boot programs them; the
processor takes an interrupt when it has them enabled. Every request is served once, is lost
because its line falls first, or waits, and the uptime counts the timer's that are served.
-/

namespace BadOS.Kernel

open Execution

/-! ## Runs -/

/-- What the processor does: it runs code outside the handlers of the chips' interrupts,
acknowledges a request that it has seen, runs the handler of a vector, which has sent its EOI
or not, or stays in `isr13_handler` after a vector without a gate. -/
inductive Processor
  | code (enabled : Bool)
  | acknowledging
  | handler (v : ℕ) (sent : Bool)
  | stopped (v : ℕ)
deriving DecidableEq

/-- Of the vectors of the chips `idt` has gates for two; any other one is a general-protection
fault, whose handler halts for good. -/
def Processor.enter (v : ℕ) : Processor := if v = 32 ∨ v = 33 then .handler v false else .stopped v

/-- The writes still to come, the chips, the processor, the kernel's variables, and as history
since the last write of the boot the clocks of the timer, how often each line went up, how many
of these requests were lost because it fell again, and the interrupts taken. -/
structure IrqRun where
  todo : List (ℕ × ℕ)
  pics : Pics
  pit : Pit
  cpu : Processor
  scheduler : Scheduler
  clocks : ℕ
  raised : Fin 16 → ℕ
  lost : Fin 16 → ℕ
  served : ℕ → ℕ

inductive IrqEvent
  | write
  | clock
  | line (n : Fin 16) (high : Bool)
  | code (scheduler : Scheduler) (enabled : Bool)
  | interrupt
  | accept
  | timer (rsp : ℕ)
  | keyboard
  | iretq

namespace IrqRun

/-- The boot begins to program the chips. -/
def start (pics : Pics) (pit : Pit) (scheduler : Scheduler) : IrqRun where
  todo := bootWrites
  pics := pics
  pit := pit
  cpu := .code false
  scheduler := scheduler
  clocks := 0
  raised := fun _ => 0
  lost := fun _ => 0
  served := fun _ => 0

/-- A line gets a level. -/
def line (s : IrqRun) (n : Fin 16) (high : Bool) : IrqRun :=
  { s with
    pics := s.pics.drive n high
    raised := Function.update s.raised n
      (s.raised n + (high && decide (s.pics.line n = .low)).toNat)
    lost := Function.update s.lost n (s.lost n + (!high && s.pics.waiting n).toNat) }

/-- Line 0 is the output of the timer. -/
def follow (s : IrqRun) : IrqRun :=
  match s.pit.out with
  | none => s
  | some high => s.line 0 high

/-- A write of the boot. The history begins anew, with the requests that wait then. -/
def write (s : IrqRun) (write : ℕ × ℕ) (todo : List (ℕ × ℕ)) : IrqRun :=
  let s := { s with todo, pics := s.pics.outb write, pit := s.pit.outb write }.follow
  { s with
    clocks := 0
    raised := fun n => (s.pics.waiting n).toNat
    lost := fun _ => 0
    served := fun _ => 0 }

/-- A clock of the timer. -/
def clock (s : IrqRun) : IrqRun := { s with pit := s.pit.clock, clocks := s.clocks + 1 }.follow

/-- The processor takes interrupt `v`. -/
def accept (s : IrqRun) (v : ℕ) (pics : Pics) : IrqRun :=
  { s with pics, cpu := .enter v, served := Function.update s.served v (s.served v + 1) }

/-- `outb(0x20, 0x20)` in the handler of `v`. -/
def eoi (s : IrqRun) (v : ℕ) : IrqRun :=
  { s with pics := s.pics.outb (0x20, 0x20), cpu := .handler v true }

/-- What happens next; `none` if it cannot. Code outside the handlers leaves the uptime alone
and interrupts off until the boot is over; `isr33_handler` sends its EOI on all of its paths.
Line 0 is the timer's once its mode is set, and no device is on line 2. A line may fall between
the moment the processor sees the request and its acknowledge. -/
def step (s : IrqRun) : IrqEvent → Option IrqRun
  | .write =>
      match s.todo with
      | [] => none
      | write :: todo => some (s.write write todo)
  | .clock => some s.clock
  | .line n high => if n = 2 ∨ n = 0 ∧ s.pit ≠ .found then none else some (s.line n high)
  | .code scheduler enabled =>
      match s.cpu with
      | .code _ =>
          if scheduler.uptimeMs = s.scheduler.uptimeMs ∧ (enabled = true → s.todo = []) then
            some { s with scheduler, cpu := .code enabled }
          else none
      | _ => none
  | .interrupt =>
      if s.cpu = .code true ∧ s.pics.acknowledge.isSome then some { s with cpu := .acknowledging }
      else none
  | .accept =>
      if s.cpu = .acknowledging then
        match s.pics.acknowledge with
        | some (v, pics) => some (s.accept v pics)
        | none => some { s with cpu := .enter s.pics.spurious }
      else none
  | .timer rsp =>
      if s.cpu = .handler 32 false then
        some { s.eoi 32 with scheduler := (s.scheduler.irq0Handler rsp).2 }
      else none
  | .keyboard => if s.cpu = .handler 33 false then some (s.eoi 33) else none
  | .iretq =>
      match s.cpu with
      | .handler _ true => some { s with cpu := .code true }
      | _ => none

abbrev Step (s : IrqRun) (event : IrqEvent) (s' : IrqRun) : Prop := s.step event = some s'

/-! ## The account -/

/-- 1 if the handler of `v` runs and has not sent its EOI. -/
def inHandler (s : IrqRun) (v : ℕ) : ℕ := (decide (s.cpu = .handler v false)).toNat

/-- Only requests of the timer and the keyboard are served; every request is served itself,
lost or waits; and the uptime counts the interrupts of the timer that are handled. -/
structure Balanced (s : IrqRun) : Prop where
  vectors : ∀ v, v ≠ 32 → v ≠ 33 → s.served v = 0
  requests : ∀ n : Fin 16, n ≠ 2 →
    s.raised n = s.served (32 + n) + s.lost n + (s.pics.waiting n).toNat
  uptime : ∃ handled, s.served 32 = handled + s.inHandler 32 ∧
    s.scheduler.uptimeMs = 10 * handled % 2 ^ 64

/-- Nothing of the kernel changes any more. -/
def Halted (s : IrqRun) : Prop :=
  ∀ event s', Step s event s' →
    s'.cpu = s.cpu ∧ s'.scheduler = s.scheduler ∧ s'.served = s.served

/-- Moreover a request of the two is served as soon as interrupts are on, the timer's first;
any other vector is the 39 of a request that was lost while the processor acknowledged it, and
halts the kernel; and the timer asks every 11931 clocks. -/
structure Accounts (s : IrqRun) : Prop extends Balanced s where
  prompt : s.cpu = .code true → s.pics.waiting 0 = true ∨ s.pics.waiting 1 = true →
    ∃ s', Run Step s [.interrupt, .accept] s' ∧
      s'.cpu = .handler (if s.pics.waiting 0 then 32 else 33) false
  spurious : ∀ v, s.cpu = .stopped v → v = 39 ∧ 0 < s.lost 0 + s.lost 1 ∧ s.Halted
  ticks : ∃ first ≤ 1, s.raised 0 = first + (s.clocks - 1) / 11931

/-! ## The boot -/

/-- How the timer stands between the writes of the boot. -/
inductive PitBoot : List (ℕ × ℕ) → Pit → Prop
  | remap {before : List (ℕ × ℕ)} {t : Pit}
      (hbefore : ∀ write ∈ before, write.1 ≠ 0x43 ∧ write.1 ≠ 0x40) :
      PitBoot (before ++ pitInitialize 100) t
  | low : PitBoot [(0x40, 0x9B), (0x40, 0x2E)] .mode3
  | high : PitBoot [(0x40, 0x2E)] (.lowByte 0x9B)

/-- The timer `clocks` clocks after the boot has set it. -/
def runningPit (clocks : ℕ) : Pit :=
  if clocks = 0 then .loading 11931 else .counting 11931 ((clocks - 1) % 11931)

/-- Its output is up. -/
def up (clocks : ℕ) : Bool := decide ((clocks - 1) % 11931 < 5966)

/-- The boot still writes, and the writes to come set the chips up. -/
structure Booting (s : IrqRun) : Prop where
  todo : s.todo ≠ []
  cpu : s.cpu = .code false
  uptime : s.scheduler.uptimeMs = 0
  pics : (s.todo.foldl Pics.outb s.pics).forget =
    ⟨.programmed 32 0xFC fun _ => .low, .programmed 40 0xFF fun _ => .low⟩
  pit : PitBoot s.todo s.pit

/-- The interrupts in service while a handler runs. -/
def inService (cpu : Processor) : Fin 8 → Bool := fun i =>
  decide (cpu = .handler (32 + i.val) false)

/-- The chips serve the handler that runs, and what the processor acknowledges waits or was
lost. -/
structure Lines (s : IrqRun) : Prop extends Balanced s where
  master : s.pics.master =
    { Pic.programmed 32 0xFC s.pics.master.inputs with isr := inService s.cpu }
  slave : s.pics.slave = .programmed 40 0xFF s.pics.slave.inputs
  handlers : ∀ v sent, s.cpu = .handler v sent → v = 32 ∨ v = 33
  seen : s.cpu = .acknowledging →
    s.pics.waiting 0 = true ∨ s.pics.waiting 1 = true ∨ 0 < s.lost 0 + s.lost 1
  stopped : ∀ v, s.cpu = .stopped v → v = 39 ∧ 0 < s.lost 0 + s.lost 1

/-- The boot has set the chips up, and the timer runs. -/
structure Settled (s : IrqRun) : Prop extends Lines s where
  todo : s.todo = []
  pit : s.pit = runningPit s.clocks
  level : s.pics.line 0 = .low ↔ up s.clocks = false
  ticks : ∃ first ≤ 1, s.raised 0 = first + (s.clocks - 1) / 11931

variable {s s' : IrqRun} {todo writes : List (ℕ × ℕ)} {w : ℕ × ℕ} {t : Pit} {n : Fin 16}
variable {pics : Pics} {v clocks : ℕ} {high : Bool}

theorem runningPit_clock : (runningPit clocks).clock = runningPit (clocks + 1) := by
  unfold runningPit
  rw [if_neg (Nat.succ_ne_zero clocks), Nat.add_sub_cancel]
  split_ifs with hclocks
  · subst hclocks
    rfl
  · rw [Pit.clock]
    congr 1
    split_ifs <;> omega

theorem runningPit_out : (runningPit clocks).out = some (up clocks) := by
  unfold runningPit up
  split_ifs with hclocks
  · subst hclocks
    rfl
  · rfl

theorem runningPit_ne_found : runningPit clocks ≠ .found := by
  unfold runningPit
  split_ifs
  · exact Pit.noConfusion
  · exact Pit.noConfusion

/-- The output goes up once a period. -/
theorem rises : (clocks - 1) / 11931 + (up (clocks + 1) && !up clocks).toNat =
    (clocks + 1 - 1) / 11931 := by
  unfold up
  by_cases hup : (clocks - 1) % 11931 < 5966
  · rw [decide_eq_true hup, Bool.not_true, Bool.and_false, Bool.toNat_false]
    omega
  · rw [decide_eq_false hup, Bool.not_false, Bool.and_true]
    by_cases hnext : (clocks + 1 - 1) % 11931 < 5966
    · rw [decide_eq_true hnext, Bool.toNat_true]
      omega
    · rw [decide_eq_false hnext, Bool.toNat_false]
      omega

theorem PitBoot.clock (hpit : PitBoot todo t) : PitBoot todo t.clock := by
  cases hpit with
  | remap hbefore => exact .remap hbefore
  | low => exact .low
  | high => exact .high

/-- The next write brings the timer to its next phase; after the last one it runs. -/
theorem PitBoot.outb (hpit : PitBoot writes t) (hwrites : writes = w :: todo) :
    todo = [] ∧ t.outb w = runningPit 0 ∨ todo ≠ [] ∧ PitBoot todo (t.outb w) := by
  cases hpit with
  | @remap before _ hbefore =>
      cases before with
      | nil =>
          cases hwrites
          exact .inr ⟨by decide, .low⟩
      | cons write before =>
          cases hwrites
          refine .inr ⟨List.append_ne_nil_of_right_ne_nil _ (by decide), .remap ?_⟩
          exact fun write hwrite => hbefore write (List.mem_cons_of_mem _ hwrite)
  | low =>
      cases hwrites
      exact .inr ⟨by decide, .high⟩
  | high =>
      cases hwrites
      exact .inl ⟨rfl, rfl⟩

theorem start_booting (pics : Pics) (pit : Pit) {scheduler : Scheduler}
    (huptime : scheduler.uptimeMs = 0) : Booting (start pics pit scheduler) where
  todo := (by decide : bootWrites ≠ [])
  cpu := rfl
  uptime := huptime
  pics := Pics.bootWrites_forget pics
  pit := (PitBoot.remap (by decide) : PitBoot (picRemap ++ pitInitialize 100) pit)

theorem Booting.line (hboot : Booting s) (n : Fin 16) (high : Bool) : Booting (s.line n high) :=
  { hboot with
    pics := (Pics.foldl_outb_forget s.todo (Pics.drive_forget high)).trans hboot.pics }

theorem Booting.follow (hboot : Booting s) : Booting s.follow := by
  unfold IrqRun.follow
  split
  · exact hboot
  · exact hboot.line 0 _

theorem Booting.clock (hboot : Booting s) : Booting s.clock :=
  Booting.follow (s := { s with pit := s.pit.clock, clocks := s.clocks + 1 })
    { hboot with pit := hboot.pit.clock }

/-- The last write of the boot leaves the chips settled. -/
theorem Booting.write_last (hboot : Booting s) (hwrites : s.todo = [w])
    (hpit : s.pit.outb w = runningPit 0) : Settled (s.write w []) := by
  have hpics := hboot.pics
  rw [hwrites, List.foldl_cons] at hpics
  have hwritten : s.write w [] =
      { s with
        todo := []
        pics := (s.pics.outb w).drive 0 true
        pit := runningPit 0
        clocks := 0
        raised := fun n => (((s.pics.outb w).drive 0 true).waiting n).toNat
        lost := fun _ => 0
        served := fun _ => 0 } := by
    unfold IrqRun.write IrqRun.follow
    dsimp only
    rw [hpit, runningPit_out]
    rfl
  have hforget := (Pics.drive_forget (n := 0) true).trans hpics
  have hmaster := Pic.eq_programmed (congrArg Pics.master hforget)
  have hslave := Pic.eq_programmed (congrArg Pics.slave hforget)
  rw [hwritten]
  refine
    { vectors := fun _ _ _ => rfl
      requests := fun n _ => (Nat.zero_add _).symm
      uptime := ⟨0, ?_, hboot.uptime⟩
      master := ?_
      slave := hslave
      handlers := ?_
      seen := ?_
      stopped := ?_
      todo := rfl
      pit := rfl
      level := ?_
      ticks := ⟨_, Bool.toNat_le (((s.pics.outb w).drive 0 true).waiting 0), ?_⟩ }
  · rw [inHandler, hboot.cpu]
    rfl
  · rw [hboot.cpu]
    exact hmaster
  · simp [hboot.cpu]
  · simp [hboot.cpu]
  · simp [hboot.cpu]
  · rw [Pics.line_drive (by decide), if_pos rfl]
    exact iff_of_false (PicInput.drive_true_ne_low _) (show ¬up 0 = false by decide)
  · simp only [Nat.zero_sub, Nat.zero_div, Nat.add_zero]

theorem Booting.write (hboot : Booting s) (hwrites : s.todo = w :: todo) :
    Booting (s.write w todo) ∨ Settled (s.write w todo) := by
  have hpics := hboot.pics
  rw [hwrites, List.foldl_cons] at hpics
  obtain ⟨rfl, hpit⟩ | ⟨htodo, hpit⟩ := hboot.pit.outb hwrites
  · exact .inr (hboot.write_last hwrites hpit)
  · have hwritten : Booting { s with todo, pics := s.pics.outb w, pit := s.pit.outb w } :=
      ⟨htodo, hboot.cpu, hboot.uptime, hpics, hpit⟩
    exact .inl { hwritten.follow with }

/-! ## Interrupts -/

theorem inService_handler (i : Fin 8) :
    inService (.handler (32 + i.val) false) = fun j => decide (j = i) := by
  funext j
  simp [inService, Fin.ext_iff, eq_comm]

/-- Without a handler before its EOI nothing is in service. -/
theorem inService_none {cpu : Processor} (hcpu : ∀ v, cpu ≠ .handler v false) :
    inService cpu = fun _ => false :=
  funext fun _ => decide_eq_false (hcpu _)

theorem Balanced.line (hbalanced : Balanced s) (hn : n ≠ 2) : Balanced (s.line n high) := by
  refine { hbalanced with requests := fun k hk => ?_ }
  have hbefore := hbalanced.requests k hk
  unfold IrqRun.line Pics.waiting
  dsimp only
  rw [Pics.line_drive hn, Function.update_apply, Function.update_apply]
  by_cases hkn : k = n
  · subst hkn
    unfold Pics.waiting at hbefore
    rw [if_pos rfl, if_pos rfl, if_pos rfl]
    -- what a request becomes when its line goes up, stays or falls
    cases high <;> cases hline : s.pics.line k <;> rw [hline] at hbefore <;>
      simp [PicInput.drive] at hbefore ⊢ <;> omega
  · rw [if_neg hkn, if_neg hkn, if_neg hkn, hbefore]
    rfl

/-- A request that goes is counted as lost. -/
theorem waiting_line (hn : n ≠ 2) {k : Fin 16} (hwaiting : s.pics.waiting k = true) :
    (s.line n high).pics.waiting k = true ∨ 0 < (s.line n high).lost k := by
  have hline : s.pics.line k = .request := of_decide_eq_true hwaiting
  unfold IrqRun.line
  dsimp only
  rw [Pics.waiting, Pics.line_drive hn]
  by_cases hkn : k = n
  · subst hkn
    rw [if_pos rfl, hline, Function.update_self, hwaiting]
    cases high
    · exact .inr (Nat.succ_pos _)
    · exact .inl rfl
  · rw [if_neg hkn, hline]
    exact .inl rfl

theorem lost_line (k : Fin 16) : s.lost k ≤ (s.line n high).lost k := by
  unfold IrqRun.line
  dsimp only
  rw [Function.update_apply]
  split_ifs with hk
  · subst hk
    exact Nat.le_add_right _ _
  · exact le_rfl

theorem Lines.line (hlines : Lines s) (hn : n ≠ 2) : Lines (s.line n high) := by
  have hlost : s.lost 0 + s.lost 1 ≤ (s.line n high).lost 0 + (s.line n high).lost 1 :=
    Nat.add_le_add (lost_line 0) (lost_line 1)
  refine { hlines with
    toBalanced := hlines.toBalanced.line hn
    master := ?_
    slave := ?_
    seen := fun hseen => ?_
    stopped := fun v hv => ?_ }
  · unfold IrqRun.line Pics.drive
    dsimp only
    split_ifs
    · exact hlines.master
    · exact Pic.drive_eq hlines.master _ _
    · exact hlines.master
  · unfold IrqRun.line Pics.drive
    dsimp only
    split_ifs
    · exact hlines.slave
    · exact hlines.slave
    · exact Pic.drive_eq hlines.slave _ _
  · obtain h0 | h1 | h := hlines.seen hseen
    · exact (waiting_line hn h0).imp_right fun hlost => .inr (Nat.add_pos_left hlost _)
    · exact .inr ((waiting_line hn h1).imp_right fun hlost => Nat.add_pos_right _ hlost)
    · exact .inr (.inr (h.trans_le hlost))
  · obtain ⟨hv, hpos⟩ := hlines.stopped v hv
    exact ⟨hv, hpos.trans_le hlost⟩

theorem Settled.line (hsettled : Settled s) (hn : n ≠ 2) (h0 : n ≠ 0) :
    Settled (s.line n high) := by
  have hraised : (s.line n high).raised 0 = s.raised 0 := Function.update_of_ne h0.symm _ _
  have hlevel : (s.line n high).pics.line 0 = s.pics.line 0 := by
    rw [IrqRun.line, Pics.line_drive hn, if_neg h0.symm]
  exact ⟨hsettled.toLines.line hn, hsettled.todo, hsettled.pit, hlevel ▸ hsettled.level,
    hraised ▸ hsettled.ticks⟩

theorem Settled.clock (hsettled : Settled s) : Settled s.clock := by
  obtain ⟨first, hfirst, hticks⟩ := hsettled.ticks
  have hlines : Lines { s with pit := runningPit (s.clocks + 1), clocks := s.clocks + 1 } :=
    { hsettled.toLines with }
  have hclock : s.clock = IrqRun.line
      { s with pit := runningPit (s.clocks + 1), clocks := s.clocks + 1 } 0
      (up (s.clocks + 1)) := by
    unfold IrqRun.clock IrqRun.follow
    rw [hsettled.pit, runningPit_clock]
    dsimp only
    rw [runningPit_out]
  rw [hclock]
  refine ⟨hlines.line (by decide), hsettled.todo, rfl, ?_, first, hfirst, ?_⟩
  · rw [IrqRun.line, Pics.line_drive (by decide), if_pos rfl]
    dsimp only
    cases up (s.clocks + 1)
    · exact iff_of_true rfl rfl
    · exact iff_of_false (PicInput.drive_true_ne_low _) (by decide)
  · have hlow : decide (s.pics.line 0 = .low) = !up s.clocks := by
      simp only [hsettled.level, Bool.decide_eq_false]
    unfold IrqRun.line
    dsimp only
    rw [Function.update_self, hticks, hlow, ← rises, Nat.add_assoc]

/-- The processor goes on to something else, without a handler before its EOI. -/
theorem Lines.quiet (hlines : Lines s) {cpu : Processor} (hbefore : ∀ v, s.cpu ≠ .handler v false)
    (hafter : ∀ v, cpu ≠ .handler v false)
    (hhandlers : ∀ v sent, cpu = .handler v sent → v = 32 ∨ v = 33)
    (hseen : cpu = .acknowledging →
      s.pics.waiting 0 = true ∨ s.pics.waiting 1 = true ∨ 0 < s.lost 0 + s.lost 1)
    (hstopped : ∀ v, cpu = .stopped v → v = 39 ∧ 0 < s.lost 0 + s.lost 1) :
    Lines { s with cpu } := by
  obtain ⟨handled, hserved, hcount⟩ := hlines.uptime
  have hin : s.inHandler 32 = inHandler { s with cpu } 32 := by
    unfold inHandler
    rw [decide_eq_false (hbefore 32), decide_eq_false (hafter 32)]
  have hmaster := hlines.master
  rw [inService_none hbefore, ← inService_none hafter] at hmaster
  exact { hlines with
    uptime := ⟨handled, hserved.trans (congrArg _ hin), hcount⟩
    master := hmaster
    handlers := hhandlers
    seen := hseen
    stopped := hstopped }

/-- The processor goes on with other code. -/
theorem Lines.code (hlines : Lines s) {enabled : Bool} (hbefore : ∀ v, s.cpu ≠ .handler v false) :
    Lines { s with cpu := .code enabled } :=
  hlines.quiet hbefore (fun _ => Processor.noConfusion) (fun _ _ => Processor.noConfusion)
    Processor.noConfusion fun _ => Processor.noConfusion

/-- The interrupt that the chips give the processor outside the handlers. -/
theorem Lines.acknowledge (hlines : Lines s) (hcpu : ∀ v, s.cpu ≠ .handler v false) :
    s.pics.acknowledge = if s.pics.waiting 0 then some (32, s.pics.taken 0)
      else if s.pics.waiting 1 then some (33, s.pics.taken 1) else none := by
  have hmaster := hlines.master
  rw [inService_none hcpu] at hmaster
  exact Pics.acknowledge_eq hmaster hlines.slave

/-- The processor sees a request of one of the two. -/
theorem Lines.interrupt (hlines : Lines s) (hcpu : s.cpu = .code true)
    (hsome : s.pics.acknowledge.isSome) : Lines { s with cpu := .acknowledging } := by
  have hbefore (v : ℕ) : s.cpu ≠ .handler v false := by simp [hcpu]
  rw [hlines.acknowledge hbefore] at hsome
  refine hlines.quiet hbefore (fun _ => Processor.noConfusion) (fun _ _ => Processor.noConfusion)
    (fun _ => ?_) fun _ => Processor.noConfusion
  split_ifs at hsome with h0 h1
  · exact .inl h0
  · exact .inr (.inl h1)
  · cases hsome

/-- The request went while the processor acknowledged it. -/
theorem Lines.spurious (hlines : Lines s) (hcpu : s.cpu = .acknowledging)
    (hnone : s.pics.acknowledge = none) :
    Lines { s with cpu := .enter s.pics.spurious } := by
  have hbefore (v : ℕ) : s.cpu ≠ .handler v false := by simp [hcpu]
  have hvector : s.pics.spurious = 39 := by
    rw [Pics.spurious, hlines.master]
    rfl
  have hlost : 0 < s.lost 0 + s.lost 1 := by
    have hseen := hlines.seen hcpu
    rw [hlines.acknowledge hbefore] at hnone
    split_ifs at hnone with h0 h1
    exact (hseen.resolve_left h0).resolve_left h1
  rw [hvector]
  refine hlines.quiet hbefore (fun _ => Processor.noConfusion) (fun _ _ => Processor.noConfusion)
    Processor.noConfusion fun v hv => ⟨?_, hlost⟩
  cases hv
  rfl

theorem enter_handler {i : Fin 8} (hi : i = 0 ∨ i = 1) :
    Processor.enter (32 + i.val) = .handler (32 + i.val) false := by
  rcases hi with rfl | rfl <;> rfl

/-- The request that waited is served. -/
theorem Balanced.accept (hbalanced : Balanced s) {i : Fin 8} (hi : i = 0 ∨ i = 1)
    (hbefore : ∀ v, s.cpu ≠ .handler v false)
    (hwaiting : s.pics.waiting (Fin.castLE (by decide) i) = true) :
    Balanced (s.accept (32 + i.val) (s.pics.taken i)) := by
  have hle : i.val ≤ 1 := by rcases hi with rfl | rfl <;> decide
  refine ⟨fun v h32 h33 => ?_, fun n hn => ?_, ?_⟩
  · show Function.update s.served (32 + i.val) _ v = 0
    rw [Function.update_of_ne (by omega)]
    exact hbalanced.vectors v h32 h33
  · have hrequests := hbalanced.requests n hn
    have hn2 : n.val ≠ 2 := fun h => hn (Fin.ext h)
    show s.raised n = Function.update s.served (32 + i.val) _ (32 + n.val) + s.lost n +
      ((s.pics.taken i).waiting n).toNat
    rw [Pics.waiting, Pics.line_taken, hrequests]
    by_cases hni : n.val = i.val
    · have hline : n = Fin.castLE (by decide) i := Fin.ext hni
      rw [hline, hwaiting, ← hline, hni, Function.update_self, if_pos rfl]
      simp only [reduceCtorEq, decide_false, Bool.toNat_true, Bool.toNat_false]
      omega
    · rw [Function.update_of_ne (by omega), if_neg hni, if_neg hn2]
      rfl
  · obtain ⟨handled, hserved, huptime⟩ := hbalanced.uptime
    have hnone : s.inHandler 32 = 0 := by
      rw [inHandler, decide_eq_false (hbefore 32)]
      rfl
    refine ⟨handled, ?_, huptime⟩
    show Function.update s.served (32 + i.val) (s.served (32 + i.val) + 1) 32 =
      handled + (decide (Processor.enter (32 + i.val) = .handler 32 false)).toNat
    rcases hi with rfl | rfl
    · rw [show 32 + (0 : Fin 8).val = 32 from rfl, Function.update_self, hserved, hnone]
      rfl
    · rw [Function.update_of_ne (by decide), hserved, hnone]
      rfl

theorem Lines.accept (hlines : Lines s) {i : Fin 8} (hi : i = 0 ∨ i = 1)
    (hbefore : ∀ v, s.cpu ≠ .handler v false)
    (hwaiting : s.pics.waiting (Fin.castLE (by decide) i) = true) :
    Lines (s.accept (32 + i.val) (s.pics.taken i)) := by
  have hle : i.val ≤ 1 := by rcases hi with rfl | rfl <;> decide
  have hcpu : (s.accept (32 + i.val) (s.pics.taken i)).cpu = .handler (32 + i.val) false :=
    enter_handler hi
  refine ⟨hlines.toBalanced.accept hi hbefore hwaiting, ?_, hlines.slave, ?_, ?_, ?_⟩
  · rw [hcpu, inService_handler]
    rfl
  · intro v sent hv
    rw [hcpu] at hv
    cases hv
    omega
  · simp [hcpu]
  · simp [hcpu]

/-- The timer's line, if it had a request, is still up. -/
theorem Settled.accept (hsettled : Settled s) {i : Fin 8} (hi : i = 0 ∨ i = 1)
    (hbefore : ∀ v, s.cpu ≠ .handler v false)
    (hwaiting : s.pics.waiting (Fin.castLE (by decide) i) = true) :
    Settled (s.accept (32 + i.val) (s.pics.taken i)) := by
  refine { hsettled with
    toLines := hsettled.toLines.accept hi hbefore hwaiting
    level := ?_ }
  have hline : (s.pics.taken i).line 0 = .low ↔ s.pics.line 0 = .low := by
    rw [Pics.line_taken]
    rcases hi with rfl | rfl
    · have hrequest : s.pics.line 0 = .request := of_decide_eq_true hwaiting
      rw [hrequest]
      exact iff_of_false (show PicInput.held ≠ .low by decide) (by decide)
    · rfl
  exact hline.trans hsettled.level

/-- The EOI ends the interrupt whose handler runs. -/
theorem Settled.eoi (hsettled : Settled s) {i : Fin 8} {scheduler : Scheduler}
    (hcpu : s.cpu = .handler (32 + i.val) false)
    (huptime : scheduler.uptimeMs = 10 * s.served 32 % 2 ^ 64) :
    Settled { s.eoi (32 + i.val) with scheduler } := by
  have hisr : s.pics.master.isr = fun j => decide (j = i) := by
    rw [hsettled.master, hcpu, inService_handler]
  have hpics : s.pics.outb (0x20, 0x20) =
      { s.pics with master := { s.pics.master with isr := fun _ => false } } := by
    rw [← Pic.eoi_single hisr]
    rfl
  have hnone : inService (.handler (32 + i.val) true) = fun _ => false :=
    inService_none fun v hv => by cases hv
  unfold IrqRun.eoi
  rw [hpics]
  refine { hsettled with
    uptime := ⟨s.served 32, ?_, huptime⟩
    master := ?_
    handlers := fun v sent hv => ?_
    seen := Processor.noConfusion
    stopped := fun _ => Processor.noConfusion }
  · simp [inHandler]
  · dsimp only
    rw [hnone]
    exact Pic.isr_eq hsettled.master _
  · cases hv
    exact hsettled.handlers _ _ hcpu

theorem Settled.timer (hsettled : Settled s) (hcpu : s.cpu = .handler 32 false) (rsp : ℕ) :
    Settled { s.eoi 32 with scheduler := (s.scheduler.irq0Handler rsp).2 } := by
  obtain ⟨handled, hserved, huptime⟩ := hsettled.uptime
  have hin : s.inHandler 32 = 1 := by
    rw [inHandler, hcpu]
    rfl
  refine hsettled.eoi (i := 0) hcpu ?_
  rw [Scheduler.irq0Handler_uptimeMs, huptime, hserved, hin]
  omega

theorem Settled.keyboard (hsettled : Settled s) (hcpu : s.cpu = .handler 33 false) :
    Settled (s.eoi 33) := by
  obtain ⟨handled, hserved, huptime⟩ := hsettled.uptime
  have hin : s.inHandler 32 = 0 := by
    rw [inHandler, hcpu]
    rfl
  refine hsettled.eoi (i := 1) hcpu ?_
  rw [huptime, hserved, hin, Nat.add_zero]

/-! ## Every run -/

/-- What one step preserves. -/
theorem Settled.step (hsettled : Settled s) {event : IrqEvent} (hstep : Step s event s') :
    Settled s' := by
  cases event with
  | write =>
      rw [Step, IrqRun.step, hsettled.todo] at hstep
      cases hstep
  | clock =>
      cases hstep
      exact hsettled.clock
  | line n high =>
      simp only [Step, IrqRun.step] at hstep
      split_ifs at hstep with hn
      cases hstep
      have hfound : s.pit ≠ .found := hsettled.pit ▸ runningPit_ne_found
      exact hsettled.line (fun h => hn (.inl h)) fun h => hn (.inr ⟨h, hfound⟩)
  | code scheduler enabled =>
      simp only [Step, IrqRun.step] at hstep
      split at hstep
      · rename_i hcpu
        split_ifs at hstep with hcode
        cases hstep
        have hlines : Lines { s with scheduler } :=
          { hsettled.toLines with
            uptime := hsettled.uptime.imp fun _ h => ⟨h.1, hcode.1.trans h.2⟩ }
        exact { hsettled with
          toLines := hlines.code fun v => by simp [hcpu] }
      · cases hstep
  | interrupt =>
      simp only [Step, IrqRun.step] at hstep
      split_ifs at hstep with hcpu
      cases hstep
      exact { hsettled with toLines := hsettled.toLines.interrupt hcpu.1 hcpu.2 }
  | accept =>
      simp only [Step, IrqRun.step] at hstep
      split_ifs at hstep with hcpu
      have hbefore (v : ℕ) : s.cpu ≠ .handler v false := by simp [hcpu]
      have hacknowledge := hsettled.acknowledge hbefore
      split at hstep
      · rename_i v pics hsome
        cases hstep
        rw [hacknowledge] at hsome
        split_ifs at hsome with h0 h1
        · cases hsome
          exact hsettled.accept (i := 0) (.inl rfl) hbefore h0
        · cases hsome
          exact hsettled.accept (i := 1) (.inr rfl) hbefore h1
      · rename_i hnone
        cases hstep
        exact { hsettled with toLines := hsettled.toLines.spurious hcpu hnone }
  | timer rsp =>
      simp only [Step, IrqRun.step] at hstep
      split_ifs at hstep with hcpu
      cases hstep
      exact hsettled.timer hcpu rsp
  | keyboard =>
      simp only [Step, IrqRun.step] at hstep
      split_ifs at hstep with hcpu
      cases hstep
      exact hsettled.keyboard hcpu
  | iretq =>
      simp only [Step, IrqRun.step] at hstep
      split at hstep
      · rename_i hcpu
        cases hstep
        exact { hsettled with
          toLines := hsettled.toLines.code fun v => by simp [hcpu] }
      · cases hstep

theorem Booting.step (hboot : Booting s) {event : IrqEvent} (hstep : Step s event s') :
    Booting s' ∨ Settled s' := by
  have hcpu := hboot.cpu
  cases event with
  | write =>
      simp only [Step, IrqRun.step] at hstep
      split at hstep
      · cases hstep
      · rename_i hwrites
        cases hstep
        exact hboot.write hwrites
  | clock =>
      cases hstep
      exact .inl hboot.clock
  | line n high =>
      simp only [Step, IrqRun.step] at hstep
      split_ifs at hstep
      cases hstep
      exact .inl (hboot.line n high)
  | code scheduler enabled =>
      simp only [Step, IrqRun.step, hcpu] at hstep
      split_ifs at hstep with hcode
      cases hstep
      have hoff : enabled = false := Bool.eq_false_of_not_eq_true fun h => hboot.todo (hcode.2 h)
      exact .inl { hboot with
        cpu := congrArg _ hoff
        uptime := hcode.1.trans hboot.uptime }
  | interrupt => simp [Step, IrqRun.step, hcpu] at hstep
  | accept => simp [Step, IrqRun.step, hcpu] at hstep
  | timer rsp => simp [Step, IrqRun.step, hcpu] at hstep
  | keyboard => simp [Step, IrqRun.step, hcpu] at hstep
  | iretq => simp [Step, IrqRun.step, hcpu] at hstep

/-- The handler of a vector without a gate does not come back. -/
theorem halted (htodo : s.todo = []) (hcpu : s.cpu = .stopped v) : s.Halted := by
  intro event s' hstep
  cases event with
  | write =>
      rw [Step, IrqRun.step, htodo] at hstep
      cases hstep
  | clock =>
      cases hstep
      unfold IrqRun.clock follow
      split <;> exact ⟨rfl, rfl, rfl⟩
  | line n high =>
      simp only [Step, IrqRun.step] at hstep
      split_ifs at hstep
      cases hstep
      exact ⟨rfl, rfl, rfl⟩
  | code scheduler enabled => simp [Step, IrqRun.step, hcpu] at hstep
  | interrupt => simp [Step, IrqRun.step, hcpu] at hstep
  | accept => simp [Step, IrqRun.step, hcpu] at hstep
  | timer rsp => simp [Step, IrqRun.step, hcpu] at hstep
  | keyboard => simp [Step, IrqRun.step, hcpu] at hstep
  | iretq => simp [Step, IrqRun.step, hcpu] at hstep

/-- With interrupts on, a request of the two is taken, the timer's first. -/
theorem Lines.prompt (hlines : Lines s) (hcpu : s.cpu = .code true)
    (hwaiting : s.pics.waiting 0 = true ∨ s.pics.waiting 1 = true) :
    ∃ s', Run Step s [.interrupt, .accept] s' ∧
      s'.cpu = .handler (if s.pics.waiting 0 then 32 else 33) false := by
  have hbefore (v : ℕ) : s.cpu ≠ .handler v false := by simp [hcpu]
  have hacknowledge := hlines.acknowledge hbefore
  obtain ⟨i, hi, hsome, hvector⟩ : ∃ i : Fin 8, (i = 0 ∨ i = 1) ∧
      s.pics.acknowledge = some (32 + i.val, s.pics.taken i) ∧
      32 + i.val = if s.pics.waiting 0 then 32 else 33 := by
    by_cases h0 : s.pics.waiting 0 = true
    · rw [if_pos h0] at hacknowledge ⊢
      exact ⟨0, .inl rfl, hacknowledge, rfl⟩
    · rw [if_neg h0, if_pos (hwaiting.resolve_left h0)] at hacknowledge
      rw [if_neg h0]
      exact ⟨1, .inr rfl, hacknowledge, rfl⟩
  have hinterrupt : Step s .interrupt { s with cpu := .acknowledging } := by
    simp [Step, IrqRun.step, hcpu, hsome]
  have haccept : Step { s with cpu := .acknowledging } .accept
      (IrqRun.accept { s with cpu := .acknowledging } (32 + i.val) (s.pics.taken i)) := by
    simp [Step, IrqRun.step, hsome]
  exact ⟨_, .cons hinterrupt (.cons haccept (.nil _)), hvector ▸ enter_handler hi⟩

theorem Settled.accounts (hsettled : Settled s) : Accounts s where
  toBalanced := hsettled.toBalanced
  prompt := hsettled.prompt
  spurious v hv :=
    ⟨(hsettled.stopped v hv).1, (hsettled.stopped v hv).2, halted hsettled.todo hv⟩
  ticks := hsettled.ticks

/-- As long as no tick is lost, the uptime keeps up with the timer. -/
theorem Accounts.keeps_up (haccounts : s.Accounts) (hlost : s.lost 0 = 0) :
    ∃ ticks, s.scheduler.uptimeMs = 10 * ticks % 2 ^ 64 ∧
      ticks ≤ (s.clocks - 1) / 11931 + 1 ∧ (s.clocks - 1) / 11931 ≤ ticks + 2 := by
  obtain ⟨first, hfirst, hticks⟩ := haccounts.ticks
  obtain ⟨handled, hserved, huptime⟩ := haccounts.uptime
  have hraised : s.raised 0 = s.served 32 + s.lost 0 + (s.pics.waiting 0).toNat :=
    haccounts.requests 0 (by decide)
  have hwaiting := Bool.toNat_le (s.pics.waiting 0)
  have hin : s.inHandler 32 ≤ 1 := Bool.toNat_le _
  exact ⟨handled, huptime, by omega, by omega⟩

/-- Whatever state the chips are found in and whatever comes while they are programmed, every
request after the boot is accounted for. -/
theorem run_accounts {scheduler : Scheduler} {pit : Pit} {events : List IrqEvent}
    (huptime : scheduler.uptimeMs = 0)
    (hrun : Run Step (start pics pit scheduler) events s) (hdone : s.todo = []) : s.Accounts := by
  have hinv := hrun.invariant (fun s => Booting s ∨ Settled s)
    (.inl (start_booting pics pit huptime)) fun s event s' hstep hinv => ?_
  · exact hinv.elim (fun hboot => absurd hdone hboot.todo) Settled.accounts
  · rcases hinv with hboot | hsettled
    · exact hboot.step hstep
    · exact .inr (hsettled.step hstep)

/-- The tick that the mode of the timer raises, a key while its handler runs, one that comes
and goes while a system call runs, and one that goes while the processor acknowledges it. -/
def tickAndKeys (scheduler : Scheduler) : List IrqEvent :=
  List.replicate 21 .write ++ [.clock, .code scheduler true, .interrupt, .accept, .line 1 true,
    .timer 0, .iretq, .interrupt, .accept, .keyboard, .line 1 false, .iretq,
    .code { scheduler with uptimeMs := 10 } false, .line 1 true, .line 1 false,
    .code { scheduler with uptimeMs := 10 } true, .line 1 true, .interrupt, .line 1 false, .accept]

def idlePics : Pics := ⟨.programmed 8 0xFF fun _ => .low, .programmed 112 0xFF fun _ => .low⟩

def idleScheduler : Scheduler := ⟨fun _ => ⟨0, 0, 0, 0⟩, 0, 0, 1, 0, fun _ => 0⟩

theorem tickAndKeys_accounts : ∃ s,
    Run Step (start idlePics .found idleScheduler) (tickAndKeys idleScheduler) s ∧
      s.Accounts ∧ s.served 32 = 1 ∧ s.served 33 = 1 ∧ s.raised 1 = 3 ∧ s.lost 1 = 2 ∧
      s.cpu = .stopped 39 ∧ s.scheduler.uptimeMs = 10 := by
  have hrun : Run Step (start idlePics .found idleScheduler) (tickAndKeys idleScheduler) _ :=
    Run.of_foldlM rfl
  exact ⟨_, hrun, run_accounts rfl hrun rfl, rfl, rfl, rfl, rfl, rfl, rfl⟩

end IrqRun

end BadOS.Kernel
