import Mathlib.Tactic

/-! # The interrupt controllers and the timer

The two 8259 and channel 0 of the 8253, as far as the kernel uses them, and what `pic.c`
writes to their ports. Whatever the controllers were doing, they are set up afterwards. A
request lasts only as long as its line is up.
-/

namespace BadOS.Kernel

/-! ## The controllers -/

/-- An input of an 8259 with edge-triggered inputs: low, up with its request waiting, or up
with nothing to ask for until it has been low again. -/
inductive PicInput
  | low
  | request
  | held
deriving DecidableEq

namespace PicInput

/-- The level of the input. A request that falls is lost. -/
def drive : PicInput → Bool → PicInput
  | _, false => .low
  | .low, true => .request
  | input, true => input

theorem drive_true_ne_low (input : PicInput) : input.drive true ≠ .low := by
  cases input <;> decide

/-- The input without its request. -/
def done : PicInput → PicInput
  | .request => .held
  | input => input

end PicInput

/-- Where an 8259 is in its initialisation: ready, or waiting for a command word. -/
inductive PicPhase
  | ready
  | icw2
  | icw3
  | icw4
deriving DecidableEq

/-- An 8259: the inputs, the interrupts in service and the mask. -/
structure Pic where
  phase : PicPhase
  needsIcw4 : Bool
  single : Bool
  autoEoi : Bool
  base : ℕ
  inputs : Fin 8 → PicInput
  isr : Fin 8 → Bool
  imr : Fin 8 → Bool

namespace Pic

/-- The end of the interrupt in service with the highest priority. -/
def eoi (p : Pic) : Pic :=
  match (List.finRange 8).find? p.isr with
  | none => p
  | some i => { p with isr := Function.update p.isr i false }

/-- A write to the command port: ICW1, or the one OCW2 that the kernel sends. After ICW1 an
input that is up asks for nothing. -/
def command (p : Pic) (v : ℕ) : Pic :=
  if v.testBit 4 then
    { phase := .icw2, needsIcw4 := v.testBit 0, single := v.testBit 1, autoEoi := false,
      base := p.base, inputs := fun i => (p.inputs i).done, isr := fun _ => false,
      imr := fun _ => false }
  else if v = 0x20 then p.eoi
  else p

/-- A write to the data port: the next command word, or the mask. -/
def data (p : Pic) (v : ℕ) : Pic :=
  match p.phase with
  | .ready => { p with imr := fun i => v.testBit i }
  | .icw2 =>
      { p with
        base := v - v % 8
        phase := if !p.single then .icw3 else if p.needsIcw4 then .icw4 else .ready }
  | .icw3 => { p with phase := if p.needsIcw4 then .icw4 else .ready }
  | .icw4 => { p with autoEoi := v.testBit 1, phase := .ready }

/-- Input `i` gets a level. -/
def drive (p : Pic) (i : Fin 8) (high : Bool) : Pic :=
  { p with inputs := Function.update p.inputs i ((p.inputs i).drive high) }

/-- The requests that wait. -/
def irr (p : Pic) (i : Fin 8) : Bool := decide (p.inputs i = .request)

/-- The interrupt to ask the processor for: the lowest request that is not masked and has
no interrupt of the same or a higher priority in service. -/
def request (p : Pic) : Option (Fin 8) :=
  if p.phase = .ready then
    (List.finRange 8).find? fun i => p.irr i && !p.imr i && decide (∀ j ≤ i, p.isr j = false)
  else none

/-- The processor takes the interrupt. -/
def acknowledge (p : Pic) (i : Fin 8) : Pic :=
  { p with
    inputs := Function.update p.inputs i (p.inputs i).done
    isr := if p.autoEoi then p.isr else Function.update p.isr i true }

/-- An 8259 that is ready, with nothing in service. -/
def programmed (base mask : ℕ) (inputs : Fin 8 → PicInput) : Pic where
  phase := .ready
  needsIcw4 := true
  single := false
  autoEoi := false
  base := base
  inputs := inputs
  isr := fun _ => false
  imr := fun i => mask.testBit i

/-- The inputs left out. -/
def forget (p : Pic) : Pic := { p with inputs := fun _ => .low }

end Pic

/-- The first 8259, and the second one on its input 2. -/
structure Pics where
  master : Pic
  slave : Pic

namespace Pics

def outb (p : Pics) (write : ℕ × ℕ) : Pics :=
  if write.1 = 0x20 then { p with master := p.master.command write.2 }
  else if write.1 = 0x21 then { p with master := p.master.data write.2 }
  else if write.1 = 0xA0 then { p with slave := p.slave.command write.2 }
  else if write.1 = 0xA1 then { p with slave := p.slave.data write.2 }
  else p

/-- The input of its chip that a line is on. -/
def input (n : Fin 16) : Fin 8 := ⟨n.val % 8, Nat.mod_lt _ (by decide)⟩

/-- A device gives its line a level; input 2 of the first chip is no such line. -/
def drive (p : Pics) (n : Fin 16) (high : Bool) : Pics :=
  if n.val = 2 then p
  else if n.val < 8 then { p with master := p.master.drive (input n) high }
  else { p with slave := p.slave.drive (input n) high }

/-- The line as its chip sees it. -/
def line (p : Pics) (n : Fin 16) : PicInput :=
  if n.val < 8 then p.master.inputs (input n) else p.slave.inputs (input n)

/-- A request waits on a line. -/
def waiting (p : Pics) (n : Fin 16) : Bool := decide (p.line n = .request)

/-- The first chip with the request of the second. -/
def cascaded (p : Pics) : Pic :=
  { p.master with
    inputs :=
      Function.update p.master.inputs 2 (if p.slave.request.isSome then .request else .low) }

/-- The vector that the processor gets, and the chips behind it; `none` without a request. -/
def acknowledge (p : Pics) : Option (ℕ × Pics) :=
  p.cascaded.request.bind fun i =>
    if i = 2 then
      p.slave.request.map fun (j : Fin 8) =>
        (p.slave.base + j.val, ⟨p.cascaded.acknowledge i, p.slave.acknowledge j⟩)
    else some (p.master.base + i.val, { p with master := p.cascaded.acknowledge i })

/-- The vector that the first chip gives when the request is gone before the processor
acknowledges it; nothing comes into service. -/
def spurious (p : Pics) : ℕ := p.master.base + 7

def forget (p : Pics) : Pics := ⟨p.master.forget, p.slave.forget⟩

end Pics

/-! ## The timer -/

/-- Channel 0 of the 8253: in a mode that the boot found it in, or in mode 3 (the square
wave) without a count, with the low byte of one, with one that the next clock loads, or `n`
clocks into a period of it. -/
inductive Pit
  | found
  | mode3
  | lowByte (low : ℕ)
  | loading (count : ℕ)
  | counting (count n : ℕ)
deriving DecidableEq

namespace Pit

/-- Mode 3 of channel 0 with a count of two bytes is the one the kernel uses. -/
def outb (t : Pit) (write : ℕ × ℕ) : Pit :=
  if write.1 = 0x43 then
    if write.2 = 0x36 then .mode3 else t
  else if write.1 = 0x40 then
    match t with
    | .mode3 => .lowByte (write.2 % 256)
    | .lowByte low =>
        let count := low + 256 * (write.2 % 256)
        .loading (if count = 0 then 65536 else count)
    | t => t
  else t

def clock : Pit → Pit
  | .loading count => .counting count 0
  | .counting count n => .counting count (if n + 1 < count then n + 1 else 0)
  | t => t

/-- The output: up until the count is loaded, and for the first half of every period, which
is the longer one when the count is odd. In other modes it may do anything. -/
def out : Pit → Option Bool
  | .found => none
  | .counting count n => some (decide (n < (count + 1) / 2))
  | _ => some true

end Pit

/-! ## `pic.c` -/

/-- `io_wait`, a write to a port that nothing listens to. -/
def ioWait : ℕ × ℕ := (0x80, 0)

/-- The writes of `pic_remap`. -/
def picRemap : List (ℕ × ℕ) :=
  [(0x20, 0x10 ||| 0x01), ioWait, (0xA0, 0x10 ||| 0x01), ioWait, (0x21, 0x20), ioWait,
    (0xA1, 0x28), ioWait, (0x21, 4), ioWait, (0xA1, 2), ioWait, (0x21, 0x01), ioWait,
    (0xA1, 0x01), ioWait, (0x21, 0xFC), (0xA1, 0xFF)]

/-- The writes of `pit_initialize`. -/
def pitInitialize (frequency : ℕ) : List (ℕ × ℕ) :=
  let divisor := 1193180 / frequency
  [(0x43, 0x36), (0x40, divisor &&& 0xFF), (0x40, (divisor >>> 8) &&& 0xFF)]

/-- The writes of the boot to the chips. -/
def bootWrites : List (ℕ × ℕ) := picRemap ++ pitInitialize 100

/-! ## Set up -/

variable {p q : Pics} {n : Fin 16} {write : ℕ × ℕ} {v : ℕ}

theorem Pic.command_forget (p : Pic) : (p.command v).forget = (p.forget.command v).forget := by
  unfold Pic.command Pic.eoi Pic.forget
  dsimp only
  split_ifs
  · rfl
  · split <;> rfl
  · rfl

theorem Pic.data_forget (p : Pic) : (p.data v).forget = (p.forget.data v).forget := by
  unfold Pic.data Pic.forget
  dsimp only
  split <;> rfl

namespace Pics

theorem drive_forget (high : Bool) : (p.drive n high).forget = p.forget := by
  unfold drive
  split_ifs <;> rfl

theorem outb_forget : (p.outb write).forget = (p.forget.outb write).forget := by
  unfold outb forget
  dsimp only
  split_ifs <;> simp only [Pics.mk.injEq]
  · exact ⟨Pic.command_forget _, rfl⟩
  · exact ⟨Pic.data_forget _, rfl⟩
  · exact ⟨rfl, Pic.command_forget _⟩
  · exact ⟨rfl, Pic.data_forget _⟩
  · exact ⟨rfl, rfl⟩

/-- The inputs do not matter to what is written. -/
theorem foldl_outb_forget (writes : List (ℕ × ℕ)) (hsame : p.forget = q.forget) :
    (writes.foldl outb p).forget = (writes.foldl outb q).forget := by
  induction writes generalizing p q with
  | nil => exact hsame
  | cons write writes ih => exact ih (by rw [outb_forget, hsame, ← outb_forget])

/-- Whatever the chips were doing, they are set up. -/
theorem bootWrites_forget (p : Pics) :
    (bootWrites.foldl outb p).forget =
      ⟨.programmed 32 0xFC fun _ => .low, .programmed 40 0xFF fun _ => .low⟩ := rfl

end Pics

theorem Pic.eq_programmed {p : Pic} {base mask : ℕ}
    (hp : p.forget = .programmed base mask fun _ => .low) :
    p = .programmed base mask p.inputs := by
  cases p
  simpa only [forget, programmed, Pic.mk.injEq, true_and] using hp

theorem Pic.drive_eq {p : Pic} {base mask : ℕ} {isr : Fin 8 → Bool}
    (hp : p = { programmed base mask p.inputs with isr }) (i : Fin 8) (high : Bool) :
    p.drive i high = { programmed base mask (p.drive i high).inputs with isr } := by
  generalize p.inputs = inputs at hp
  subst hp
  rfl

theorem Pic.isr_eq {p : Pic} {base mask : ℕ} {isr : Fin 8 → Bool}
    (hp : p = { programmed base mask p.inputs with isr }) (isr' : Fin 8 → Bool) :
    { p with isr := isr' } = { programmed base mask p.inputs with isr := isr' } := by
  generalize p.inputs = inputs at hp
  subst hp
  rfl

/-! ## Requests -/

section Requests

variable {inputs : Fin 8 → PicInput} {i : Fin 8} {k : Fin 16}

theorem finRange_eight : List.finRange 8 = [0, 1, 2, 3, 4, 5, 6, 7] := by decide

/-- The first chip lets lines 0 and 1 through. -/
theorem Pic.request_master : (Pic.programmed 32 0xFC inputs).request =
    if inputs 0 = .request then some 0 else if inputs 1 = .request then some 1 else none := by
  unfold request irr programmed
  rw [finRange_eight, if_pos rfl]
  by_cases h0 : inputs 0 = .request <;> by_cases h1 : inputs 1 = .request <;>
    simp [h0, h1, Nat.testBit]

/-- The second chip lets nothing through. -/
theorem Pic.request_slave : (Pic.programmed 40 0xFF inputs).request = none := by
  unfold request programmed
  rw [finRange_eight, if_pos rfl]
  simp [Nat.testBit]

/-- The end of the only interrupt in service. -/
theorem Pic.eoi_single {p : Pic} (hisr : p.isr = fun j => decide (j = i)) :
    p.eoi = { p with isr := fun _ => false } := by
  have hfind : ∀ i : Fin 8, (List.finRange 8).find? (fun j => decide (j = i)) = some i := by
    decide
  have hclear : Function.update p.isr i false = fun _ => false := by
    funext j
    rw [Function.update_apply, hisr]
    split_ifs with hj
    · rfl
    · exact decide_eq_false hj
  rw [eoi, hisr, hfind, ← hisr]
  dsimp only
  rw [hclear]

namespace Pics

/-- The chips behind an interrupt of the first one, which had none in service. -/
def taken (p : Pics) (i : Fin 8) : Pics :=
  { p with
    master :=
      { Pic.programmed 32 0xFC
          (Function.update (Function.update p.master.inputs 2 .low) i .held) with
        isr := fun j => decide (j = i) } }

theorem cascaded_eq (hmaster : p.master = .programmed 32 0xFC p.master.inputs)
    (hslave : p.slave = .programmed 40 0xFF p.slave.inputs) :
    p.cascaded = .programmed 32 0xFC (Function.update p.master.inputs 2 .low) := by
  have hnone : p.slave.request = none := by rw [hslave, Pic.request_slave]
  unfold cascaded
  rw [hnone, hmaster]
  rfl

/-- The processor takes the request of input `i`. -/
theorem acknowledge_taken (hmaster : p.master = .programmed 32 0xFC p.master.inputs)
    (hslave : p.slave = .programmed 40 0xFF p.slave.inputs) (hi : i ≠ 2)
    (hrequest : p.master.inputs i = .request) : p.cascaded.acknowledge i = (p.taken i).master := by
  have hisr : Function.update (fun _ => false) i true = fun j => decide (j = i) := by
    funext j
    rw [Function.update_apply]
    split_ifs with hj
    · exact (decide_eq_true hj).symm
    · exact (decide_eq_false hj).symm
  have hdone : (Function.update p.master.inputs 2 .low i).done = .held := by
    rw [Function.update_of_ne hi, hrequest]
    rfl
  rw [cascaded_eq hmaster hslave, taken, ← hisr, ← hdone]
  rfl

theorem acknowledge_eq (hmaster : p.master = .programmed 32 0xFC p.master.inputs)
    (hslave : p.slave = .programmed 40 0xFF p.slave.inputs) :
    p.acknowledge = if p.waiting 0 then some (32, p.taken 0)
      else if p.waiting 1 then some (33, p.taken 1) else none := by
  have hbase : p.master.base = 32 := by rw [hmaster]; rfl
  have h0 : Function.update p.master.inputs 2 .low 0 = p.line 0 := rfl
  have h1 : Function.update p.master.inputs 2 .low 1 = p.line 1 := rfl
  unfold acknowledge waiting
  rw [congrArg Pic.request (cascaded_eq hmaster hslave), Pic.request_master, h0, h1, hbase]
  by_cases hline0 : p.line 0 = .request
  · simp [hline0, acknowledge_taken hmaster hslave (i := 0) (by decide) hline0, taken]
  · by_cases hline1 : p.line 1 = .request
    · simp [hline0, hline1, acknowledge_taken hmaster hslave (i := 1) (by decide) hline1, taken]
    · simp [hline0, hline1]

theorem line_taken : (p.taken i).line k =
    if k.val = i.val then .held else if k.val = 2 then .low else p.line k := by
  have hinput : (input k).val = k.val % 8 := rfl
  unfold line taken Pic.programmed
  dsimp only
  by_cases hk : k.val < 8
  · rw [if_pos hk, if_pos hk, Function.update_apply, Function.update_apply]
    simp only [Fin.ext_iff, hinput, Nat.mod_eq_of_lt hk]
    rfl
  · rw [if_neg hk, if_neg hk, if_neg (by omega), if_neg (by omega)]

theorem input_eq_iff (hsame : k.val < 8 ↔ n.val < 8) : input k = input n ↔ k = n := by
  rw [Fin.ext_iff, Fin.ext_iff]
  unfold input
  dsimp only
  omega

theorem line_drive (hn : n ≠ 2) (high : Bool) : (p.drive n high).line k =
    if k = n then (p.line k).drive high else p.line k := by
  have hn2 : n.val ≠ 2 := fun h => hn (Fin.ext h)
  unfold drive line Pic.drive
  rw [if_neg hn2]
  by_cases hsame : k.val < 8 ↔ n.val < 8
  · have hinput := input_eq_iff hsame
    by_cases hk : k.val < 8
    all_goals
      simp only [hk, ← hsame, if_true, if_false, Function.update_apply, hinput]
      split_ifs with h
      · rw [h]
      · rfl
  · have hne : k ≠ n := by
      rintro rfl
      exact hsame Iff.rfl
    rw [if_neg hne]
    by_cases hk : k.val < 8
    · rw [if_pos hk, if_pos hk, if_neg fun h => hsame (iff_of_true hk h)]
    · rw [if_neg hk, if_neg hk, if_pos (by_contra fun h => hsame (iff_of_false hk h))]

end Pics

end Requests

end BadOS.Kernel
