import BadOS.Kernel.FrameBudget
import BadOS.Kernel.KexImage

/-! # The frames that loading a file takes

The loader takes a frame for every page of the segments and of the stack, and one for
every table that these need. With enough of them free it gets them all.
-/

namespace BadOS.Kernel

open Kex RadixTree

namespace Machine

variable {base m m' : Machine} {slots : Set (Fin 512)} {file len : ℕ}
variable {new : List (FrameRole × ℕ)} {frames : ℕ → Option ℕ}

/-- Stores to placed pages leave the tables alone. -/
theorem Placed.sameTables (hplaced : Placed base slots file len new frames m) {mem : Memory}
    (hmem : ∀ x, (∀ n a, frames n = some a → ∀ k < 4096, x ≠ a + k) → mem x = m.mem x) :
    SameTables slots m (m.setMem mem) := by
  refine ⟨rfl, fun x hx => hmem x ?_⟩
  rintro n a hframe k hk rfl
  obtain ⟨q, hq, hnode⟩ := hx
  exact hplaced.node_ne hframe hk hq hnode

/-- The fill of a segment only writes to placed pages. -/
theorem Placed.exists_filled {s : Loader}
    (hplaced : Placed base slots file len new frames s.machine)
    (hin : Loader.InSegment base file len frames s) (hfile : Loadable base.mem slots file len)
    (hall : AllPlaced frames (segmentAt base.mem file s.i).rva
      (segmentAt base.mem file s.i).memSize) :
    ∃ mem, s.machine.fillSegment file (s.cmd file) = some (s.machine.setMem mem) ∧
      ∀ x, (∀ n a, frames n = some a → ∀ k < 4096, x ≠ a + k) → mem x = s.machine.mem x := by
  obtain ⟨mem, hfill, -, -, hkept⟩ :=
    hplaced.fillSegment (fun mem hsame => hin.segmentCmd_eq hfile hsame) hall
      (hfile.fits s.i hin.i_lt hin.isSegment) hfile.inMemory
  refine ⟨mem, hfill, fun x hx => hkept x fun k hk => ?_⟩
  obtain ⟨a, hframe⟩ := Option.isSome_iff_exists.mp (hall k hk)
  rw [phys_eq hframe]
  exact hx _ a hframe _ (Nat.mod_lt _ (by decide))

end Machine

namespace Loader

open Machine

variable {base start m : Machine} {slots : Set (Fin 512)} {file len limit total n i : ℕ}
variable {S : Finset (List (Fin 512))} {s : Loader} {mem : Memory}

/-! ## The pages of a file -/

/-- The pages that the page loop of a segment maps. -/
def pageCount (seg : SegmentCmd) : ℕ := (seg.memSize + 4095) / 4096

/-- The pages that the loader maps for command `i`. -/
def commandPages (mem : Memory) (file i : ℕ) : ℕ :=
  if IsSegment mem file i then pageCount (segmentAt mem file i) else 0

/-- The pages of the commands from `i` on. -/
def pagesFrom (mem : Memory) (file i : ℕ) : ℕ :=
  ∑ j ∈ Finset.Ico i (commandCount mem file), commandPages mem file j

/-- The tables for the pages of the segments and of the stack. -/
def fileTables (mem : Memory) (file : ℕ) : Finset (List (Fin 512)) :=
  ((Finset.range (commandCount mem file)).biUnion fun i =>
    tablesOf (fun j => (segmentAt mem file i).rva + 4096 * j) (commandPages mem file i)) ∪
      tablePaths stackPage

/-- The pages that the loader has yet to map. -/
def pagesLeft (base : Machine) (file : ℕ) (s : Loader) : ℕ :=
  match s.pc with
  | .start | .invalidMagic => pagesFrom base.mem file 0 + 1
  | .commands => pagesFrom base.mem file s.i + 1
  | .pages => commandPages base.mem file s.i - s.offset / 4096 +
      pagesFrom base.mem file (s.i + 1) + 1
  | .fill => pagesFrom base.mem file (s.i + 1) + 1
  | .pageFault | .userMode _ => 0

/-- Every page needs three tables at the most. -/
theorem fileTables_card_le (mem : Memory) (file : ℕ) :
    (fileTables mem file).card ≤ 3 * (pagesFrom mem file 0 + 1) := by
  have hsegments : ((Finset.range (commandCount mem file)).biUnion fun i =>
      tablesOf (fun j => (segmentAt mem file i).rva + 4096 * j) (commandPages mem file i)).card ≤
        ∑ i ∈ Finset.range (commandCount mem file), commandPages mem file i * 3 :=
    Finset.card_biUnion_le.trans (Finset.sum_le_sum fun i _ => tablesOf_card_le _ _)
  have hunion := Finset.card_union_le ((Finset.range (commandCount mem file)).biUnion fun i =>
    tablesOf (fun j => (segmentAt mem file i).rva + 4096 * j) (commandPages mem file i))
    (tablePaths stackPage)
  have hstack : (tablePaths stackPage).card ≤ 3 := Finset.card_le_three
  rw [← Finset.sum_mul] at hsegments
  unfold fileTables pagesFrom
  rw [Nat.Ico_zero_eq_range]
  omega

theorem pagesFrom_eq_add (hi : i < commandCount mem file) :
    pagesFrom mem file i = commandPages mem file i + pagesFrom mem file (i + 1) :=
  Finset.sum_eq_sum_Ico_succ_bot hi _

theorem pagesFrom_commandCount (mem : Memory) (file : ℕ) :
    pagesFrom mem file (commandCount mem file) = 0 := by
  rw [pagesFrom, Finset.Ico_self, Finset.sum_empty]

theorem tablePaths_subset_fileTables (hi : i < commandCount mem file) {j : ℕ}
    (hj : j < commandPages mem file i) :
    tablePaths ((segmentAt mem file i).rva + 4096 * j) ⊆ fileTables mem file := by
  refine (tablePaths_subset_tablesOf (fun j => (segmentAt mem file i).rva + 4096 * j)
    hj).trans ?_
  intro q hq
  exact Finset.mem_union_left _ (Finset.mem_biUnion.mpr ⟨i, Finset.mem_range.mpr hi, hq⟩)

theorem fileTables_subset (hfile : Loadable mem slots file len) :
    ↑(fileTables mem file) ⊆ paths slots := by
  intro q hq
  rcases Finset.mem_union.mp hq with hq | hq
  · obtain ⟨i, hi, hq⟩ := Finset.mem_biUnion.mp hq
    have hi := Finset.mem_range.mp hi
    refine tablesOf_subset_paths (fun j hj => ?_) hq
    unfold commandPages at hj
    split at hj
    next hsegment =>
      unfold pageCount at hj
      exact hfile.inSlots i hi hsegment (4096 * j) (by omega)
    next => exact absurd hj (Nat.not_lt_zero j)
  · exact tablePaths_subset_paths hfile.stack hq

section SameFile

variable {mem' : Memory} (hsame : SameFile mem mem' file len)
variable (hcommands : CommandsInside mem file len)

include hsame hcommands

theorem commandPages_of_sameFile (hi : i < commandCount mem file) :
    commandPages mem' file i = commandPages mem file i := by
  unfold commandPages
  by_cases hsegment : IsSegment mem file i
  · rw [if_pos hsegment, if_pos ((hsame.isSegment_iff hcommands hi).mpr hsegment),
      hsame.segmentAt_eq hcommands hi hsegment]
  · rw [if_neg hsegment, if_neg (mt (hsame.isSegment_iff hcommands hi).mp hsegment)]

theorem pagesFrom_of_sameFile : pagesFrom mem' file i = pagesFrom mem file i := by
  unfold pagesFrom
  rw [hsame.commandCount_eq hcommands.header]
  exact Finset.sum_congr rfl fun j hj =>
    commandPages_of_sameFile hsame hcommands (Finset.mem_Ico.mp hj).2

theorem tablesOf_of_sameFile (hi : i < commandCount mem file) :
    tablesOf (fun j => (segmentAt mem' file i).rva + 4096 * j) (commandPages mem' file i) =
      tablesOf (fun j => (segmentAt mem file i).rva + 4096 * j) (commandPages mem file i) := by
  rw [commandPages_of_sameFile hsame hcommands hi]
  by_cases hsegment : IsSegment mem file i
  · rw [hsame.segmentAt_eq hcommands hi hsegment]
  · have hnone : commandPages mem file i = 0 := if_neg hsegment
    rw [hnone, tablesOf_zero, tablesOf_zero]

theorem fileTables_of_sameFile : fileTables mem' file = fileTables mem file := by
  unfold fileTables
  rw [hsame.commandCount_eq hcommands.header, Finset.biUnion_congr rfl fun i hi =>
    tablesOf_of_sameFile hsame hcommands (Finset.mem_range.mp hi)]

end SameFile

/-! ## Steps -/

/-- What a step does to the machine: nothing, or it maps a new page for the user, or it
stores to pages that are placed. -/
theorem step_machine (hfile : Loadable base.mem slots file len) (hinv : Inv base slots file len s) :
    (step file s).machine = s.machine ∨
    (∃ role virt, slot virt 39 ∈ slots ∧
      (step file s).machine = s.machine.mapNewPage role virt 0x7) ∨
    ∃ new frames mem, Placed base slots file len new frames s.machine ∧
      (step file s).machine = s.machine.setMem mem ∧
      ∀ x, (∀ n a, frames n = some a → ∀ k < 4096, x ≠ a + k) → mem x = s.machine.mem x := by
  by_cases hhalted : Halted s
  · exact Or.inl (congrArg Loader.machine (step_of_halted hhalted))
  obtain ⟨new, frames, hplaced, hdeclared, hat⟩ := hinv
  unfold AtPc at hat
  unfold Halted at hhalted
  cases hpc : s.pc <;> simp only [hpc, not_true, not_false_eq_true] at hat hhalted
  case start =>
    left
    unfold step stepWith
    rw [hpc]
    dsimp only
    split <;> rfl
  case commands =>
    by_cases hi : s.i < commandCount s.machine.mem file
    · left
      by_cases htype : headType s.machine.mem (s.cmd file) = cmdSegment
      · rw [step_segment hpc hi htype]
      · rw [step_otherCommand hpc hi htype]
        rfl
    · right
      left
      exact ⟨.stack, stackPage, hfile.stack, congrArg Loader.machine (step_lastCommand hpc hi)⟩
  case pages =>
    obtain ⟨hin, t, hoffset, hbound, -⟩ := hat
    have hseg := hin.segmentCmd_eq hfile hplaced.file_eq
    by_cases hmore : s.offset < (segmentAt base.mem file s.i).memSize
    · have hhere := hfile.canonical s.i hin.i_lt hin.isSegment s.offset hmore
      have haddr : ((segmentAt base.mem file s.i).rva + s.offset) % 2 ^ 64 =
          (segmentAt base.mem file s.i).rva + s.offset := by
        unfold Canonical at hhere
        exact Nat.mod_eq_of_lt (by omega)
      right
      left
      rw [step_nextPage hpc (by rwa [hseg]), hseg, mapSegmentPage, haddr]
      exact ⟨.segment, _, hfile.inSlots s.i hin.i_lt hin.isSegment s.offset hmore, rfl⟩
    · left
      rw [step_pagesEnd hpc (by rwa [hseg])]
  case fill =>
    obtain ⟨hin, hall⟩ := hat
    obtain ⟨mem, hfill, hkept⟩ := hplaced.exists_filled hin hfile hall
    right
    right
    exact ⟨new, frames, mem, hplaced, congrArg Loader.machine (step_filled hpc hfill), hkept⟩

section Steps

variable (hsupplies : Supplies base slots limit) (hS : ↑S ⊆ paths slots)
variable (hfile : Loadable start.mem slots file len) (htables : fileTables start.mem file ⊆ S)

include hsupplies hS hfile htables

/-- A page that is mapped is one less to be mapped, and no other step takes frames. -/
theorem step_stocked (hinv : Inv start slots file len s)
    (hstocked : Stocked base slots S total (pagesLeft start file s) s.machine)
    (hserved : Served limit total (step file s).machine) :
    Stocked base slots S total (pagesLeft start file (step file s)) (step file s).machine := by
  by_cases hhalted : Halted s
  · rw [step_of_halted hhalted]
    exact hstocked
  obtain ⟨new, frames, hplaced, hdeclared, hat⟩ := hinv
  have hcount := hplaced.file_eq.commandCount_eq hfile.header
  unfold AtPc at hat
  unfold Halted at hhalted
  unfold pagesLeft at hstocked
  cases hpc : s.pc <;> simp only [hpc, not_true, not_false_eq_true] at hat hhalted hstocked
  case start =>
    unfold step stepWith
    rw [hpc]
    dsimp only
    split <;> exact hstocked
  case commands =>
    by_cases hi : s.i < commandCount start.mem file
    · rw [pagesFrom_eq_add hi] at hstocked
      by_cases htype : headType start.mem (commandAt start.mem file s.i) = cmdSegment
      · rw [step_segment hpc (hcount.symm ▸ hi) (by rwa [hat.headType_eq hplaced.file_eq hfile hi])]
        unfold pagesLeft
        dsimp only
        rw [Nat.zero_div, Nat.sub_zero]
        exact hstocked
      · have hnone : commandPages start.mem file s.i = 0 := if_neg htype
        rw [hnone, Nat.zero_add] at hstocked
        rw [step_otherCommand hpc (hcount.symm ▸ hi)
          (by rwa [hat.headType_eq hplaced.file_eq hfile hi])]
        exact hstocked
    · have hlast : s.i = commandCount start.mem file := by
        have := hat.i_le
        omega
      have hstep : step file s = _ := step_lastCommand hpc (by rwa [hcount])
      rw [hlast, pagesFrom_commandCount] at hstocked
      rw [hstep] at hserved ⊢
      exact hstocked.mapNewPage hsupplies hS (Finset.union_subset_right htables) hfile.stack
        .stack 0x7 hserved
  case pages =>
    obtain ⟨hin, t, hoffset, hbound, -⟩ := hat
    have hseg := hin.segmentCmd_eq hfile hplaced.file_eq
    have hpages : commandPages start.mem file s.i = pageCount (segmentAt start.mem file s.i) :=
      if_pos hin.isSegment
    by_cases hmore : s.offset < (segmentAt start.mem file s.i).memSize
    · have hstep : step file s = _ := step_nextPage hpc (by rwa [hseg])
      rw [hseg] at hstep
      have hhere := hfile.canonical s.i hin.i_lt hin.isSegment s.offset hmore
      have hsize := size_le_of_canonical (hfile.canonical s.i hin.i_lt hin.isSegment)
      have hslot := hfile.inSlots s.i hin.i_lt hin.isSegment s.offset hmore
      have haddr : ((segmentAt start.mem file s.i).rva + s.offset) % 2 ^ 64 =
          (segmentAt start.mem file s.i).rva + s.offset := by
        unfold Canonical at hhere
        exact Nat.mod_eq_of_lt (by omega)
      have ht : t < commandPages start.mem file s.i := by
        rw [hpages, pageCount]
        omega
      have hleft : commandPages start.mem file s.i - s.offset / 4096 =
          commandPages start.mem file s.i - (s.offset + 4096) % 2 ^ 64 / 4096 + 1 := by
        rw [Nat.mod_eq_of_lt (by omega)]
        omega
      have hpaths : tablePaths ((segmentAt start.mem file s.i).rva + s.offset) ⊆ S := by
        rw [hoffset]
        exact (tablePaths_subset_fileTables hin.i_lt ht).trans htables
      rw [hleft, Nat.add_right_comm _ 1, Nat.add_right_comm _ 1] at hstocked
      rw [hstep, mapSegmentPage, haddr] at hserved ⊢
      unfold pagesLeft
      dsimp only at hserved ⊢
      rw [hpc]
      exact hstocked.mapNewPage hsupplies hS hpaths hslot .segment 0x7 hserved
    · have hstep : step file s = _ := step_pagesEnd hpc (by rwa [hseg])
      have hdone : commandPages start.mem file s.i - s.offset / 4096 = 0 := by
        rw [hpages, pageCount]
        omega
      rw [hdone, Nat.zero_add] at hstocked
      rw [hstep]
      exact hstocked
  case fill =>
    obtain ⟨hin, hall⟩ := hat
    obtain ⟨mem, hfill, hkept⟩ := hplaced.exists_filled hin hfile hall
    rw [step_filled hpc hfill]
    exact hstocked.sameTables hS (hplaced.sameTables hkept) rfl rfl

/-- In every state of a run the frames still needed are those for the pages left. -/
theorem run_stocked (hready : Ready start slots file len)
    (halloc : ∀ m, Allocs start m → m.NeverNull → Allocates start slots file len m)
    (hstocked : Stocked base slots S total (pagesFrom start.mem file 0 + 1) start) (n : ℕ)
    (hserved : Served limit total (run file start n).machine) :
    Inv start slots file len (run file start n) ∧
      Stocked base slots S total (pagesLeft start file (run file start n))
        (run file start n).machine := by
  induction n with
  | zero => exact ⟨⟨[], _, hready.placed, fun _ _ h => (nomatch h), trivial⟩, hstocked⟩
  | succ n ih =>
      have hallocs := run_allocs file start (Nat.zero_le (n + 1))
      rw [run_succ] at hserved hallocs ⊢
      obtain ⟨hinv, hbefore⟩ := ih (hserved.of_allocs (step_allocs file _))
      have hnext := step_stocked hsupplies hS hfile htables hinv hbefore hserved
      have hnull := hnext.neverNull hsupplies hserved
      exact ⟨step_inv hready hfile hinv (halloc _ hallocs hnull), hnext⟩

end Steps

/-- With enough free frames behind the tables, the loader gets all its frames. -/
theorem allocates_of_freeFrom {first : ℕ} (hfree : FreeFrom base first)
    (hgranted : base.granted = [])
    (htables : ∀ q ∈ paths slots, ∀ f, base.node q = some f → f < first)
    (hready : Ready base slots file len) (hfile : Loadable base.mem slots file len)
    (hbehind : 4096 * base.pmm.maxBlocks ≤ file)
    (henough : first + base.missing (fileTables base.mem file) + (pagesFrom base.mem file 0 + 1) ≤
      base.pmm.maxBlocks) (n : ℕ) :
    Allocates base slots file len (run file base n).machine := by
  have hsupplies := hfree.supplies hgranted (by omega) htables
  have halloc : ∀ m, Allocs base m → m.NeverNull → Allocates base slots file len m := by
    intro m hallocs hnull
    obtain ⟨new, hnew⟩ := hallocs.granted
    refine .of_granted hnew.symm (hsupplies.fresh m hallocs hnull new hnew.symm) fun g hg => ?_
    obtain ⟨i, hi, haddr, -⟩ := hfree.granted_frame hgranted hallocs hnull
      (hnew ▸ List.mem_append_left _ hg)
    exact Or.inl (by omega)
  have hstart : Stocked base slots (fileTables base.mem file)
      (base.missing (fileTables base.mem file) + (pagesFrom base.mem file 0 + 1))
      (pagesFrom base.mem file 0 + 1) base :=
    ⟨.refl rfl rfl, ⟨[], .refl hready.tree⟩, by rw [hgranted, List.length_nil, Nat.zero_add]⟩
  have hserved : base.missing (fileTables base.mem file) + (pagesFrom base.mem file 0 + 1) ≤
      base.pmm.maxBlocks - first := by omega
  obtain ⟨-, hstocked⟩ := run_stocked hsupplies (fileTables_subset hfile) hfile subset_rfl hready
    halloc hstart n (Or.inl hserved)
  exact halloc _ (run_allocs file base (Nat.zero_le n))
    (hstocked.neverNull hsupplies (Or.inl hserved))

end Loader

end BadOS.Kernel
