import BadOS.Kernel.LoaderBudget

/-! # The image of a loaded file

At the jump to user mode the address space holds what the file declares.
-/

namespace BadOS.Kernel

open Kex Machine RadixTree

namespace Loader

variable {base : Machine} {slots : Set (Fin 512)} {file len : ℕ}

/-- The image a file declares: the address and the bytes of each segment, in the
order of the commands. -/
def declaredImage (mem : Memory) (file : ℕ) : List (ℕ × List UInt8) :=
  ((List.range (commandCount mem file)).filter fun i => IsSegment mem file i).map fun i =>
    ((segmentAt mem file i).rva, (List.range (segmentAt mem file i).memSize).map
      (imageByte mem file (segmentAt mem file i)))

/-- Loading a file reaches user mode at its entry point with the stack mapped and
with every segment holding the bytes of the file followed by zeros. A command
of another type changes no part of the machine, and files that declare the same
image load the same image. -/
theorem Loads.run_image (hloads : Loads base slots file len) :
    (∃ n entryPoint, (run file base n).pc = .userMode entryPoint) ∧
    (∀ n entryPoint, (run file base n).pc = .userMode entryPoint →
      entryPoint = entryRva base.mem file ∧
      (∃ a, (run file base n).machine.MapsTo 0x7FF000 a) ∧
      ∀ i < commandCount base.mem file, IsSegment base.mem file i →
        ∀ j < (segmentAt base.mem file i).memSize,
          (run file base n).machine.readByte ((segmentAt base.mem file i).rva + j) =
            some (if j < (segmentAt base.mem file i).fileSize then
              base.mem (file + (segmentAt base.mem file i).fileOffset + j) else 0)) ∧
    (∀ s : Loader, s.pc = .commands → s.i < commandCount s.machine.mem file →
      headType s.machine.mem (s.cmd file) ≠ cmdSegment →
      (step file s).pc = .commands ∧ (step file s).machine = s.machine) ∧
    ∀ base' slots' file' len', Loads base' slots' file' len' →
      declaredImage base'.mem file' = declaredImage base.mem file →
      ∀ n n' e e', (run file base n).pc = .userMode e → (run file' base' n').pc = .userMode e' →
      ∀ part ∈ declaredImage base.mem file, ∀ j < part.2.length,
        (run file' base' n').machine.readByte (part.1 + j) =
          (run file base n).machine.readByte (part.1 + j) := by
  have hdeclared : ∀ (base : Machine) (slots : Set (Fin 512)) (file len : ℕ),
      Loads base slots file len → ∀ n e, (run file base n).pc = .userMode e →
      ∀ part ∈ declaredImage base.mem file, ∀ j < part.2.length,
        (run file base n).machine.readByte (part.1 + j) = part.2[j]? := by
    intro base slots file len hloads n e hpc part hpart j hj
    unfold declaredImage at hpart
    obtain ⟨i, hi, rfl⟩ := List.mem_map.mp hpart
    obtain ⟨hrange, hsegment⟩ := List.mem_filter.mp hi
    dsimp only at hj ⊢
    rw [List.length_map, List.length_range] at hj
    rw [hloads.readByte_eq hpc (List.mem_range.mp hrange) (of_decide_eq_true hsegment) hj,
      List.getElem?_map, List.getElem?_range hj]
    rfl
  refine ⟨exists_userMode hloads.ready hloads.loadable hloads.magic hloads.allocates, ?_, ?_, ?_⟩
  · intro n entryPoint hpc
    obtain ⟨hentry, hstack⟩ := hloads.stack_mapped hpc
    rw [show stackPage = 0x7FF000 from rfl] at hstack
    refine ⟨hentry, hstack, fun i hi hsegment j hj => ?_⟩
    rw [hloads.readByte_eq hpc hi hsegment hj, imageByte]
  · intro s hpc hi hother
    rw [step_otherCommand hpc hi hother]
    exact ⟨rfl, rfl⟩
  · intro base' slots' file' len' hloads' himage n n' e e' hpc hpc' part hpart j hj
    have hpart' : part ∈ declaredImage base'.mem file' := by rwa [himage]
    rw [hdeclared base slots file len hloads n e hpc part hpart j hj,
      hdeclared base' slots' file' len' hloads' n' e' hpc' part hpart' j hj]

/-! ## Files behind low tables -/

/-- Tables in frames 1 to 4 lead to the page table of the 2 MiB at 0x600000. The frames
from 5 on are free, and behind them, at 0x10000, is a file. -/
def lowTables (content : ℕ → UInt8) : Machine where
  mem x :=
    if x < 0x10000 then
      ([(0x1000, 0x07), (0x1001, 0x20), (0x2000, 0x07), (0x2001, 0x30), (0x3018, 0x07),
        (0x3019, 0x40)].lookup x).getD 0
    else content (x - 0x10000)
  cr3 := 0x1000
  pmm :=
    { mem := fun x => if x = 0 then 31 else 0, pmmBitmap := 0, usedBlocks := 5, maxBlocks := 16 }
  granted := []

variable {content : ℕ → UInt8}

theorem lowTables_tables {f : ℕ} (hf : f < 16) (i : Fin 512) :
    tables (lowTables content).mem f i = tables (lowTables fun _ => 0).mem f i := by
  apply Memory.load_congr
  intro k hk
  have hi := i.isLt
  have hlow : 4096 * f + 8 * i + k < 0x10000 := by omega
  exact (if_pos hlow).trans (if_pos hlow).symm

/-- All entries are absent except the three that link the tables. -/
theorem lowTables_absent {f : ℕ} {i : Fin 512} (hf : f < 16)
    (h : 4096 * f + 8 * i ≠ 0x1000 ∧ 4096 * f + 8 * i ≠ 0x2000 ∧ 4096 * f + 8 * i ≠ 0x3018) :
    tables (lowTables content).mem f i = 0 := by
  have hi := i.isLt
  have hbytes : ∀ k < 8, (lowTables content).mem (4096 * f + 8 * i + k) =
      UInt8.ofNat (0 / 256 ^ k) := by
    intro k hk
    have hlookup : [(0x1000, (0x07 : UInt8)), (0x1001, 0x20), (0x2000, 0x07), (0x2001, 0x30),
        (0x3018, 0x07), (0x3019, 0x40)].lookup (4096 * f + 8 * i + k) = none := by
      rw [List.lookup_eq_none_iff]
      intro p hp
      simp only [List.mem_cons, List.not_mem_nil, or_false] at hp
      rcases hp with rfl | rfl | rfl | rfl | rfl | rfl <;> exact bne_iff_ne.mpr (by omega)
    unfold lowTables
    dsimp only
    rw [if_pos (by omega), hlookup, Nat.zero_div]
    rfl
  exact (Memory.load_eq_of_bytes hbytes).trans (Nat.zero_mod _)

theorem lowTables_chain :
    Chain childFrame (tables (lowTables content).mem) 1 [(0, 2), (0, 3), (3, 4)] := by
  refine ⟨fun i => ?_, fun i => ?_, fun i => ?_, fun i => ?_⟩
  · split
    next hi =>
      rw [hi, lowTables_tables (by decide)]
      decide
    next hi => rw [lowTables_absent (by decide) (by omega), childFrame_zero]
  · split
    next hi =>
      rw [hi, lowTables_tables (by decide)]
      decide
    next hi => rw [lowTables_absent (by decide) (by omega), childFrame_zero]
  · split
    next hi =>
      rw [hi, lowTables_tables (by decide)]
      decide
    next hi => rw [lowTables_absent (by decide) (by omega), childFrame_zero]
  · rw [lowTables_absent (by decide) (by omega), childFrame_zero]

theorem lowTables_root : (lowTables content).root = 1 := (by decide : frameOf 0x1000 = 1)

theorem lowTables_node {q : List (Fin 512)} {f : ℕ} (hnode : (lowTables content).node q = some f) :
    (q, f) ∈ [([], 1), ([0], 2), ([0, 0], 3), ([0, 0, 3], (4 : ℕ))] := by
  unfold Machine.node at hnode
  rw [lowTables_root] at hnode
  exact lowTables_chain.node_mem hnode

theorem lowTables_node_lt {q : List (Fin 512)} {f : ℕ}
    (hnode : (lowTables content).node q = some f) : f < 5 := by
  have hpair := lowTables_node hnode
  simp only [List.mem_cons, List.not_mem_nil, or_false, Prod.mk.injEq] at hpair
  omega

theorem lowTables_tree : (lowTables content).TreeOn slots := by
  have hsmall : ∀ i : Fin 512, isLarge (tables (lowTables content).mem 2 i) = false ∧
      isLarge (tables (lowTables content).mem 3 i) = false := by
    intro i
    constructor
    · by_cases hi : i = 0
      · rw [hi, lowTables_tables (by decide)]
        decide
      · rw [lowTables_absent (by decide) (by omega)]
        rfl
    · by_cases hi : i = 3
      · rw [hi, lowTables_tables (by decide)]
        decide
      · rw [lowTables_absent (by decide) (by omega)]
        rfl
  constructor
  · rw [lowTables_root]
    exact lowTables_chain.isTree (by decide)
  · intro p hp hne hlength f hpf i _
    have hpair := lowTables_node hpf
    simp only [List.mem_cons, List.not_mem_nil, or_false, Prod.mk.injEq] at hpair
    rcases hpair with ⟨rfl, rfl⟩ | ⟨rfl, rfl⟩ | ⟨rfl, rfl⟩ | ⟨rfl, rfl⟩
    · exact absurd rfl hne
    · exact (hsmall i).1
    · exact (hsmall i).2
    · exact absurd hlength (by decide)

theorem lowTables_ready (hfile : 0x5000 ≤ file) : Ready (lowTables content) slots file len := by
  refine ⟨lowTables_tree, fun q hq f hf => ?_⟩
  have := lowTables_node_lt hf
  unfold Apart
  omega

theorem lowTables_freeFrom : FreeFrom (lowTables content) 5 := by
  refine ⟨by decide, show 16 < 2 ^ 31 by decide, ?_⟩
  have hall : ∀ i < 16, (lowTables fun _ => 0).pmm.isUsed (i : ℕ) = decide (i < 5) := by
    decide +kernel
  exact hall

/-- The tables for the 2 MiB are there. -/
theorem lowTables_present {virt : ℕ} (hlo : 0x600000 ≤ virt) (hhi : virt < 0x800000)
    {q : List (Fin 512)} (hq : q ∈ tablePaths virt) : (lowTables content).node q ≠ none := by
  have hchain : Chain childFrame (tables (lowTables content).mem) 1 _ := lowTables_chain
  obtain ⟨hpml4, hpdpt, hpd, -⟩ := hchain
  have hslots : slot virt 39 = 0 ∧ slot virt 30 = 0 ∧ slot virt 21 = 3 := by
    simp only [slot, Fin.ext_iff, index_eq]
    change virt / 2 ^ 39 % 512 = 0 ∧ virt / 2 ^ 30 % 512 = 0 ∧ virt / 2 ^ 21 % 512 = 3
    omega
  obtain ⟨h39, h30, h21⟩ := hslots
  simp only [tablePaths, pathTo, h39, h30, h21, Finset.mem_insert, Finset.mem_singleton] at hq
  unfold Machine.node
  rw [lowTables_root]
  rcases hq with rfl | rfl | rfl <;>
    simp only [RadixTree.node, hpml4, hpdpt, hpd, if_true, Option.bind_some] <;>
    exact Option.some_ne_none _

/-- Segments, each with its command, on whole pages of the 2 MiB below the stack, one
behind the other. -/
def InOrder (segs : List (ℕ × SegmentCmd)) (len : ℕ) : Prop :=
  (∀ p ∈ segs, p.2.rva % 4096 = 0 ∧ 0x600000 ≤ p.2.rva ∧ p.2.rva + p.2.memSize ≤ stackPage ∧
    p.2.fileSize ≤ p.2.memSize ∧ p.2.fileOffset + p.2.fileSize ≤ len) ∧
  segs.Pairwise fun p q => p.1 < q.1 ∧ p.2.rva + p.2.memSize ≤ q.2.rva

instance (segs : List (ℕ × SegmentCmd)) (len : ℕ) : Decidable (InOrder segs len) :=
  inferInstanceAs (Decidable (_ ∧ _))

variable {segs : List (ℕ × SegmentCmd)}

theorem InOrder.apart (horder : InOrder segs len) {p q : ℕ × SegmentCmd} (hp : p ∈ segs)
    (hq : q ∈ segs) (hne : p.1 ≠ q.1) :
    p.2.rva + p.2.memSize ≤ q.2.rva ∨ q.2.rva + q.2.memSize ≤ p.2.rva := by
  have hall := List.Pairwise.forall_of_forall_of_flip
    (R := fun p q : ℕ × SegmentCmd => p.1 ≠ q.1 →
      p.2.rva + p.2.memSize ≤ q.2.rva ∨ q.2.rva + q.2.memSize ≤ p.2.rva)
    (fun _ _ hne => absurd rfl hne) (horder.2.imp fun h _ => Or.inl h.2)
    (horder.2.imp fun h _ => Or.inr h.2)
  exact hall hp hq hne

section Files

variable (hcommands : CommandsInside (lowTables content).mem 0x10000 len)
variable (hsegs : ∀ i < commandCount (lowTables content).mem 0x10000,
  IsSegment (lowTables content).mem 0x10000 i →
  (i, segmentAt (lowTables content).mem 0x10000 i) ∈ segs)
variable (horder : InOrder segs len)

include hsegs horder

theorem lowTables_place {i : ℕ} (hi : i < commandCount (lowTables content).mem 0x10000)
    (hsegment : IsSegment (lowTables content).mem 0x10000 i) :
    (segmentAt (lowTables content).mem 0x10000 i).rva % 4096 = 0 ∧
    0x600000 ≤ (segmentAt (lowTables content).mem 0x10000 i).rva ∧
    (segmentAt (lowTables content).mem 0x10000 i).rva +
      (segmentAt (lowTables content).mem 0x10000 i).memSize ≤ 0x7FF000 ∧
    (segmentAt (lowTables content).mem 0x10000 i).fileSize ≤
      (segmentAt (lowTables content).mem 0x10000 i).memSize ∧
    (segmentAt (lowTables content).mem 0x10000 i).fileOffset +
      (segmentAt (lowTables content).mem 0x10000 i).fileSize ≤ len := by
  have hplace := horder.1 _ (hsegs i hi hsegment)
  unfold stackPage at hplace
  exact hplace

include hcommands

theorem lowTables_loadable : Loadable (lowTables content).mem {0} 0x10000 len := by
  have hslot : ∀ virt < 2 ^ 39, slot virt 39 ∈ ({0} : Set (Fin 512)) := by
    intro virt hvirt
    apply Fin.ext
    change index virt 39 = 0
    rw [index_eq]
    omega
  have hplace := fun i hi hsegment => lowTables_place (i := i) hsegs horder hi hsegment
  refine ⟨hcommands, fun i hi hsegment => (hplace i hi hsegment).1,
    fun i hi hsegment => (hplace i hi hsegment).2.2.2.1, fun i hi hsegment k hk => ?_,
    fun i hi hsegment k hk => ?_, fun i hi hsegment j hj hsegment' hne k hk l hl => ?_,
    hslot _ (by decide)⟩
  · have := hplace i hi hsegment
    exact Or.inl (by omega)
  · have := hplace i hi hsegment
    exact hslot _ (by omega)
  · have hhere := hplace i hi hsegment
    have hthere := hplace j hj hsegment'
    have hapart := horder.apart (hsegs i hi hsegment) (hsegs j hj hsegment') hne
    dsimp only at hhere hthere hapart
    omega

/-- Such a file gets its frames, and is loaded. -/
theorem lowTables_loads (hmagic : validMagic (lowTables content).mem 0x10000 = true)
    (hpages : pagesFrom (lowTables content).mem 0x10000 0 ≤ 10) :
    Loads (lowTables content) {0} 0x10000 len := by
  have hload := lowTables_loadable hcommands hsegs horder
  have hready : Ready (lowTables content) {0} 0x10000 len := lowTables_ready (by decide)
  have hplace := fun i hi hsegment => lowTables_place (i := i) hsegs horder hi hsegment
  have hmax : (lowTables content).pmm.maxBlocks = 16 := rfl
  have hmissing : (lowTables content).missing
      (fileTables (lowTables content).mem 0x10000) = 0 := by
    refine missing_eq_zero fun q hq => ?_
    rcases Finset.mem_union.mp hq with hq | hq
    · obtain ⟨i, hi, hq⟩ := Finset.mem_biUnion.mp hq
      obtain ⟨j, hj, hq⟩ := mem_tablesOf.mp hq
      unfold commandPages at hj
      split at hj
      next hsegment =>
        have := hplace i (Finset.mem_range.mp hi) hsegment
        unfold pageCount at hj
        exact lowTables_present (by omega) (by omega) hq
      next => exact absurd hj (Nat.not_lt_zero j)
    · exact lowTables_present (by decide) (by decide) hq
  refine ⟨hready, hload, hmagic, fun i hi hsegment => (hplace i hi hsegment).2.2.2.2,
    fun i hi hsegment k hk => ?_, allocates_of_freeFrom lowTables_freeFrom rfl
      (fun q hq f hf => lowTables_node_lt hf) hready hload (by rw [hmax]) (by omega)⟩
  have := hplace i hi hsegment
  unfold stackNumber
  omega

end Files

/-- Frames granted behind the tables and before the file. -/
theorem lowTables_allocates {m : Machine} {new : List (FrameRole × ℕ)}
    (hgranted : m.granted = new) (hnodup : (new.map Prod.snd).Nodup)
    (hframes : ∀ g ∈ new, g.2 % 4096 = 0 ∧ 0x5000 ≤ g.2 ∧ g.2 + 4096 ≤ 0x10000)
    (hfile : 0x10000 ≤ file) : Allocates (lowTables content) slots file len m := by
  have hlog : m.granted = new ++ (lowTables content).granted :=
    hgranted.trans (List.append_nil new).symm
  refine .of_granted hlog ⟨hnodup, fun g hg => ?_⟩ fun g hg => ?_
  · have := hframes g hg
    refine ⟨⟨by omega, by omega, by omega⟩, fun q hq hnode => ?_⟩
    have := lowTables_node_lt hnode
    omega
  · have := hframes g hg
    exact Or.inl (by omega)

/-- A KEX file: a segment of 4098 bytes at 0x601000, the first one given, an integrity
command, and a segment of three bytes at 0x603000, two of them given. -/
def twoSegmentsFile (k : ℕ) : UInt8 :=
  ([(0, 0x4B), (1, 0x45), (2, 0x58), (8, 3), (17, 0x10), (18, 0x60), (24, 56), (56, 1), (60, 64),
    (73, 0x10), (74, 0x60), (80, 2), (81, 0x10), (88, 224), (96, 1), (120, 6), (124, 40), (160, 1),
    (164, 64), (177, 0x30), (178, 0x60), (184, 3), (192, 225), (200, 2), (224, 0xAB), (225, 0xCD),
    (226, 0xEF)].lookup k).getD 0

def twoSegments : Machine := lowTables twoSegmentsFile

theorem twoSegments_segments : commandCount twoSegments.mem 0x10000 = 3 ∧
    segmentAt twoSegments.mem 0x10000 0 = ⟨0, 0, 0x601000, 4098, 224, 1, 0⟩ ∧
    ¬ IsSegment twoSegments.mem 0x10000 1 ∧
    segmentAt twoSegments.mem 0x10000 2 = ⟨0, 0, 0x603000, 3, 225, 2, 0⟩ := by
  decide

theorem twoSegments_loads : Loads twoSegments {0} 0x10000 227 := by
  obtain ⟨hcount, hfirst, hother, hlast⟩ := twoSegments_segments
  have hinside : ∀ i < 3, commandOffset twoSegments.mem 0x10000 i + 64 ≤ 227 := by decide
  have hsegs : ∀ i < commandCount twoSegments.mem 0x10000, IsSegment twoSegments.mem 0x10000 i →
      (i, segmentAt twoSegments.mem 0x10000 i) ∈
        [(0, ⟨0, 0, 0x601000, 4098, 224, 1, 0⟩), (2, ⟨0, 0, 0x603000, 3, 225, 2, 0⟩)] := by
    rw [hcount]
    intro i hi hsegment
    interval_cases i
    · simp [hfirst]
    · exact absurd hsegment hother
    · simp [hlast]
  refine lowTables_loads ⟨by decide, by decide, fun i hi => ?_, fun i hi _ => ?_⟩ hsegs
    (by decide) (by decide) (by decide)
  · exact (Nat.add_le_add_left (by decide) _).trans (hinside i (lt_of_lt_of_eq hi hcount))
  · exact hinside i (lt_of_lt_of_eq hi hcount)

theorem twoSegments_image : ∃ n, (run 0x10000 twoSegments n).pc = .userMode 0x601000 ∧
    (run 0x10000 twoSegments n).machine.readByte 0x601000 = some 0xAB ∧
    (run 0x10000 twoSegments n).machine.readByte 0x602001 = some 0 ∧
    (run 0x10000 twoSegments n).machine.readByte 0x603001 = some 0xEF ∧
    (run 0x10000 twoSegments n).machine.readByte 0x603002 = some 0 := by
  obtain ⟨⟨n, entryPoint, hpc⟩, himage, -⟩ := twoSegments_loads.run_image
  obtain ⟨hentry, -, hbytes⟩ := himage n entryPoint hpc
  obtain ⟨hcount, hfirst, -, hlast⟩ := twoSegments_segments
  have hentry' : entryRva twoSegments.mem 0x10000 = 0x601000 := by decide
  have hdata : twoSegments.mem (0x10000 + 224 + 0) = 0xAB ∧
      twoSegments.mem (0x10000 + 225 + 1) = 0xEF := by decide
  have hbytes₀ := hbytes 0 (by rw [hcount]; decide) (by decide)
  have hbytes₂ := hbytes 2 (by rw [hcount]; decide) (by decide)
  rw [hfirst] at hbytes₀
  rw [hlast] at hbytes₂
  refine ⟨n, by rw [hpc, hentry, hentry'], ?_, hbytes₀ 4097 (by decide), ?_,
    hbytes₂ 2 (by decide)⟩
  · exact (hbytes₀ 0 (by decide)).trans (congrArg some hdata.1)
  · exact (hbytes₂ 1 (by decide)).trans (congrArg some hdata.2)

end Loader

end BadOS.Kernel
