import BadOS.Kernel.LoadedImage

/-! # What loading a segment leaves alone

Segments are byte ranges, but the loader maps whole pages and always takes a
fresh frame. A later segment keeps an earlier one as long as none of the pages
mapped for it contains a byte of the earlier one.
-/

namespace BadOS.Kernel

open Kex

namespace Machine

variable {base m m' : Machine} {slots : Set (Fin 512)} {new : List (FrameRole × ℕ)}
variable {frames frames' : ℕ → Option ℕ} {file len virt size : ℕ} {byte : Memory → ℕ → UInt8}

/-- Pages that are not placed have the translation they had in `base`. -/
theorem Placed.translate_unplaced (hready : Ready base slots file len)
    (hplaced : Placed base slots file len new frames m) (hslot : slot virt 39 ∈ slots)
    (hframe : frames (virt / 4096) = none) : m.translate virt = base.translate virt := by
  unfold Machine.translate
  by_cases hcanonical : Canonical virt
  · rw [if_pos hcanonical, if_pos hcanonical, walk_eq_lookup hplaced.grown.tree hslot,
      walk_eq_lookup hready.tree hslot, hplaced.kept _ (mem_paths_of_slot hslot).2.2 rfl]
    intro n a hn hpage
    have hsame := page_eq_iff.mpr hpage
    rw [page_eq_of_div virt] at hsame
    have hdiv := page_injective (canonical_page hcanonical) (hplaced.canonical n a hn) hsame
    rw [hdiv, hn] at hframe
    cases hframe
  · rw [if_neg hcanonical, if_neg hcanonical]

theorem storeBytes_prefix {k : ℕ} (hk : k ≤ size)
    (hstore : (m.storeBytes virt byte size).isSome) : (m.storeBytes virt byte k).isSome := by
  induction size with
  | zero =>
      rw [Nat.le_zero.mp hk]
      exact hstore
  | succ size ih =>
      rcases Nat.le_succ_iff.mp hk with hle | rfl
      · apply ih hle
        rw [storeBytes] at hstore
        exact Option.isSome_of_isSome_bind hstore
      · exact hstore

/-- A store loop that runs to its end has stored to placed pages only, when the
others are not mapped. -/
theorem Placed.allPlaced_of_storeBytes (hready : Ready base slots file len)
    (hplaced : Placed base slots file len new frames m)
    (hslot : ∀ k < size, slot (virt + k) 39 ∈ slots)
    (hunmapped : ∀ k < size, base.translate (virt + k) = none)
    (hstore : (m.storeBytes virt byte size).isSome) (hnowrap : virt + size ≤ 2 ^ 64) :
    AllPlaced frames virt size := by
  intro k hk
  induction k using Nat.strong_induction_on with
  | _ k ih =>
      rw [Option.isSome_iff_ne_none]
      intro hframe
      have hbefore : AllPlaced frames virt k := fun j hj => ih j hj (by omega)
      obtain ⟨mem, hpre, hplaced', -⟩ := hplaced.storeBytes byte hbefore
      have hnext := storeBytes_prefix (show k + 1 ≤ size by omega) hstore
      have haddr : (virt + k) % 2 ^ 64 = virt + k := Nat.mod_eq_of_lt (by omega)
      rw [Machine.storeBytes, hpre, Option.bind_some, writeByte, haddr,
        hplaced'.translate_unplaced hready (hslot k hk) hframe, hunmapped k hk] at hnext
      cases hnext

/-- A byte reads the same when its page and the byte behind it are the same. -/
theorem Placed.readByte_eq (hready : Ready base slots file len)
    (hplaced : Placed base slots file len new frames m) {new' : List (FrameRole × ℕ)}
    (hplaced' : Placed base slots file len new' frames' m') (hslot : slot virt 39 ∈ slots)
    (hunmapped : base.translate virt = none)
    (hframes : frames' (virt / 4096) = frames (virt / 4096))
    (hmem : ∀ a, frames (virt / 4096) = some a →
      m'.mem (a + virt % 4096) = m.mem (a + virt % 4096)) :
    m'.readByte virt = m.readByte virt := by
  unfold readByte
  cases hframe : frames (virt / 4096) with
  | none =>
      rw [hplaced.translate_unplaced hready hslot hframe,
        hplaced'.translate_unplaced hready hslot (hframes.trans hframe), hunmapped]
      rfl
  | some a =>
      rw [hplaced.translate hframe, hplaced'.translate (hframes.trans hframe), Option.map_some,
        Option.map_some, hmem a hframe]

end Machine

open Machine

/-- Segments with disjoint byte ranges below the stack page, at any alignment. -/
structure ByteDisjoint (mem : Memory) (file len : ℕ) : Prop extends
    CommandsInside mem file len where
  fits : ∀ i < commandCount mem file, IsSegment mem file i →
    (segmentAt mem file i).fileSize ≤ (segmentAt mem file i).memSize
  below : ∀ i < commandCount mem file, IsSegment mem file i →
    (segmentAt mem file i).rva + (segmentAt mem file i).memSize ≤ Loader.stackPage
  disjoint : ∀ i < commandCount mem file, IsSegment mem file i →
    ∀ j < commandCount mem file, IsSegment mem file j → i ≠ j →
    ∀ k < (segmentAt mem file i).memSize, ∀ l < (segmentAt mem file j).memSize,
      (segmentAt mem file i).rva + k ≠ (segmentAt mem file j).rva + l

/-- No page mapped for a segment contains a byte of an earlier one. -/
def PageApart (mem : Memory) (file : ℕ) : Prop :=
  ∀ i < commandCount mem file, IsSegment mem file i →
    ∀ j < commandCount mem file, IsSegment mem file j → i < j →
    ∀ k < (segmentAt mem file i).memSize, ∀ offset < (segmentAt mem file j).memSize,
      offset % 4096 = 0 →
      ((segmentAt mem file i).rva + k) / 4096 ≠ ((segmentAt mem file j).rva + offset) / 4096

namespace Loader

variable {base m : Machine} {slots : Set (Fin 512)} {file len i k : ℕ} {s : Loader}
variable {frames : ℕ → Option ℕ} {new : List (FrameRole × ℕ)}

/-- The loader is at command `i`. -/
structure AtCommand (base : Machine) (file : ℕ) (s : Loader) : Prop where
  i_le : s.i ≤ commandCount base.mem file
  offset_eq : s.currentOffset = commandOffset base.mem file s.i

structure AtSegment (base : Machine) (file : ℕ) (s : Loader) : Prop extends
    AtCommand base file s where
  i_lt : s.i < commandCount base.mem file
  isSegment : IsSegment base.mem file s.i

/-- The position at each point of the source. -/
def Position (base : Machine) (file : ℕ) (s : Loader) : Prop :=
  match s.pc with
  | .start => s.i = 0
  | .commands => AtCommand base file s
  | .pages => AtSegment base file s ∧ s.offset % 4096 = 0
  | .fill => AtSegment base file s
  | .invalidMagic | .pageFault | .userMode _ => True

/-- The pages mapped so far are placed, whatever segments they belong to. -/
def PagesPlaced (base : Machine) (slots : Set (Fin 512)) (file len : ℕ) (s : Loader) : Prop :=
  ∃ new frames, Placed base slots file len new frames s.machine ∧ Position base file s

/-- From `m` to `m'` the segments before command `i` keep their bytes. -/
def Keeps (base : Machine) (file i : ℕ) (m m' : Machine) : Prop :=
  ∀ j < i, j < commandCount base.mem file → IsSegment base.mem file j →
    ∀ k < (segmentAt base.mem file j).memSize,
      m'.readByte ((segmentAt base.mem file j).rva + k) =
        m.readByte ((segmentAt base.mem file j).rva + k)

theorem Keeps.refl : Keeps base file i m m := fun _ _ _ _ _ _ => rfl

/-- The conditions on the machine under which segments are loaded one after the
other: nothing is mapped below the stack page. -/
structure CleanStart (base : Machine) (slots : Set (Fin 512)) (file len : ℕ) : Prop extends
    Ready base slots file len where
  slot : (0 : Fin 512) ∈ slots
  unmapped : ∀ virt < stackPage, base.translate virt = none

theorem slot_below {virt : ℕ} (hvirt : virt < 2 ^ 39) : BadOS.Kernel.Machine.slot virt 39 = 0 := by
  apply Fin.ext
  change index virt 39 = 0
  rw [index_eq]
  omega

theorem AtCommand.headType_eq (hat : AtCommand base file s)
    (hsame : SameFile base.mem s.machine.mem file len)
    (hfile : CommandsInside base.mem file len) (hi : s.i < commandCount base.mem file) :
    headType s.machine.mem (s.cmd file) = headType base.mem (commandAt base.mem file s.i) := by
  rw [← hsame.headType_eq hfile hi, cmd, hat.offset_eq]
  rfl

theorem AtSegment.segmentCmd_eq (hat : AtSegment base file s)
    (hfile : CommandsInside base.mem file len) {mem : Memory}
    (hsame : SameFile base.mem mem file len) :
    segmentCmd mem (s.cmd file) = segmentAt base.mem file s.i := by
  rw [← hsame.segmentCmd_eq hfile hat.i_lt hat.isSegment, cmd, hat.offset_eq]
  rfl

theorem AtCommand.nextCommand (hat : AtCommand base file s)
    (hsame : SameFile base.mem s.machine.mem file len)
    (hfile : CommandsInside base.mem file len) (hi : s.i < commandCount base.mem file) :
    AtCommand base file (s.nextCommand file) := by
  refine ⟨hi, ?_⟩
  rw [Loader.nextCommand, hat.offset_eq]
  exact hsame.nextOffset_eq hfile hi

/-- Placing a page keeps the bytes of segments that have none on it. -/
theorem keeps_of_mapNewPage (hclean : CleanStart base slots file len)
    (hfile : ByteDisjoint base.mem file len)
    (hplaced : Placed base slots file len new frames m) {role : FrameRole}
    (hrole : role = .segment ∨ role = .stack) {virt : ℕ} (hvirt : virt < 2 ^ 39)
    (halloc : Allocates base slots file len (m.mapNewPage role virt 0x7))
    (hpage : ∀ j < i, j < commandCount base.mem file → IsSegment base.mem file j →
      ∀ k < (segmentAt base.mem file j).memSize,
        ((segmentAt base.mem file j).rva + k) / 4096 ≠ virt / 4096) :
    (∃ new' frames', Placed base slots file len new' frames' (m.mapNewPage role virt 0x7)) ∧
      Keeps base file i m (m.mapNewPage role virt 0x7) := by
  rw [mapNewPage_page] at halloc ⊢
  have hlow : 4096 * (virt / 4096) < 2 ^ 39 := by omega
  have hslot : BadOS.Kernel.Machine.slot (4096 * (virt / 4096)) 39 ∈ slots := by
    rw [slot_below hlow]
    exact hclean.slot
  have hcanonical : Canonical (4096 * (virt / 4096)) := Or.inl (by omega)
  obtain ⟨new', a, hplaced', hkept⟩ :=
    hplaced.mapNewPage hclean.toReady role hrole hcanonical hslot halloc
  refine ⟨⟨new', _, hplaced'⟩, fun j hji hj hsegment k hk => ?_⟩
  have hbelow := hfile.below j hj hsegment
  have haddr : (segmentAt base.mem file j).rva + k < stackPage := by omega
  refine hplaced.readByte_eq hclean.toReady hplaced' ?_ (hclean.unmapped _ haddr) ?_ ?_
  · rw [slot_below (lt_trans haddr (by decide))]
    exact hclean.slot
  · exact Function.update_of_ne (hpage j hji hj hsegment k hk) _ _
  · exact fun b hb => hkept _ b hb _ (Nat.mod_lt _ (by decide))

/-- Filling a segment keeps the bytes of the others. -/
theorem keeps_of_fillSegment (hclean : CleanStart base slots file len)
    (hfile : ByteDisjoint base.mem file len)
    (hplaced : Placed base slots file len new frames s.machine) (hat : AtSegment base file s)
    (hfill : s.machine.fillSegment file (s.cmd file) = some m) :
    Placed base slots file len new frames m ∧ Keeps base file s.i s.machine m := by
  have hseg := hat.segmentCmd_eq hfile.toCommandsInside hplaced.file_eq
  have hbelow := hfile.below s.i hat.i_lt hat.isSegment
  have hstack : stackPage < 2 ^ 39 := by decide
  have hslots : ∀ virt < stackPage, BadOS.Kernel.Machine.slot virt 39 ∈ slots := by
    intro virt hvirt
    rw [slot_below (by omega)]
    exact hclean.slot
  have hstored : (s.machine.memset (segmentAt base.mem file s.i).rva 0
      (segmentAt base.mem file s.i).memSize).isSome := by
    unfold fillSegment at hfill
    dsimp only at hfill
    rw [hseg] at hfill
    exact Option.isSome_of_isSome_bind (by rw [hfill]; rfl)
  have hall := hplaced.allPlaced_of_storeBytes hclean.toReady
    (fun k hk => hslots _ (by omega)) (fun k hk => hclean.unmapped _ (by omega)) hstored (by omega)
  obtain ⟨mem, hfill', hplaced', -, hkept⟩ :=
    hplaced.fillSegment (fun mem hsame => hat.segmentCmd_eq hfile.toCommandsInside hsame) hall
      (hfile.fits s.i hat.i_lt hat.isSegment) hfile.inMemory
  obtain rfl := Option.some_injective _ (hfill.symm.trans hfill')
  refine ⟨hplaced', fun j hji hj hsegment k hk => ?_⟩
  have hbelow' := hfile.below j hj hsegment
  refine hplaced.readByte_eq hclean.toReady hplaced' (hslots _ (by omega))
    (hclean.unmapped _ (by omega)) rfl fun a hframe => hkept _ fun l hl hsame => ?_
  exact hfile.disjoint j hj hsegment s.i hat.i_lt hat.isSegment (Nat.ne_of_lt hji) k hk l hl
    (hplaced.eq_of_phys_eq hframe hall hl hsame)

/-- A step keeps the bytes of the segments loaded so far. -/
theorem step_keeps (hclean : CleanStart base slots file len)
    (hfile : ByteDisjoint base.mem file len) (hapart : PageApart base.mem file)
    (hinv : PagesPlaced base slots file len s)
    (halloc : Allocates base slots file len (step file s).machine) :
    PagesPlaced base slots file len (step file s) ∧
      Keeps base file s.i s.machine (step file s).machine := by
  obtain ⟨new, frames, hplaced, hposition⟩ := hinv
  have hcommands := hfile.toCommandsInside
  have hcount := hplaced.file_eq.commandCount_eq hfile.header
  unfold Position at hposition
  unfold step stepWith at halloc ⊢
  cases hpc : s.pc with
  | start =>
      rw [hpc] at hposition
      dsimp only
      split
      · refine ⟨⟨new, frames, hplaced, ⟨Nat.zero_le _, ?_⟩⟩, .refl⟩
        exact hplaced.file_eq.cmdOffset_eq hfile.header
      · exact ⟨⟨new, frames, hplaced, trivial⟩, .refl⟩
  | commands =>
      rw [hpc] at hposition halloc
      dsimp only at hposition halloc ⊢
      rw [hcount] at halloc ⊢
      by_cases hi : s.i < commandCount base.mem file
      · rw [if_pos hi]
        rw [hposition.headType_eq hplaced.file_eq hcommands hi]
        by_cases htype : headType base.mem (commandAt base.mem file s.i) = cmdSegment
        · rw [if_pos htype]
          exact ⟨⟨new, frames, hplaced, ⟨⟨hposition.i_le, hposition.offset_eq⟩, hi, htype⟩, rfl⟩,
            .refl⟩
        · rw [if_neg htype]
          exact ⟨⟨new, frames, hplaced,
            hposition.nextCommand hplaced.file_eq hcommands hi⟩, .refl⟩
      · rw [if_neg hi] at halloc ⊢
        obtain ⟨⟨new', frames', hplaced'⟩, hkeeps⟩ := keeps_of_mapNewPage (i := s.i) hclean hfile
          hplaced (Or.inr rfl) (by decide) halloc fun j _ hj hsegment k hk => by
            have hbelow := hfile.below j hj hsegment
            unfold stackPage at hbelow ⊢
            omega
        exact ⟨⟨new', frames', hplaced', trivial⟩, hkeeps⟩
  | pages =>
      rw [hpc] at hposition halloc
      dsimp only at hposition halloc ⊢
      obtain ⟨hat, hoffset⟩ := hposition
      rw [hat.segmentCmd_eq hcommands hplaced.file_eq] at halloc ⊢
      by_cases hmore : s.offset < (segmentAt base.mem file s.i).memSize
      · rw [if_pos hmore] at halloc ⊢
        have hbelow := hfile.below s.i hat.i_lt hat.isSegment
        unfold stackPage at hbelow
        have haddr : ((segmentAt base.mem file s.i).rva + s.offset) % 2 ^ 64 =
            (segmentAt base.mem file s.i).rva + s.offset := Nat.mod_eq_of_lt (by omega)
        unfold mapSegmentPage at halloc ⊢
        rw [haddr] at halloc ⊢
        obtain ⟨⟨new', frames', hplaced'⟩, hkeeps⟩ := keeps_of_mapNewPage (i := s.i) hclean hfile
          hplaced (Or.inl rfl) (by omega) halloc fun j hji hj hsegment k hk =>
            hapart j hj hsegment s.i hat.i_lt hat.isSegment hji k hk s.offset hmore hoffset
        refine ⟨⟨new', frames', hplaced', ?_⟩, hkeeps⟩
        unfold Position
        dsimp only
        rw [hpc]
        refine ⟨⟨⟨hat.i_le, hat.offset_eq⟩, hat.i_lt, hat.isSegment⟩, ?_⟩
        omega
      · rw [if_neg hmore]
        exact ⟨⟨new, frames, hplaced, ⟨⟨hat.i_le, hat.offset_eq⟩, hat.i_lt, hat.isSegment⟩⟩, .refl⟩
  | fill =>
      rw [hpc] at hposition
      dsimp only at hposition ⊢
      cases hfill : s.machine.fillSegment file (s.cmd file) with
      | none => exact ⟨⟨new, frames, hplaced, trivial⟩, .refl⟩
      | some m =>
          obtain ⟨hplaced', hkeeps⟩ := keeps_of_fillSegment hclean hfile hplaced hposition hfill
          have hat : AtCommand base file { s with machine := m } :=
            ⟨hposition.i_le, hposition.offset_eq⟩
          exact ⟨⟨new, frames, hplaced',
            hat.nextCommand hplaced'.file_eq hcommands hposition.i_lt⟩, hkeeps⟩
  | invalidMagic => exact ⟨⟨new, frames, hplaced, by unfold Position; rw [hpc]; trivial⟩, .refl⟩
  | pageFault => exact ⟨⟨new, frames, hplaced, by unfold Position; rw [hpc]; trivial⟩, .refl⟩
  | userMode entryPoint =>
      exact ⟨⟨new, frames, hplaced, by unfold Position; rw [hpc]; trivial⟩, .refl⟩

/-- The command counter is not reset once the walk has begun. -/
theorem step_i_le (hstart : s.pc = .start → s.i = 0) : s.i ≤ (step file s).i := by
  unfold step stepWith
  cases hpc : s.pc with
  | start =>
      rw [hstart hpc]
      exact Nat.zero_le _
  | commands =>
      dsimp only
      split
      · split
        · exact le_refl _
        · exact Nat.le_succ _
      · exact le_refl _
  | pages =>
      dsimp only
      split <;> exact le_refl _
  | fill =>
      dsimp only
      split
      · exact Nat.le_succ _
      · exact le_refl _
  | invalidMagic => exact le_refl _
  | pageFault => exact le_refl _
  | userMode entryPoint => exact le_refl _

/-- When no page mapped for a segment contains a byte of an earlier one, a
segment that has been loaded keeps its bytes to the end of the load. -/
theorem run_keeps (hclean : CleanStart base slots file len)
    (hfile : ByteDisjoint base.mem file len)
    (halloc : ∀ n, Allocates base slots file len (run file base n).machine)
    (hapart : PageApart base.mem file) (n n' : ℕ) (hn : n ≤ n') :
    ∀ i < (run file base n).i, i < commandCount base.mem file → IsSegment base.mem file i →
      ∀ k < (segmentAt base.mem file i).memSize,
        (run file base n').machine.readByte ((segmentAt base.mem file i).rva + k) =
          (run file base n).machine.readByte ((segmentAt base.mem file i).rva + k) := by
  have hinv : ∀ n, PagesPlaced base slots file len (run file base n) := by
    intro n
    induction n with
    | zero => exact ⟨[], _, hclean.toReady.placed, rfl⟩
    | succ n ih =>
        have hnext := halloc (n + 1)
        rw [run_succ] at hnext ⊢
        exact (step_keeps hclean hfile hapart ih hnext).1
  have hrun : (run file base n).i ≤ (run file base n').i ∧
      Keeps base file (run file base n).i (run file base n).machine
        (run file base n').machine := by
    induction n', hn using Nat.le_induction with
    | base => exact ⟨le_refl _, .refl⟩
    | succ n' _ ih =>
        obtain ⟨hi, hkeeps⟩ := ih
        have hnext := halloc (n' + 1)
        have hpos := hinv n'
        rw [run_succ] at hnext ⊢
        obtain ⟨-, hstep⟩ := step_keeps hclean hfile hapart hpos hnext
        -- The loader goes on to later segments, so those loaded by `n` are loaded by `n'`.
        have hle : (run file base n').i ≤ (step file (run file base n')).i := by
          apply step_i_le
          intro hpc
          obtain ⟨-, -, -, hposition⟩ := hpos
          unfold Position at hposition
          rwa [hpc] at hposition
        refine ⟨hi.trans hle, fun j hj hcount hsegment k hk => ?_⟩
        rw [hstep j (lt_of_lt_of_le hj hi) hcount hsegment k hk]
        exact hkeeps j hj hcount hsegment k hk
  exact hrun.2

section LowTables

variable {content : ℕ → UInt8}

theorem lowTables_unmapped {virt : ℕ} (hvirt : virt < stackPage) :
    (lowTables content).translate virt = none := by
  unfold stackPage at hvirt
  have hslot : BadOS.Kernel.Machine.slot virt 39 ∈ ({0} : Set (Fin 512)) := by
    rw [slot_below (by omega)]
    rfl
  have hpath := (mem_paths_of_slot hslot).2.2
  have hcanonical : Canonical virt := Or.inl (by omega)
  rw [Machine.translate, if_pos hcanonical, walk_eq_lookup lowTables_tree hslot]
  have hlookup :
      (lowTables content).lookup (pathTo virt) (BadOS.Kernel.Machine.slot virt 12) = none := by
    unfold lookup RadixTree.lookup
    cases hnode : (lowTables content).node (pathTo virt) with
    | none =>
        unfold node at hnode
        rw [hnode, Option.bind_none]
    | some f =>
        have hpair := lowTables_node hnode
        have hfour : f = 4 := by
          simp only [List.mem_cons, List.not_mem_nil, or_false, Prod.mk.injEq] at hpair
          rcases hpair with ⟨h, -⟩ | ⟨h, -⟩ | ⟨h, -⟩ | ⟨-, h⟩
          · exact absurd (congrArg List.length h) (by simp [pathTo])
          · exact absurd (congrArg List.length h) (by simp [pathTo])
          · exact absurd (congrArg List.length h) (by simp [pathTo])
          · exact h
        unfold node at hnode
        rw [hnode, hfour, Option.bind_some, lowTables_absent (by decide) (by omega),
          childFrame_zero]
        rfl
  rw [hlookup]
  rfl

theorem lowTables_cleanStart : CleanStart (lowTables content) {0} 0x10000 len :=
  ⟨lowTables_ready (by decide), rfl, fun _ hvirt => lowTables_unmapped hvirt⟩

end LowTables

/-- Two segments lie apart when one ends before the other. -/
theorem byteDisjoint_of_two {mem : Memory} {seg₀ seg₁ : SegmentCmd}
    (hsegs : commandCount mem file = 2 ∧ segmentAt mem file 0 = seg₀ ∧ segmentAt mem file 1 = seg₁)
    (hinside : file + len ≤ 2 ^ 64 ∧ 56 ≤ len ∧ ∀ i < 2, commandOffset mem file i + 64 ≤ len)
    (hsize : seg₀.fileSize ≤ seg₀.memSize ∧ seg₁.fileSize ≤ seg₁.memSize)
    (hplace : seg₀.rva + seg₀.memSize ≤ seg₁.rva ∧ seg₁.rva + seg₁.memSize ≤ stackPage) :
    ByteDisjoint mem file len := by
  obtain ⟨hcount, rfl, rfl⟩ := hsegs
  obtain ⟨hmemory, hheader, hcommand⟩ := hinside
  refine ⟨⟨hmemory, hheader, ?_, ?_⟩, ?_, ?_, ?_⟩ <;> rw [hcount]
  · intro i hi
    have := hcommand i hi
    omega
  · exact fun i hi _ => hcommand i hi
  · intro i hi _
    interval_cases i
    · exact hsize.1
    · exact hsize.2
  · intro i hi _
    interval_cases i <;> omega
  · intro i hi _ j hj _ hne k hk l hl
    interval_cases i <;> interval_cases j <;> omega

/-- Two segments on pages of their own: two bytes at 0x601000, the first one 0xAB, and the
byte 0xCD at 0x602000. -/
def apartPages : Machine :=
  lowTables fun k =>
    ([(0, 0x4B), (1, 0x45), (2, 0x58), (8, 2), (17, 0x10), (18, 0x60), (24, 56), (56, 1),
      (60, 64), (73, 0x10), (74, 0x60), (80, 2), (88, 184), (96, 1), (120, 1), (124, 64),
      (137, 0x20), (138, 0x60), (144, 1), (152, 185), (160, 1), (184, 0xAB), (185, 0xCD)].lookup
      k).getD 0

theorem apartPages_segments : commandCount apartPages.mem 0x10000 = 2 ∧
    segmentAt apartPages.mem 0x10000 0 = ⟨0, 0, 0x601000, 2, 184, 1, 0⟩ ∧
    segmentAt apartPages.mem 0x10000 1 = ⟨0, 0, 0x602000, 1, 185, 1, 0⟩ := by
  decide

theorem apartPages_byteDisjoint : ByteDisjoint apartPages.mem 0x10000 186 :=
  byteDisjoint_of_two apartPages_segments ⟨by decide, by decide, by decide⟩ (by decide)
    (by decide)

theorem apartPages_allocates (n : ℕ) :
    Allocates apartPages {0} 0x10000 186 (run 0x10000 apartPages n).machine := by
  have hhalted : (run 0x10000 apartPages 10).pc = .userMode 0x601000 := by decide +kernel
  have hgranted : (run 0x10000 apartPages 10).machine.granted =
      [(.stack, 0x7000), (.segment, 0x6000), (.segment, 0x5000)] := by
    decide +kernel
  apply allocates_of_halted (n := 10)
  · unfold Halted
    rw [hhalted]
    trivial
  exact lowTables_allocates hgranted (by decide) (by decide) (by decide)

/-- The first segment keeps its byte while the second one is loaded. -/
theorem apartPages_keeps : (run 0x10000 apartPages 5).i = 1 ∧
    (run 0x10000 apartPages 5).machine.readByte 0x601000 = some 0xAB ∧
    (run 0x10000 apartPages 10).machine.readByte 0x602000 = some 0xCD ∧
    (run 0x10000 apartPages 10).machine.readByte 0x601000 = some 0xAB := by
  obtain ⟨hcount, hfirst, hsecond⟩ := apartPages_segments
  have hloaded : (run 0x10000 apartPages 5).i = 1 ∧
      (run 0x10000 apartPages 5).machine.readByte 0x601000 = some 0xAB ∧
      (run 0x10000 apartPages 10).machine.readByte 0x602000 = some 0xCD := by
    decide +kernel
  obtain ⟨hi, hbyte, hlast⟩ := hloaded
  have hapart : PageApart apartPages.mem 0x10000 := by
    intro i hi _ j hj _ hlt k hk offset hoffset _
    rw [hcount] at hj
    obtain ⟨rfl, rfl⟩ : i = 0 ∧ j = 1 := by omega
    rw [hfirst] at hk ⊢
    rw [hsecond] at hoffset ⊢
    dsimp only at hk hoffset ⊢
    omega
  have hclean : CleanStart apartPages {0} 0x10000 186 := lowTables_cleanStart
  have hkeeps := run_keeps hclean apartPages_byteDisjoint apartPages_allocates hapart 5 10
    (by decide) 0 (by rw [hi]; decide) (by rw [hcount]; decide) (by decide)
  rw [hfirst] at hkeeps
  exact ⟨hi, hbyte, hlast, (hkeeps 0 (by decide)).trans hbyte⟩

/-- Two segments on one page: two bytes at 0x601000, the first one 0xAB, and a zero byte
at 0x601800. -/
def sharedPage : Machine :=
  lowTables fun k =>
    ([(0, 0x4B), (1, 0x45), (2, 0x58), (8, 2), (17, 0x10), (18, 0x60), (24, 56), (56, 1),
      (60, 64), (73, 0x10), (74, 0x60), (80, 2), (88, 184), (96, 1), (120, 1), (124, 64),
      (137, 0x18), (138, 0x60), (144, 1), (184, 0xAB)].lookup k).getD 0

theorem sharedPage_segment : commandCount sharedPage.mem 0x10000 = 2 ∧
    segmentAt sharedPage.mem 0x10000 0 = ⟨0, 0, 0x601000, 2, 184, 1, 0⟩ ∧
    segmentAt sharedPage.mem 0x10000 1 = ⟨0, 0, 0x601800, 1, 0, 0, 0⟩ := by
  decide

theorem sharedPage_byteDisjoint : ByteDisjoint sharedPage.mem 0x10000 185 :=
  byteDisjoint_of_two sharedPage_segment ⟨by decide, by decide, by decide⟩ (by decide)
    (by decide)

theorem sharedPage_allocates (n : ℕ) :
    Allocates sharedPage {0} 0x10000 185 (run 0x10000 sharedPage n).machine := by
  have hhalted : (run 0x10000 sharedPage 10).pc = .userMode 0x601000 := by decide +kernel
  have hgranted : (run 0x10000 sharedPage 10).machine.granted =
      [(.stack, 0x7000), (.segment, 0x6000), (.segment, 0x5000)] := by
    decide +kernel
  apply allocates_of_halted (n := 10)
  · unfold Halted
    rw [hhalted]
    trivial
  exact lowTables_allocates hgranted (by decide) (by decide) (by decide)

/-- Loading the second segment of `sharedPage` replaces the page of the first. -/
theorem sharedPage_loses : CleanStart sharedPage {0} 0x10000 185 ∧
    ByteDisjoint sharedPage.mem 0x10000 185 ∧
    (∀ n, Allocates sharedPage {0} 0x10000 185 (run 0x10000 sharedPage n).machine) ∧
    (run 0x10000 sharedPage 5).i = 1 ∧
    (run 0x10000 sharedPage 5).machine.readByte 0x601000 = some 0xAB ∧
    (run 0x10000 sharedPage 10).pc = .userMode 0x601000 ∧
    (run 0x10000 sharedPage 10).machine.readByte 0x601000 = some 0 :=
  ⟨lowTables_cleanStart, sharedPage_byteDisjoint, sharedPage_allocates, by decide +kernel,
    by decide +kernel, by decide +kernel, by decide +kernel⟩

end Loader

end BadOS.Kernel
