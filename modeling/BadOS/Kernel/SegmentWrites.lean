import BadOS.Kernel.SegmentFrames

/-! # Where the loader writes

The page loop of a segment steps from `rva` by 4096 while the offset is below
`mem_size`; the zero fill covers `mem_size` bytes from `rva` and the copy
`file_size` bytes. The stores stay on the pages of the loop only if both fit.
-/

namespace BadOS.Kernel

open Kex

namespace Machine

variable {base m m' : Machine} {slots : Set (Fin 512)} {new : List (FrameRole × ℕ)}
variable {frames : ℕ → Option ℕ} {file len virt size k : ℕ} {byte : Memory → ℕ → UInt8}

/-- Store `k` of a store loop is made. -/
def Stores (m : Machine) (virt : ℕ) (byte : Memory → ℕ → UInt8) (size k : ℕ) : Prop :=
  k < size ∧ (m.storeBytes virt byte (k + 1)).isSome

/-- Addresses of one page are translated alike. -/
theorem translate_isSome_page {virt' : ℕ} (htree : m.TreeOn slots)
    (hslot : slot virt 39 ∈ slots) (hpage : virt' / 4096 = virt / 4096) :
    (m.translate virt').isSome = (m.translate virt).isSome := by
  have hsame : page virt' = page virt := by rw [page_eq_of_div virt', page_eq_of_div virt, hpage]
  obtain ⟨hpath, hindex⟩ := page_eq_iff.mp hsame
  have hslot' : slot virt' 39 ∈ slots := by rwa [(List.cons.inj hpath).1]
  have hcanonical : Canonical virt' ↔ Canonical virt := by
    unfold Canonical
    omega
  unfold translate
  rw [walk_eq_lookup htree hslot', walk_eq_lookup htree hslot, hpath, hindex]
  by_cases h : Canonical virt
  · rw [if_pos h, if_pos (hcanonical.mpr h)]
    cases m.lookup (pathTo virt) (slot virt 12) <;> rfl
  · rw [if_neg h, if_neg (mt hcanonical.mp h)]

/-- After stores to placed pages, the next store is made if its address is mapped. -/
theorem Placed.storeBytes_succ (hready : Ready base slots file len)
    (hplaced : Placed base slots file len new frames m) (byte : Memory → ℕ → UInt8)
    (hall : AllPlaced frames virt k)
    (hslot : slot (virt + k) 39 ∈ slots) (hnowrap : virt + k < 2 ^ 64)
    (hframe : frames ((virt + k) / 4096) = none) :
    (m.storeBytes virt byte (k + 1)).isSome = (base.translate (virt + k)).isSome := by
  obtain ⟨mem, hpre, hplaced', -⟩ := hplaced.storeBytes byte hall
  rw [Machine.storeBytes, hpre, Option.bind_some, writeByte, Nat.mod_eq_of_lt hnowrap,
    hplaced'.translate_unplaced hready hslot hframe, Option.isSome_map]

end Machine

namespace Loader

open Machine

variable {s t : Loader} {slots : Set (Fin 512)} {file n k : ℕ} {seg : SegmentCmd}
variable {frames : ℕ → Option ℕ} {new : List (FrameRole × ℕ)} {base m : Machine}

/-- A page the page loop of the segment maps. -/
def OwnPage (seg : SegmentCmd) (n : ℕ) : Prop :=
  ∃ offset < seg.memSize, offset % 4096 = 0 ∧ n = (seg.rva + offset) / 4096

/-- The byte that the fill stores. -/
def zeroByte : Memory → ℕ → UInt8 := fun _ _ => UInt8.ofNat (CInt.toU8 0)

/-- Every byte that `memset` writes for the segment is on a page of its loop. -/
def ClearsOwnPages (seg : SegmentCmd) (m : Machine) : Prop :=
  ∀ k, m.Stores seg.rva zeroByte seg.memSize k → OwnPage seg ((seg.rva + k) / 4096)

/-- Every byte that `memcpy` then writes, from the command as it stands in memory. -/
def CopiesOwnPages (file cmd : ℕ) (seg : SegmentCmd) (m : Machine) : Prop :=
  let seg' := segmentCmd m.mem cmd
  0 < seg'.fileSize → ∀ k, m.Stores seg'.rva
    (fun mem k => mem (pointer file seg'.fileOffset + k)) seg'.fileSize k →
  OwnPage seg ((seg'.rva + k) / 4096)

/-- Every byte that `memset` and `memcpy` write for the segment, from the state
after its page loop, is on a page of that loop. -/
def WritesOwnPages (file : ℕ) (seg : SegmentCmd) (t : Loader) : Prop :=
  ClearsOwnPages seg t.machine ∧
  ∀ m, t.machine.memset seg.rva 0 seg.memSize = some m → CopiesOwnPages file (t.cmd file) seg m

/-- The fill and the copy end before the first byte after the pages mapped. -/
def FitsPages (seg : SegmentCmd) : Prop :=
  max seg.memSize seg.fileSize = 0 ∨
    seg.rva % 4096 + max seg.memSize seg.fileSize ≤ 4096 * pageCount seg

instance (seg : SegmentCmd) : Decidable (FitsPages seg) :=
  inferInstanceAs (Decidable (_ ∨ _))

theorem ownPage_iff : OwnPage seg n ↔ ∃ p < pageCount seg, n = seg.rva / 4096 + p := by
  unfold OwnPage pageCount
  constructor
  · rintro ⟨offset, hoffset, haligned, rfl⟩
    exact ⟨offset / 4096, by omega, by omega⟩
  · rintro ⟨p, hp, rfl⟩
    exact ⟨4096 * p, by omega, by omega, by omega⟩

theorem ownPage_byte_iff :
    OwnPage seg ((seg.rva + k) / 4096) ↔ seg.rva % 4096 + k < 4096 * pageCount seg := by
  rw [ownPage_iff]
  constructor
  · rintro ⟨p, hp, h⟩
    omega
  · intro h
    exact ⟨(seg.rva % 4096 + k) / 4096, by omega, by omega⟩

/-! ## The page loop -/

/-- After `t` iterations of the page loop. -/
structure InPageLoop (file : ℕ) (slots : Set (Fin 512)) (s : Loader) (iterations : ℕ)
    (t : Loader) : Prop where
  pc_eq : t.pc = .pages
  i_eq : t.i = s.i
  currentOffset_eq : t.currentOffset = s.currentOffset
  offset_eq : t.offset = 4096 * iterations
  placed : ∃ new frames, Placed s.machine slots (s.cmd file) segmentCmdSize new frames t.machine ∧
    ∀ n, (frames n).isSome ↔
      ∃ p < iterations, n = (segmentCmd s.machine.mem (s.cmd file)).rva / 4096 + p

theorem InPageLoop.step (hready : Ready s.machine slots (s.cmd file) segmentCmdSize)
    (hlower : ∀ i : Fin 512, i.val < 256 → i ∈ slots) (hloop : InPageLoop file slots s n t)
    (hn : n < pageCount (segmentCmd s.machine.mem (s.cmd file)))
    (hlow : (segmentCmd s.machine.mem (s.cmd file)).rva +
      (segmentCmd s.machine.mem (s.cmd file)).memSize ≤ 2 ^ 47)
    (halloc : Allocates s.machine slots (s.cmd file) segmentCmdSize (step file t).machine) :
    InPageLoop file slots s (n + 1) (step file t) := by
  obtain ⟨new, frames, hplaced, hframes⟩ := hloop.placed
  have hcmd : t.cmd file = s.cmd file := by rw [cmd, cmd, hloop.currentOffset_eq]
  have hseg : segmentCmd t.machine.mem (t.cmd file) = segmentCmd s.machine.mem (s.cmd file) := by
    rw [hcmd]
    exact segmentCmd_congr hplaced.file_eq
  generalize hdecl : segmentCmd s.machine.mem (s.cmd file) = seg at *
  have hmore : t.offset < seg.memSize := by
    have hoffset := hloop.offset_eq
    unfold pageCount at hn
    omega
  have hstep : Loader.step file t = t.mapSegmentPage seg.rva := by
    unfold Loader.step Loader.stepWith
    rw [hloop.pc_eq]
    dsimp only
    rw [hseg, if_pos hmore]
  have hoffset := hloop.offset_eq
  have haddr : (seg.rva + t.offset) % 2 ^ 64 = seg.rva + t.offset := Nat.mod_eq_of_lt (by omega)
  have hnext : (t.offset + 4096) % 2 ^ 64 = t.offset + 4096 := Nat.mod_eq_of_lt (by omega)
  have hpage : (seg.rva + t.offset) / 4096 = seg.rva / 4096 + n := by omega
  have hcanonical : Canonical (4096 * (seg.rva / 4096 + n)) := Or.inl (by omega)
  have hslot : slot (4096 * (seg.rva / 4096 + n)) 39 ∈ slots := by
    apply hlower
    change index _ 39 < 256
    rw [index_eq]
    omega
  rw [hstep, mapSegmentPage, haddr, mapNewPage_page, hpage] at halloc
  rw [hstep, mapSegmentPage, haddr, mapNewPage_page, hpage, hnext]
  obtain ⟨new', a, hplaced', -⟩ :=
    hplaced.mapNewPage hready .segment (Or.inl rfl) hcanonical hslot halloc
  refine ⟨hloop.pc_eq, hloop.i_eq, hloop.currentOffset_eq, ?_, new', _, hplaced', fun p => ?_⟩
  · dsimp only
    omega
  · rw [hdecl]
    by_cases hp : p = seg.rva / 4096 + n
    · rw [hp, Function.update_self]
      exact iff_of_true rfl ⟨n, Nat.lt_succ_self n, rfl⟩
    · rw [Function.update_of_ne hp, hframes p]
      constructor
      · rintro ⟨q, hq, h⟩
        exact ⟨q, by omega, h⟩
      · rintro ⟨q, hq, h⟩
        exact ⟨q, by omega, h⟩

/-- The page loop comes to its end, with its own pages placed. -/
theorem pageLoop_end (hready : Ready s.machine slots (s.cmd file) segmentCmdSize)
    (hlower : ∀ i : Fin 512, i.val < 256 → i ∈ slots) (hpc : s.pc = .pages) (hoffset : s.offset = 0)
    (hlow : (segmentCmd s.machine.mem (s.cmd file)).rva +
      (segmentCmd s.machine.mem (s.cmd file)).memSize ≤ 2 ^ 47)
    (halloc : Allocates s.machine slots (s.cmd file) segmentCmdSize
      ((step file)^[pageCount (segmentCmd s.machine.mem (s.cmd file))] s).machine) :
    ∃ t, (step file)^[pageCount (segmentCmd s.machine.mem (s.cmd file)) + 1] s =
        { t with pc := .fill } ∧
      InPageLoop file slots s (pageCount (segmentCmd s.machine.mem (s.cmd file))) t := by
  have hallocs : ∀ n l, Allocs ((step file)^[n] s).machine ((step file)^[n + l] s).machine := by
    intro n l
    induction l with
    | zero => exact .refl rfl rfl
    | succ l ih =>
        rw [← Nat.add_assoc, Function.iterate_succ_apply']
        exact ih.trans (step_allocs file _)
  have hloop : ∀ n ≤ pageCount (segmentCmd s.machine.mem (s.cmd file)),
      InPageLoop file slots s n ((step file)^[n] s) := by
    intro n
    induction n with
    | zero =>
        refine fun _ => ⟨hpc, rfl, rfl, hoffset, [], _, hready.placed, fun p => ?_⟩
        simp
    | succ n ih =>
        intro hn
        obtain ⟨l, hl⟩ := Nat.exists_eq_add_of_le hn
        have hlater := hallocs (n + 1) l
        rw [← hl] at hlater
        have halloc' := halloc.of_allocs hlater
        rw [Function.iterate_succ_apply'] at halloc' ⊢
        exact (ih (by omega)).step hready hlower hn hlow halloc'
  have hend := hloop _ (le_refl _)
  refine ⟨_, ?_, hend⟩
  obtain ⟨new, frames, hplaced, -⟩ := hend.placed
  rw [Function.iterate_succ_apply']
  generalize (step file)^[pageCount (segmentCmd s.machine.mem (s.cmd file))] s = t at *
  have hseg : segmentCmd t.machine.mem (t.cmd file) = segmentCmd s.machine.mem (s.cmd file) := by
    rw [cmd, hend.currentOffset_eq]
    exact segmentCmd_congr hplaced.file_eq
  have hdone : ¬ t.offset < (segmentCmd s.machine.mem (s.cmd file)).memSize := by
    rw [hend.offset_eq]
    unfold pageCount
    omega
  unfold step stepWith
  rw [hend.pc_eq]
  dsimp only
  rw [hseg, if_neg hdone]

/-! ## The stores -/

/-- The page after the pages of the segment. -/
def nextPage (seg : SegmentCmd) : ℕ := seg.rva / 4096 + pageCount seg

/-- The offset of the first byte from `rva` on that is not on an own page. -/
def firstOutside (seg : SegmentCmd) : ℕ := 4096 * pageCount seg - seg.rva % 4096

theorem ownPage_iff_lt : OwnPage seg ((seg.rva + k) / 4096) ↔ k < firstOutside seg := by
  rw [ownPage_byte_iff, firstOutside]
  omega

theorem firstOutside_page : (seg.rva + firstOutside seg) / 4096 = nextPage seg := by
  unfold firstOutside nextPage
  by_cases hzero : pageCount seg = 0
  · rw [hzero]
    simp
  · omega

theorem fitsPages_iff :
    FitsPages seg ↔ seg.memSize ≤ firstOutside seg ∧ seg.fileSize ≤ firstOutside seg := by
  have hcount : pageCount seg = 0 → seg.memSize = 0 := by
    unfold pageCount
    omega
  unfold FitsPages firstOutside
  by_cases hzero : pageCount seg = 0
  · rw [hzero, hcount hzero]
    simp
  · omega

/-- Of a store loop from `rva` on, the stores before the first outside byte are
made; that one is made if the next page is mapped. -/
theorem stores_own_iff {byte : Memory → ℕ → UInt8} {size : ℕ}
    (hready : Ready base slots file n) (hlower : ∀ i : Fin 512, i.val < 256 → i ∈ slots)
    (hplaced : Placed base slots file n new frames m)
    (hframes : ∀ p, (frames p).isSome ↔ ∃ q < pageCount seg, p = seg.rva / 4096 + q)
    (hlow : seg.rva + size ≤ 2 ^ 47) :
    (∀ k, m.Stores seg.rva byte size k → OwnPage seg ((seg.rva + k) / 4096)) ↔
      size ≤ firstOutside seg ∨ base.translate (4096 * nextPage seg) = none := by
  have hall : AllPlaced frames seg.rva (firstOutside seg) := by
    intro k hk
    rw [hframes]
    exact ownPage_iff.mp (ownPage_iff_lt.mpr hk)
  have houtside : frames ((seg.rva + firstOutside seg) / 4096) = none := by
    rw [← Option.not_isSome_iff_eq_none, hframes]
    exact fun h => absurd (ownPage_iff_lt.mp (ownPage_iff.mpr h)) (lt_irrefl _)
  by_cases hfits : size ≤ firstOutside seg
  · refine iff_of_true (fun k hk => ownPage_iff_lt.mpr ?_) (Or.inl hfits)
    exact lt_of_lt_of_le hk.1 hfits
  · have hslot : slot (seg.rva + firstOutside seg) 39 ∈ slots := by
      apply hlower
      change index _ 39 < 256
      rw [index_eq]
      omega
    have hnext := hplaced.storeBytes_succ hready byte hall hslot (by omega) houtside
    have hpage : (4096 * nextPage seg) / 4096 = (seg.rva + firstOutside seg) / 4096 := by
      rw [firstOutside_page, Nat.mul_div_cancel_left _ (by decide)]
    rw [← translate_isSome_page hready.tree hslot hpage] at hnext
    constructor
    · intro hown
      right
      rw [← Option.not_isSome_iff_eq_none, ← hnext]
      intro hstored
      have := ownPage_iff_lt.mp (hown (firstOutside seg) ⟨by omega, hstored⟩)
      exact lt_irrefl _ this
    · rintro (h | hunmapped)
      · exact absurd h hfits
      · rintro k ⟨-, hstored⟩
        -- A store behind the first outside byte comes after that one, which faulted.
        rw [ownPage_iff_lt]
        by_contra hk
        have hstored' := storeBytes_prefix (show firstOutside seg + 1 ≤ k + 1 by omega) hstored
        rw [hnext, hunmapped] at hstored'
        exact nomatch hstored'

theorem clearsOwnPages_iff (hready : Ready base slots file n)
    (hlower : ∀ i : Fin 512, i.val < 256 → i ∈ slots)
    (hplaced : Placed base slots file n new frames m)
    (hframes : ∀ p, (frames p).isSome ↔ ∃ q < pageCount seg, p = seg.rva / 4096 + q)
    (hlow : seg.rva + seg.memSize ≤ 2 ^ 47) :
    ClearsOwnPages seg m ↔
      seg.memSize ≤ firstOutside seg ∨ base.translate (4096 * nextPage seg) = none :=
  stores_own_iff hready hlower hplaced hframes hlow

theorem copiesOwnPages_iff {cmd : ℕ} (hready : Ready base slots cmd n)
    (hlower : ∀ i : Fin 512, i.val < 256 → i ∈ slots)
    (hplaced : Placed base slots cmd n new frames m)
    (hframes : ∀ p, (frames p).isSome ↔ ∃ q < pageCount seg, p = seg.rva / 4096 + q)
    (hseg : segmentCmd m.mem cmd = seg) (hlow : seg.rva + seg.fileSize ≤ 2 ^ 47) :
    CopiesOwnPages file cmd seg m ↔
      seg.fileSize ≤ firstOutside seg ∨ base.translate (4096 * nextPage seg) = none := by
  unfold CopiesOwnPages
  dsimp only
  rw [hseg, stores_own_iff hready hlower hplaced hframes hlow]
  by_cases hpos : 0 < seg.fileSize
  · exact ⟨fun h => h hpos, fun h _ => h⟩
  · exact iff_of_true (fun h => absurd h hpos) (Or.inl (by omega))

/-- The stores of a segment whose page loop has ended. -/
theorem Placed.stores_iff (hready : Ready base slots (t.cmd file) n)
    (hlower : ∀ i : Fin 512, i.val < 256 → i ∈ slots)
    (hplaced : Placed base slots (t.cmd file) n new frames t.machine)
    (hframes : ∀ p, (frames p).isSome ↔ ∃ q < pageCount seg, p = seg.rva / 4096 + q)
    (hseg : ∀ mem, SameFile base.mem mem (t.cmd file) n → segmentCmd mem (t.cmd file) = seg)
    (hmem : seg.rva + seg.memSize ≤ 2 ^ 47) (hfile : seg.rva + seg.fileSize ≤ 2 ^ 47) :
    WritesOwnPages file seg t ↔
      FitsPages seg ∨ base.translate (4096 * nextPage seg) = none := by
  have hclears := clearsOwnPages_iff hready hlower hplaced hframes hmem
  have hcopies : ∀ mem, Placed base slots (t.cmd file) n new frames (t.machine.setMem mem) →
      (CopiesOwnPages file (t.cmd file) seg (t.machine.setMem mem) ↔
        seg.fileSize ≤ firstOutside seg ∨ base.translate (4096 * nextPage seg) = none) :=
    fun mem hcleared =>
      copiesOwnPages_iff hready hlower hcleared hframes (hseg mem hcleared.file_eq) hfile
  have hmemset : t.machine.memset seg.rva 0 seg.memSize =
      t.machine.storeBytes seg.rva zeroByte seg.memSize := rfl
  have hcleared : seg.memSize ≤ firstOutside seg → ∃ mem,
      t.machine.storeBytes seg.rva zeroByte seg.memSize = some (t.machine.setMem mem) ∧
      Placed base slots (t.cmd file) n new frames (t.machine.setMem mem) := by
    intro hle
    have hall : AllPlaced frames seg.rva seg.memSize := fun k hk =>
      (hframes _).mpr (ownPage_iff.mp (ownPage_iff_lt.mpr (by omega)))
    obtain ⟨mem, hstore, hplaced', -⟩ := hplaced.storeBytes zeroByte hall
    exact ⟨mem, hstore, hplaced'⟩
  unfold WritesOwnPages
  rw [hclears, fitsPages_iff, hmemset]
  constructor
  · rintro ⟨hle | hunmapped, hcopied⟩
    · obtain ⟨mem, hstore, hplaced'⟩ := hcleared hle
      exact ((hcopies mem hplaced').mp (hcopied _ hstore)).imp_left fun h => ⟨hle, h⟩
    · exact Or.inr hunmapped
  · intro hcondition
    refine ⟨hcondition.imp_left And.left, fun m hm => ?_⟩
    have hle : seg.memSize ≤ firstOutside seg := by
      by_contra hgt
      have hunmapped := hcondition.resolve_left fun h => hgt h.1
      have hpre := storeBytes_prefix (show firstOutside seg + 1 ≤ seg.memSize by omega)
        (Option.isSome_iff_exists.mpr ⟨m, hm⟩)
      have hown := hclears.mpr (Or.inr hunmapped) (firstOutside seg) ⟨by omega, hpre⟩
      exact lt_irrefl _ (ownPage_iff_lt.mp hown)
    obtain ⟨mem, hstore, hplaced'⟩ := hcleared hle
    rw [hstore] at hm
    obtain rfl := Option.some_injective _ hm
    exact (hcopies mem hplaced').mpr (hcondition.imp_left And.right)

/-- The page loop of a segment takes a step for each page and one to end. From there the
segment writes only to the pages that the loop has mapped if and only if the fill and the
copy fit on them, or else the page after them is not mapped, so that the store faults. -/
theorem writesOwnPages_iff (hpc : s.pc = .pages) (hoffset : s.offset = 0)
    (hready : Ready s.machine slots (s.cmd file) segmentCmdSize)
    (hlower : ∀ i : Fin 512, i.val < 256 → i ∈ slots)
    (hmem : (segmentCmd s.machine.mem (s.cmd file)).rva +
      (segmentCmd s.machine.mem (s.cmd file)).memSize ≤ 2 ^ 47)
    (hfile : (segmentCmd s.machine.mem (s.cmd file)).rva +
      (segmentCmd s.machine.mem (s.cmd file)).fileSize ≤ 2 ^ 47)
    (halloc : Allocates s.machine slots (s.cmd file) segmentCmdSize
      ((step file)^[pageCount (segmentCmd s.machine.mem (s.cmd file))] s).machine) :
    ((step file)^[pageCount (segmentCmd s.machine.mem (s.cmd file)) + 1] s).pc = .fill ∧
    (WritesOwnPages file (segmentCmd s.machine.mem (s.cmd file))
        ((step file)^[pageCount (segmentCmd s.machine.mem (s.cmd file)) + 1] s) ↔
      FitsPages (segmentCmd s.machine.mem (s.cmd file)) ∨
      s.machine.translate (4096 * nextPage (segmentCmd s.machine.mem (s.cmd file))) = none) := by
  obtain ⟨t, hend, hloop⟩ := pageLoop_end hready hlower hpc hoffset hmem halloc
  obtain ⟨new, frames, hplaced, hframes⟩ := hloop.placed
  have hcmd : ({ t with pc := .fill } : Loader).cmd file = s.cmd file := by
    rw [cmd, cmd, hloop.currentOffset_eq]
  rw [hend]
  rw [← hcmd] at hready hplaced
  refine ⟨rfl, ?_⟩
  exact Placed.stores_iff hready hlower hplaced hframes
    (fun mem hsame => by rw [hcmd] at hsame ⊢; exact segmentCmd_congr hsame) hmem hfile

theorem twoSegments_writesOwnPages :
    ((step 0x10000)^[3] (run 0x10000 twoSegments 2)).pc = .fill ∧
    WritesOwnPages 0x10000 ⟨0, 0, 0x601000, 4098, 224, 1, 0⟩
      ((step 0x10000)^[3] (run 0x10000 twoSegments 2)) := by
  have hstate : (run 0x10000 twoSegments 2).pc = .pages ∧ (run 0x10000 twoSegments 2).offset = 0 ∧
      (run 0x10000 twoSegments 2).cmd 0x10000 = 0x10038 := by decide
  have hmachine : (run 0x10000 twoSegments 2).machine = twoSegments := rfl
  obtain ⟨hpc, hoffset, hcmd⟩ := hstate
  have hseg : segmentCmd (run 0x10000 twoSegments 2).machine.mem
      ((run 0x10000 twoSegments 2).cmd 0x10000) = ⟨0, 0, 0x601000, 4098, 224, 1, 0⟩ := by
    decide
  have hgranted : (run 0x10000 twoSegments 4).machine.granted =
      [(.segment, 0x6000), (.segment, 0x5000)] := by decide +kernel
  have halloc : Allocates twoSegments {i | i.val < 256} 0x10038 segmentCmdSize
      (run 0x10000 twoSegments 4).machine :=
    lowTables_allocates hgranted (by decide) (by decide) (by decide)
  have hready : Ready (run 0x10000 twoSegments 2).machine {i | i.val < 256}
      ((run 0x10000 twoSegments 2).cmd 0x10000) segmentCmdSize := by
    rw [hmachine, hcmd]
    exact lowTables_ready (by decide)
  have hown := writesOwnPages_iff hpc hoffset hready (fun i hi => hi)
    (by rw [hseg]; decide) (by rw [hseg]; decide) (by rw [hseg, hmachine, hcmd]; exact halloc)
  rw [hseg] at hown
  exact ⟨hown.1, hown.2.mpr (Or.inl (by decide))⟩

/-- Two segments: a byte at 0x602008 and two bytes at 0x601FFF. -/
def straddling : Machine :=
  lowTables fun k =>
    ([(0, 0x4B), (1, 0x45), (2, 0x58), (8, 2), (17, 0x10), (18, 0x60), (24, 56), (56, 1),
      (60, 64), (72, 0x08), (73, 0x20), (74, 0x60), (80, 1), (120, 1), (124, 64), (136, 0xFF),
      (137, 0x1F), (138, 0x60), (144, 2)].lookup k).getD 0

/-- The page loop of the second segment maps page 0x601 only, and the fill
writes to page 0x602 of the first one. -/
theorem straddling_writes : validMagic straddling.mem 0x10000 = true ∧
    (run 0x10000 straddling 6).pc = .pages ∧ (run 0x10000 straddling 6).offset = 0 ∧
    segmentCmd (run 0x10000 straddling 6).machine.mem ((run 0x10000 straddling 6).cmd 0x10000) =
      ⟨0, 0, 0x601FFF, 2, 0, 0, 0⟩ ∧
    (run 0x10000 straddling 8).pc = .fill ∧
    (run 0x10000 straddling 8).machine.granted = [(.segment, 0x6000), (.segment, 0x5000)] ∧
    ¬ WritesOwnPages 0x10000 ⟨0, 0, 0x601FFF, 2, 0, 0, 0⟩ (run 0x10000 straddling 8) := by
  have hstored : ((run 0x10000 straddling 8).machine.storeBytes 0x601FFF zeroByte 2).isSome := by
    decide +kernel
  have houtside : ¬ OwnPage ⟨0, 0, 0x601FFF, 2, 0, 0, 0⟩ ((0x601FFF + 1) / 4096) := by
    rw [ownPage_byte_iff]
    decide
  refine ⟨by decide +kernel, by decide +kernel, by decide +kernel, by decide +kernel,
    by decide +kernel, by decide +kernel, fun hown => ?_⟩
  exact houtside (hown.1 1 ⟨by decide, hstored⟩)

end Loader

end BadOS.Kernel
