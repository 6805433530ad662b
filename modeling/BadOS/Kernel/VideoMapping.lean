import BadOS.Kernel.BootFrames

/-! # The video window

`_start` maps the pages that hold the video at 0x80000000, so the first byte of the
file appears at its offset in its page and the others behind it.
-/

namespace BadOS.Kernel

open Kex

namespace Machine

/-- `(uint64_t)vid_ptr - hhdm_offset`. -/
def vidPhys (vidPtr hhdmOffset : ℕ) : ℕ := (vidPtr + 2 ^ 64 - hhdmOffset) % 2 ^ 64

/-- The address of page `k` of the window. -/
def videoPage (k : ℕ) : ℕ := 0x80000000 + 4096 * k

/-- The machine when the video is mapped: neither a table below `slots` nor a free
frame holds a byte of the file. -/
structure VideoReady (m : Machine) (slots : Set (Fin 512)) (file len : ℕ) : Prop where
  maxBlocks : m.pmm.maxBlocks ≤ 2 ^ 40
  ready : Ready m slots file len
  unused : ∀ i < m.pmm.maxBlocks, m.pmm.isUsed (CInt.toI32 i) = false →
    (∀ q ∈ paths slots, m.node q ≠ some i) ∧ Apart (4096 * i) file len

/-- No allocation since `m` has failed. -/
def Supplied (m m' : Machine) : Prop :=
  ∀ new, m'.granted = new ++ m.granted → ∀ g ∈ new, g.2 ≠ 0

variable {base m m' m'' : Machine} {slots : Set (Fin 512)} {file len count k virt : ℕ}
variable {new more : List (FrameRole × ℕ)}

/-! ## The frames granted -/

theorem Supplied.of_allocs (hsupplied : Supplied m m'') (hallocs : Allocs m' m'') :
    Supplied m m' := by
  obtain ⟨l, hl⟩ := hallocs.granted
  intro new hgranted g hg
  refine hsupplied (l ++ new) ?_ g (List.mem_append_right l hg)
  rw [← hl, hgranted, List.append_assoc]

/-- The ledger of the allocations since `m`. -/
theorem Allocs.exists_ledger (hmax : m.pmm.maxBlocks ≤ 2 ^ 40) (hallocs : Allocs m m') :
    ∃ new, m'.granted = new ++ m.granted ∧ Ledger m.pmm { m' with granted := new } := by
  induction hallocs with
  | @refl m' hpmm hgranted =>
      rw [← hpmm]
      exact ⟨[], hgranted, Ledger.refl (m := { m' with granted := [] }) rfl⟩
  | @alloc m' m'' role hallocs hpmm hgranted ih =>
      obtain ⟨new, hnew, hledger⟩ := ih
      refine ⟨(role, m'.pmm.pmmAllocBlock.1) :: new, ?_, hledger.alloc hmax hpmm rfl⟩
      rw [hgranted, hnew, List.cons_append]

/-- The allocator grants frames that are free: neither tables nor part of the file. -/
theorem VideoReady.allocates (hready : VideoReady m slots file len) (hallocs : Allocs m m')
    (hsupplied : Supplied m m') : Allocates m slots file len m' := by
  obtain ⟨new, hgranted, hledger⟩ := hallocs.exists_ledger hready.maxBlocks
  have hfree : ∀ g ∈ new, ∃ i < 2 ^ 40, g.2 = 4096 * i ∧ (∀ q ∈ paths slots, m.node q ≠ some i) ∧
      Apart (4096 * i) file len := by
    intro g hg
    obtain ⟨i, hi, haddr, hfree, -⟩ := hledger.marked g hg (hsupplied new hgranted g hg)
    obtain ⟨hunused, hapart⟩ := hready.unused i hi hfree
    have hmax := hready.maxBlocks
    exact ⟨i, by omega, haddr, hunused, hapart⟩
  refine .of_granted hgranted ⟨hledger.nodup (hsupplied new hgranted), fun g hg => ?_⟩
    fun g hg => ?_
  · obtain ⟨i, hi, haddr, hunused, -⟩ := hfree g hg
    have hne := hsupplied new hgranted g hg
    refine ⟨⟨hne, by omega, by omega⟩, ?_⟩
    rwa [haddr, Nat.mul_div_cancel_left i (by decide)]
  · obtain ⟨i, -, haddr, -, hapart⟩ := hfree g hg
    rwa [haddr]

/-! ## The loop -/

/-- The first `count` pages of the window are mapped to the frames from `first` on; the
other translations and the file are those of `base`. -/
structure Exposed (base : Machine) (slots : Set (Fin 512)) (file len first : ℕ)
    (new : List (FrameRole × ℕ)) (count : ℕ) (m : Machine) : Prop where
  grown : GrownFrom base slots new m
  file_eq : SameFile base.mem m.mem file len
  mapped : ∀ k < count, m.lookup (pathTo (videoPage k)) (slot (videoPage k) 12) =
    some (leafEntry (4096 * (first + k)) 0x7)
  kept : ∀ q ∈ paths slots, q.length = 3 → ∀ j,
    (∀ k < count, ¬ (q = pathTo (videoPage k) ∧ j = slot (videoPage k) 12)) →
    m.lookup q j = base.lookup q j

/-- The window ends below 2^33. -/
theorem videoPage_lt (hk : k < 2 ^ 20 + 2) :
    videoPage k < 2 ^ 33 ∧ slot (videoPage k) 39 = 0 ∧ page (videoPage k) = 0x80000 + k := by
  have hlt : videoPage k < 2 ^ 33 := by
    unfold videoPage
    omega
  refine ⟨hlt, ?_, ?_⟩
  · apply Fin.ext
    change index _ _ = 0
    rw [index_eq]
    omega
  · unfold page videoPage
    omega

theorem Exposed.step (hready : VideoReady base slots file len) (hslot : 0 ∈ slots) {first : ℕ}
    (hexposed : Exposed base slots file len first new count m) (hcount : count < 2 ^ 20 + 2)
    (hallocs : Allocs base m)
    (hsupplied : Supplied base (m.vmmMapPage (4096 * (first + count)) (videoPage count) 0x7)) :
    ∃ new', Exposed base slots file len first new' (count + 1)
      (m.vmmMapPage (4096 * (first + count)) (videoPage count) 0x7) := by
  obtain ⟨-, hslotPage, hpage⟩ := videoPage_lt hcount
  have hslot' : slot (videoPage count) 39 ∈ slots := by rwa [hslotPage]
  have hallocs' := hallocs.trans
    (vmmMapPage_allocs m (4096 * (first + count)) (videoPage count) 0x7)
  obtain ⟨hfresh, hapart⟩ := hready.allocates hallocs' hsupplied
  obtain ⟨more, hgrown, -, hmaps⟩ := hexposed.grown.vmmMapPage hslot' _ 0x7 hfresh
  generalize m.vmmMapPage (4096 * (first + count)) (videoPage count) 0x7 = next at *
  refine ⟨more ++ new, hgrown, fun x hlo hhi => ?_, fun k hk => ?_, fun q hq hlen j hother => ?_⟩
  · rw [← hexposed.file_eq x hlo hhi]
    exact hmaps.outside x fun q hq =>
      hgrown.file_not_table hready.ready (hapart _ hgrown.granted) hlo hhi hq
  · obtain ⟨-, hslotK, hpageK⟩ := videoPage_lt (show k < 2 ^ 20 + 2 by omega)
    have hpath := (mem_paths_of_slot (show slot (videoPage k) 39 ∈ slots by rwa [hslotK])).2.2
    rw [hmaps.lookup_eq _ hpath rfl]
    rcases Nat.lt_succ_iff_lt_or_eq.mp hk with hlt | rfl
    · rw [if_neg, hexposed.mapped k hlt]
      intro h
      have := page_eq_iff.mpr h
      omega
    · rw [if_pos ⟨rfl, rfl⟩]
  · rw [hmaps.lookup_eq q hq hlen, if_neg (hother count (Nat.lt_succ_self _))]
    exact hexposed.kept q hq hlen j fun k hk => hother k (by omega)

theorem pagesNeeded_eq (vidPhys : ℕ) {vidSize : ℕ} (hsize : vidSize < 2 ^ 32) :
    pagesNeeded vidPhys vidSize = (vidSize + vidPhys % 4096 + 4095) / 4096 ∧
      pagesNeeded vidPhys vidSize < 2 ^ 20 + 2 := by
  have hsum : (vidSize + vidPhys % 4096 + 4095) % 2 ^ 64 = vidSize + vidPhys % 4096 + 4095 :=
    Nat.mod_eq_of_lt (by omega)
  unfold pagesNeeded
  rw [hsum]
  omega

/-- The loop maps the pages in order and keeps the bytes of `file`. -/
theorem VideoReady.exposed (hready : VideoReady m slots file len) (hslot : 0 ∈ slots)
    {vidPhys vidSize : ℕ} (hsize : vidSize < 2 ^ 32) (hfits : vidPhys + vidSize ≤ 2 ^ 52)
    (hsupplied : Supplied m (m.mapVideo vidPhys vidSize)) :
    ∃ new, Exposed m slots file len (vidPhys / 4096) new (pagesNeeded vidPhys vidSize)
      (m.mapVideo vidPhys vidSize) := by
  obtain ⟨-, hpages⟩ := pagesNeeded_eq vidPhys hsize
  have hloop : Allocs m (m.mapVideo vidPhys vidSize) ∧
      (Supplied m (m.mapVideo vidPhys vidSize) →
        ∃ new, Exposed m slots file len (vidPhys / 4096) new (pagesNeeded vidPhys vidSize)
          (m.mapVideo vidPhys vidSize)) := by
    unfold Machine.mapVideo
    apply Loop.times_invariant (fun i m' => Allocs m m' ∧ (Supplied m m' →
      ∃ new, Exposed m slots file len (vidPhys / 4096) new i m'))
    · refine ⟨.refl rfl rfl, fun _ => ⟨[], .refl hready.ready.tree, fun _ _ _ => rfl, ?_, ?_⟩⟩
      · exact fun k hk => absurd hk (Nat.not_lt_zero k)
      · exact fun _ _ _ _ _ => rfl
    · intro i hi m' hinv
      obtain ⟨hallocs, hexposed⟩ := hinv
      have hphys : (4096 * (vidPhys / 4096) + i * 4096) % 2 ^ 64 = 4096 * (vidPhys / 4096 + i) := by
        rw [Nat.mod_eq_of_lt (by omega)]
        ring
      have hvirt : (0x80000000 + i * 4096) % 2 ^ 64 = videoPage i := by
        rw [Nat.mod_eq_of_lt (by omega), videoPage, Nat.mul_comm i]
      rw [hphys, hvirt]
      have hstep := vmmMapPage_allocs m' (4096 * (vidPhys / 4096 + i)) (videoPage i) 0x7
      refine ⟨hallocs.trans hstep, fun hsupplied => ?_⟩
      obtain ⟨new, hexposed⟩ := hexposed (hsupplied.of_allocs hstep)
      exact hexposed.step hready hslot (by omega) hallocs hsupplied
  exact hloop.2 hsupplied

/-! ## The window -/

theorem Exposed.translate {first n : ℕ} (hexposed : Exposed base slots file len first new count m)
    (hslot : 0 ∈ slots) (hcount : count ≤ 2 ^ 20 + 2) (hn : n / 4096 < count)
    (hframe : first + n / 4096 < 2 ^ 40) :
    m.translate (0x80000000 + n) = some (4096 * first + n) := by
  obtain ⟨-, hslotPage, hpage⟩ := videoPage_lt (show n / 4096 < 2 ^ 20 + 2 by omega)
  have hsame : page (0x80000000 + n) = page (videoPage (n / 4096)) := by
    rw [hpage]
    unfold page
    omega
  obtain ⟨hpath, hindex⟩ := page_eq_iff.mp hsame
  have hslot' : slot (0x80000000 + n) 39 ∈ slots := by
    rwa [(List.cons.inj hpath).1, hslotPage]
  have hentry := hexposed.mapped (n / 4096) hn
  rw [← hpath, ← hindex] at hentry
  rw [translate_of_lookup hexposed.grown.tree hslot' (Or.inl (by omega)) hframe hentry]
  congr 1
  omega

/-- An address on no page of the window keeps its translation. -/
theorem Exposed.translate_of_outside {first : ℕ}
    (hexposed : Exposed base slots file len first new count m) (htree : base.TreeOn slots)
    (hslot : slot virt 39 ∈ slots) (hcount : count ≤ 2 ^ 20 + 2)
    (houtside : virt < 0x80000000 ∨ 0x80000000 + 4096 * count ≤ virt) :
    m.translate virt = base.translate virt := by
  unfold Machine.translate
  by_cases hcanonical : Canonical virt
  · rw [walk_eq_lookup hexposed.grown.tree hslot, walk_eq_lookup htree hslot,
      hexposed.kept _ (mem_paths_of_slot hslot).2.2 rfl]
    intro k hk h
    have hsame := page_eq_iff.mpr h
    rw [(videoPage_lt (show k < 2 ^ 20 + 2 by omega)).2.2] at hsame
    unfold page at hsame
    unfold Canonical at hcanonical
    omega
  · rw [if_neg hcanonical, if_neg hcanonical]

/-- Neither tables nor free frames hold a byte of the pages of the file. -/
theorem VideoReady.page (hready : VideoReady m slots file len) :
    VideoReady m slots (file - file % 4096) (file % 4096 + len) := by
  have hextend : ∀ f, Apart (4096 * f) file len →
      Apart (4096 * f) (file - file % 4096) (file % 4096 + len) := by
    intro f hf
    unfold Apart at hf ⊢
    omega
  refine ⟨hready.maxBlocks, ⟨hready.ready.tree, fun q hq f hf => ?_⟩, fun i hi hfree => ?_⟩
  · exact hextend f (hready.ready.apart q hq f hf)
  · obtain ⟨hunused, hapart⟩ := hready.unused i hi hfree
    exact ⟨hunused, hextend i hapart⟩

/-- The window shows memory from the first byte of the file's first page to the last
byte of the file. -/
theorem VideoReady.reads {phys vidSize n : ℕ} (hready : VideoReady m slots phys vidSize)
    (hslot : 0 ∈ slots) (hsize : vidSize < 2 ^ 32) (hfits : phys + vidSize ≤ 2 ^ 52)
    (hsupplied : Supplied m (m.mapVideo phys vidSize))
    (hn : n < phys % 4096 + vidSize) :
    (m.mapVideo phys vidSize).translate (0x80000000 + n) = some (phys - phys % 4096 + n) ∧
      (m.mapVideo phys vidSize).readByte (0x80000000 + n) =
        some (m.mem (phys - phys % 4096 + n)) := by
  obtain ⟨hcount, hpages⟩ := pagesNeeded_eq phys hsize
  obtain ⟨new, hexposed⟩ := hready.page.exposed hslot hsize hfits hsupplied
  have htranslate := hexposed.translate (n := n) hslot hpages.le (by omega) (by omega)
  rw [show 4096 * (phys / 4096) = phys - phys % 4096 by omega] at htranslate
  refine ⟨htranslate, ?_⟩
  rw [readByte, htranslate, Option.map_some, hexposed.file_eq _ (by omega) (by omega)]

/-- Every byte of the file is behind its address in the window, and no address past the
page of the last one gets another translation. -/
theorem mapVideo_exposes {vidPtr hhdmOffset phys vidSize : ℕ}
    (hphys : phys = vidPhys vidPtr hhdmOffset) (hready : VideoReady m slots phys vidSize)
    (hslot : 0 ∈ slots) (hpos : 1 ≤ vidSize) (hsize : vidSize < 2 ^ 32)
    (hfits : phys + vidSize ≤ 2 ^ 52)
    (hmap : m' = m.mapVideo (vidPhys vidPtr hhdmOffset) vidSize) (hsupplied : Supplied m m') :
    (∀ i < vidSize, m'.translate (0x80000000 + phys % 4096 + i) = some (phys + i) ∧
      m'.readByte (0x80000000 + phys % 4096 + i) = some (m.mem (phys + i))) ∧
    ∀ virt, slot virt 39 ∈ slots →
      (virt < 0x80000000 ∨ (0x80000000 + phys % 4096 + vidSize - 1) / 4096 < virt / 4096) →
      m'.translate virt = m.translate virt := by
  rw [← hphys] at hmap
  subst hmap
  constructor
  · intro i hi
    obtain ⟨htranslate, hread⟩ := hready.reads (n := phys % 4096 + i) hslot hsize hfits
      hsupplied (by omega)
    rw [← Nat.add_assoc, show phys - phys % 4096 + (phys % 4096 + i) = phys + i by omega]
      at htranslate hread
    exact ⟨htranslate, hread⟩
  · intro virt hvirt houtside
    obtain ⟨hcount, hpages⟩ := pagesNeeded_eq phys hsize
    obtain ⟨new, hexposed⟩ := hready.exposed hslot hsize hfits hsupplied
    exact hexposed.translate_of_outside hready.ready.tree hvirt hpages.le (by omega)

theorem emptyTables_freeFrom : FreeFrom emptyTables 2 := by
  refine ⟨by decide, by decide, ?_⟩
  have hall : ∀ i < 8, emptyTables.pmm.isUsed (i : ℕ) = decide (i < 2) := by decide +kernel
  exact hall

/-- A memory with nothing below the end of the frames keeps the tables empty. -/
theorem emptyTables_setMem_ready {mem : Memory} (hzero : ∀ x < 0x8000, mem x = 0)
    (hfile : 0x8000 ≤ file) : VideoReady (emptyTables.setMem mem) Set.univ file len := by
  have hroot : (emptyTables.setMem mem).root = emptyTables.root := rfl
  have hone : emptyTables.root = 1 := by decide
  have habsent : ∀ i ∈ Set.univ, isPresent
      (tables (emptyTables.setMem mem).mem (emptyTables.setMem mem).root i) = false := by
    intro i hi
    have hload : tables mem 1 i = tables emptyTables.mem 1 i :=
      Memory.load_congr fun k hk => hzero _ (by omega)
    rw [← hone] at hload
    rw [hroot, show (emptyTables.setMem mem).mem = mem by rfl, hload]
    exact emptyTables_absent i hi
  have hnode : ∀ q ∈ paths Set.univ, ∀ f, (emptyTables.setMem mem).node q = some f → f = 1 := by
    intro q hq f hf
    rw [(node_of_absent habsent hq hf).2, hroot, hone]
  refine ⟨show emptyTables.pmm.maxBlocks ≤ _ by decide,
    ⟨treeOn_of_absent habsent, fun q hq f hf => ?_⟩, ?_⟩
  · rw [hnode q hq f hf]
    left
    omega
  · intro i hi hfree
    have hi' : i < 8 := hi
    rw [CInt.toI32_natCast (by omega)] at hfree
    have hlow := of_decide_eq_false ((emptyTables_freeFrom.used i hi).symm.trans hfree)
    refine ⟨fun q hq hi => ?_, ?_⟩
    · have := hnode q hq i hi
      omega
    · left
      omega

/-- Every page takes at most three frames. -/
theorem mapVideo_length (m : Machine) (phys vidSize : ℕ) :
    (m.mapVideo phys vidSize).granted.length ≤
      m.granted.length + 3 * pagesNeeded phys vidSize := by
  unfold Machine.mapVideo
  apply Loop.times_invariant
    (fun i (m' : Machine) => m'.granted.length ≤ m.granted.length + 3 * i)
  · exact le_refl _
  · intro i _ m' hlength
    have hstep := vmmMapPage_length m' ((4096 * (phys / 4096) + i * 4096) % 2 ^ 64)
      ((0x80000000 + i * 4096) % 2 ^ 64) 0x7
    omega

/-- The frames that two pages need are free. -/
theorem emptyTables_setMem_supplied (mem : Memory) {phys vidSize : ℕ}
    (hpages : pagesNeeded phys vidSize ≤ 2) :
    Supplied (emptyTables.setMem mem) ((emptyTables.setMem mem).mapVideo phys vidSize) := by
  have hfree : FreeFrom (emptyTables.setMem mem) 2 :=
    ⟨emptyTables_freeFrom.pos, emptyTables_freeFrom.maxBlocks, emptyTables_freeFrom.used⟩
  have hlength := mapVideo_length (emptyTables.setMem mem) phys vidSize
  have hempty : (emptyTables.setMem mem).granted.length = 0 := rfl
  have hmax : (emptyTables.setMem mem).pmm.maxBlocks = 8 := rfl
  have hnull := hfree.allocs (fun g hg => absurd hg List.not_mem_nil)
    (mapVideo_allocs _ phys vidSize) (by omega)
  intro new hgranted g hg
  exact hnull g (hgranted ▸ List.mem_append_left _ hg)

/-- The empty tables, and a file of four bytes across the end of a page. -/
def splitVideo : Machine := emptyTables.setMem fun x => if x = 0x9001 then 7 else 0

def splitWindow : Machine :=
  splitVideo.mapVideo (vidPhys 0xFFFF800000008FFE 0xFFFF800000000000) 4

/-- Both pages are in the window, and no third one. -/
theorem splitVideo_exposed :
    splitWindow.translate 0x80000FFE = some 0x8FFE ∧ splitWindow.readByte 0x80001001 = some 7 ∧
      splitWindow.translate 0x80002000 = none := by
  have hphys : 0x8FFE = vidPhys 0xFFFF800000008FFE 0xFFFF800000000000 := by decide
  have hready : VideoReady splitVideo Set.univ 0x8FFE 4 :=
    emptyTables_setMem_ready (fun x hx => if_neg (by omega)) (by decide)
  have hsupplied : Supplied splitVideo splitWindow := emptyTables_setMem_supplied _ (by decide)
  obtain ⟨hshown, hkept⟩ := mapVideo_exposes hphys hready (Set.mem_univ 0) (by decide) (by decide)
    (by decide) (show splitWindow = _ from rfl) hsupplied
  have hbefore : splitVideo.translate 0x80002000 = none := by decide +kernel
  exact ⟨(hshown 0 (by decide)).1, (hshown 3 (by decide)).2,
    (hkept _ (Set.mem_univ _) (Or.inr (by decide))).trans hbefore⟩

end Machine

end BadOS.Kernel
