import BadOS.Kernel.BootFrames

/-! # The bitmap in physical memory

With its bitmap in physical memory the machine does what it does with the bitmap kept apart,
as long as no word of the bitmap is in a table or in a frame that is handed out.
-/

namespace BadOS.Kernel

open RadixTree

namespace Pmm

/-- The words of the bitmap are in the `len` bytes from `lo` on. -/
structure BitmapIn (p : Pmm) (lo len : ℕ) : Prop where
  bitmap_eq : p.pmmBitmap = lo
  words_le : 4 * ((p.maxBlocks + 31) / 32) ≤ len
  maxBlocks_le : p.maxBlocks ≤ 2 ^ 31
  memory : lo + len ≤ 2 ^ 64

/-- The word of block `b` is in the `len` bytes from `lo` on. -/
def WordInside (p : Pmm) (lo len : ℕ) (b : ℤ) : Prop :=
  lo ≤ p.wordAddr (wordOf b) ∧ p.wordAddr (wordOf b) + 4 ≤ lo + len

variable {p q : Pmm} {lo len i : ℕ} {b : ℤ}

theorem BitmapIn.wordInside (hbitmap : p.BitmapIn lo len) (hi : i < p.maxBlocks) :
    p.WordInside lo len (CInt.toI32 i) := by
  obtain ⟨rfl, hwords, hmax, hmemory⟩ := hbitmap
  have haddr : (p.pmmBitmap : ℤ) + 4 * (i / 32 : ℕ) = (p.pmmBitmap + 4 * (i / 32) : ℕ) := by
    push_cast
    rfl
  unfold WordInside
  rw [CInt.toI32_natCast (by omega), wordOf_natCast, wordAddr, haddr,
    CInt.toU64_natCast (by omega)]
  omega

theorem BitmapIn.congr (hbitmap : p.BitmapIn lo len) (haddr : q.pmmBitmap = p.pmmBitmap)
    (hmax : q.maxBlocks = p.maxBlocks) : q.BitmapIn lo len := by
  refine ⟨?_, ?_, ?_, hbitmap.memory⟩
  · rw [haddr]
    exact hbitmap.bitmap_eq
  · rw [hmax]
    exact hbitmap.words_le
  · rw [hmax]
    exact hbitmap.maxBlocks_le

theorem BitmapIn.markUsed (hbitmap : p.BitmapIn lo len) (b : ℤ) :
    (p.markUsed b).BitmapIn lo len := hbitmap.congr rfl rfl

theorem markUsed_withMem (p : Pmm) (mem : Memory) (b : ℤ) :
    markUsed { p with mem := mem } b = { p.markUsed b with
      mem := mem.store (p.wordAddr (wordOf b)) 4
        (word { p with mem := mem } (wordOf b) ||| 1 <<< shiftOf b) } := rfl

theorem pmmAllocBlock_of_some (hfree : p.findFree = some i) :
    p.pmmAllocBlock = (blockAddr i, p.markUsed (CInt.toI32 i)) := by
  rw [pmmAllocBlock, hfree]

theorem pmmAllocBlock_of_none (hfree : p.findFree = none) : p.pmmAllocBlock = (0, p) := by
  rw [pmmAllocBlock, hfree]

end Pmm

namespace Machine

/-- `phys` is `m` with the bitmap in its memory. -/
structure Mirrors (lo len : ℕ) (m phys : Machine) : Prop where
  cr3_eq : phys.cr3 = m.cr3
  granted_eq : phys.granted = m.granted
  pmm_eq : phys.physPmm = { m.pmm with mem := phys.mem }
  bitmap : m.pmm.BitmapIn lo len
  inside : ∀ x, lo ≤ x → x < lo + len → phys.mem x = m.pmm.mem x
  outside : ∀ x, x < lo ∨ lo + len ≤ x → phys.mem x = m.mem x

variable {base m m' phys phys' : Machine} {slots : Set (Fin 512)} {lo len table i n a virt : ℕ}
variable {new : List (FrameRole × ℕ)} {role : FrameRole}

theorem Mirrors.refl (hphys : m.physPmm = m.pmm) (hbitmap : m.pmm.BitmapIn lo len) :
    Mirrors lo len m m := by
  have hmem : m.pmm.mem = m.mem := congrArg Pmm.mem hphys.symm
  exact ⟨rfl, rfl, rfl, hbitmap, fun _ _ _ => by rw [hmem], fun _ _ => rfl⟩

/-! ## Allocations -/

theorem Mirrors.word_eq (h : Mirrors lo len m phys) {b : ℤ} (hb : m.pmm.WordInside lo len b) :
    phys.physPmm.word (Pmm.wordOf b) = m.pmm.word (Pmm.wordOf b) := by
  obtain ⟨hlo, hhi⟩ := hb
  rw [h.pmm_eq]
  exact Memory.load_congr fun k hk => h.inside _ (hlo.trans (Nat.le_add_right _ k)) (by
    have haddr : Pmm.wordAddr { m.pmm with mem := phys.mem } (Pmm.wordOf b) =
        m.pmm.wordAddr (Pmm.wordOf b) := rfl
    omega)

theorem Mirrors.findFree_eq (h : Mirrors lo len m phys) :
    phys.physPmm.findFree = m.pmm.findFree := by
  have hmax : phys.physPmm.maxBlocks = m.pmm.maxBlocks := by rw [h.pmm_eq]
  unfold Pmm.findFree
  rw [hmax]
  refine List.find?_congr fun i hi => ?_
  rw [Pmm.mmapTest, Pmm.mmapTest, h.word_eq (h.bitmap.wordInside (List.mem_range.mp hi))]

/-- Marking a block in both bitmaps. -/
theorem Mirrors.markUsed (h : Mirrors lo len m phys) {b : ℤ} (hb : m.pmm.WordInside lo len b) :
    ∃ mem, phys.physPmm.markUsed b = { m.pmm.markUsed b with mem := mem } ∧
      (∀ x, lo ≤ x → x < lo + len → mem x = (m.pmm.markUsed b).mem x) ∧
      ∀ x, x < lo ∨ lo + len ≤ x → mem x = m.mem x := by
  have hword := h.word_eq hb
  obtain ⟨hlo, hhi⟩ := hb
  rw [h.pmm_eq] at hword ⊢
  rw [Pmm.markUsed_withMem, hword]
  refine ⟨_, rfl, fun x hxlo hxhi => ?_, fun x hx => ?_⟩
  · unfold Pmm.markUsed Pmm.mmapSet Pmm.setWord Memory.store
    dsimp only
    rw [h.inside x hxlo hxhi]
  · rw [Memory.store_outside (by omega)]
    exact h.outside x hx

/-- New bitmaps that agree, and one more entry in the logs. -/
theorem Mirrors.setPmm (h : Mirrors lo len m phys) {p : Pmm} {mem : Memory} (g : FrameRole × ℕ)
    (hbitmap : p.BitmapIn lo len) (hinside : ∀ x, lo ≤ x → x < lo + len → mem x = p.mem x)
    (houtside : ∀ x, x < lo ∨ lo + len ≤ x → mem x = m.mem x) :
    Mirrors lo len { m with pmm := p, granted := g :: m.granted }
      { phys with mem := mem, pmm := { p with mem := mem }, granted := g :: phys.granted } := by
  refine ⟨h.cr3_eq, ?_, rfl, hbitmap, hinside, houtside⟩
  dsimp only
  rw [h.granted_eq]

/-- The allocation returns the same frame, and marks it in both bitmaps. -/
theorem Mirrors.alloc (h : Mirrors lo len m phys) (role : FrameRole) :
    (phys.allocPhys role).1 = (m.allocBlock role).1 ∧
      Mirrors lo len (m.allocBlock role).2 (phys.allocPhys role).2 := by
  have hfind := h.findFree_eq
  unfold allocPhys allocBlock
  cases hfree : m.pmm.findFree with
  | none =>
      rw [Pmm.pmmAllocBlock_of_none hfree, Pmm.pmmAllocBlock_of_none (hfind.trans hfree), h.pmm_eq]
      exact ⟨rfl, h.setPmm (role, 0) h.bitmap h.inside h.outside⟩
  | some i =>
      obtain ⟨-, hi, -⟩ := List.find?_range_eq_some.mp hfree
      rw [Pmm.pmmAllocBlock_of_some hfree, Pmm.pmmAllocBlock_of_some (hfind.trans hfree)]
      have hword := h.bitmap.wordInside (List.mem_range.mp hi)
      generalize CInt.toI32 i = b at hword ⊢
      obtain ⟨mem, hmark, hinside, houtside⟩ := h.markUsed hword
      rw [hmark]
      exact ⟨rfl, h.setPmm _ (h.bitmap.markUsed b) hinside houtside⟩

/-! ## Stores -/

theorem Mirrors.setMem (h : Mirrors lo len m phys) {mem mem' : Memory}
    (hinside : ∀ x, lo ≤ x → x < lo + len → mem' x = phys.mem x)
    (houtside : ∀ x, x < lo ∨ lo + len ≤ x → mem' x = mem x) :
    Mirrors lo len (m.setMem mem) (phys.setMem mem') := by
  refine ⟨h.cr3_eq, h.granted_eq, ?_, h.bitmap, fun x hlo hhi => ?_, houtside⟩
  · have hfields := h.pmm_eq
    unfold physPmm at hfields ⊢
    simp only [Pmm.mk.injEq, true_and] at hfields ⊢
    exact hfields
  · exact (hinside x hlo hhi).trans (h.inside x hlo hhi)

theorem Mirrors.load_eq (h : Mirrors lo len m phys) {k : ℕ} (hapart : a + k ≤ lo ∨ lo + len ≤ a) :
    phys.mem.load a k = m.mem.load a k :=
  Memory.load_congr fun _ _ => h.outside _ (by omega)

theorem Mirrors.entry_eq (h : Mirrors lo len m phys) (hapart : Apart table lo len)
    (hi : i < 512) : entry phys.mem table i = entry m.mem table i := by
  unfold Apart at hapart
  exact h.load_eq (by omega)

theorem Mirrors.setEntry (h : Mirrors lo len m phys) (hapart : Apart table lo len) (hi : i < 512)
    (v : ℕ) : Mirrors lo len (m.setMem (BadOS.Kernel.setEntry m.mem table i v))
      (phys.setMem (BadOS.Kernel.setEntry phys.mem table i v)) := by
  unfold Apart at hapart
  refine h.setMem (fun x hlo hhi => Memory.store_outside (by omega)) fun x hx => ?_
  unfold BadOS.Kernel.setEntry Memory.store
  rw [h.outside x hx]

theorem Mirrors.memset (h : Mirrors lo len m phys) (hapart : Apart a lo len) :
    Mirrors lo len (m.setMem (Libc.memset m.mem a 0 4096))
      (phys.setMem (Libc.memset phys.mem a 0 4096)) := by
  unfold Apart at hapart
  rw [Libc.memset_eq_fill, Libc.memset_eq_fill]
  refine h.setMem (fun x hlo hhi => Memory.fill_outside (by omega)) fun x hx => ?_
  unfold Memory.fill
  rw [h.outside x hx]

/-! ## The log in physical memory -/

theorem allocPhys_granted (m : Machine) (role : FrameRole) :
    m.granted <:+ (m.allocPhys role).2.granted := List.suffix_cons _ _

theorem ensureTable_granted (m : Machine) (role : FrameRole) (table i : ℕ) :
    m.granted <:+ (m.ensureTable role table i allocPhys).granted := by
  unfold Machine.ensureTable
  split
  · exact allocPhys_granted m role
  · exact List.suffix_refl _

theorem vmmMapPage_granted (m : Machine) (phys virt flags : ℕ) :
    m.granted <:+ (m.vmmMapPage phys virt flags allocPhys).granted := by
  unfold Machine.vmmMapPage
  dsimp only [setMem]
  exact ((ensureTable_granted _ _ _ _).trans (ensureTable_granted _ _ _ _)).trans
    (ensureTable_granted _ _ _ _)

theorem mapNewPage_granted (m : Machine) (role : FrameRole) (virt flags : ℕ) :
    m.granted <:+ (m.mapNewPage role virt flags allocPhys).granted :=
  (allocPhys_granted m role).trans (vmmMapPage_granted _ _ virt flags)

/-- Neither the one machine nor the other has had an allocation fail. -/
def EitherServed (m phys : Machine) : Prop := m.NeverNull ∨ phys.NeverNull

theorem EitherServed.of_granted (hm : m.granted <:+ m'.granted)
    (hphys : phys.granted <:+ phys'.granted) (h : EitherServed m' phys') : EitherServed m phys :=
  h.imp (fun hnull g hg => hnull g (hm.subset hg)) fun hnull g hg => hnull g (hphys.subset hg)

theorem Mirrors.neverNull (h : Mirrors lo len m phys) (hserved : EitherServed m phys) :
    m.NeverNull ∧ phys.NeverNull := by
  unfold EitherServed NeverNull at *
  rw [h.granted_eq] at hserved ⊢
  exact ⟨hserved.elim id id, hserved.elim id id⟩

/-! ## Mapping pages -/

/-- The tables of `base` and the frames granted since then hold no word of the bitmap, and
these frames are fresh. -/
structure Guards (base : Machine) (slots : Set (Fin 512)) (lo len : ℕ) : Prop where
  ready : Ready base slots lo len
  allocates : ∀ m, Allocs base m → m.NeverNull → Allocates base slots lo len m

/-- `phys` mirrors a machine that comes from `base` by allocations for tables and pages. -/
structure Tracks (base : Machine) (slots : Set (Fin 512)) (lo len : ℕ) (m phys : Machine) :
    Prop where
  mirrors : Mirrors lo len m phys
  allocs : Allocs base m
  grown : ∃ new, GrownFrom base slots new m

theorem Tracks.apart (h : Tracks base slots lo len m phys) (hguards : Guards base slots lo len)
    (hnull : m.NeverNull) {q : List (Fin 512)} (hq : q ∈ paths slots) {f : ℕ}
    (hf : m.node q = some f) : Apart (4096 * f) lo len := by
  obtain ⟨new, hgrown⟩ := h.grown
  rcases hgrown.node q hq f hf with hold | ⟨role, -, hgrant⟩
  · exact hguards.ready.apart q hq f hold
  · exact (hguards.allocates m h.allocs hnull).apart _ hgrown.granted _ hgrant

/-- A machine guards the bitmap as well after some allocations. -/
theorem Guards.later (hguards : Guards base slots lo len) (hgrown : GrownFrom base slots new m)
    (hallocs : Allocs base m) (hnull : m.NeverNull) : Guards m slots lo len := by
  have hapart := (hguards.allocates m hallocs hnull).apart _ hgrown.granted
  refine ⟨⟨hgrown.tree, fun q hq f hf => ?_⟩, fun m' hlater hnull' => ?_⟩
  · rcases hgrown.node q hq f hf with hold | ⟨role, -, hgrant⟩
    · exact hguards.ready.apart q hq f hold
    · exact hapart _ hgrant
  · have hallocates := hguards.allocates m' (hallocs.trans hlater) hnull'
    have hlog : ∀ more, m'.granted = more ++ m.granted →
        m'.granted = (more ++ new) ++ base.granted := by
      intro more hgranted
      rw [hgranted, hgrown.granted, List.append_assoc]
    exact ⟨fun more hgranted => hgrown.freshLog (hallocates.fresh _ (hlog more hgranted)),
      fun more hgranted g hg =>
        hallocates.apart _ (hlog more hgranted) g (List.mem_append_left new hg)⟩

/-- Both machines have the same tables when the bitmap is in none. -/
theorem Mirrors.sameTables (h : Mirrors lo len m phys)
    (hapart : ∀ q ∈ paths slots, ∀ f, m.node q = some f → Apart (4096 * f) lo len) :
    SameTables slots m phys := by
  refine ⟨h.cr3_eq, fun x hx => h.outside x ?_⟩
  obtain ⟨q, hq, hnode⟩ := hx
  have := hapart q hq _ hnode
  unfold Apart at this
  omega

/-- The next frame is no table and holds no word of the bitmap. -/
theorem Tracks.next (h : Tracks base slots lo len m phys) (hguards : Guards base slots lo len)
    (hserved : EitherServed (m.allocBlock role).2 (phys.allocPhys role).2) :
    m.FreshFrame slots m.pmm.pmmAllocBlock.1 ∧ Apart m.pmm.pmmAllocBlock.1 lo len := by
  obtain ⟨new, hgrown⟩ := h.grown
  have hnull := ((h.mirrors.alloc role).2.neverNull hserved).1
  have hnext := hgrown.allocBlock role
  have hallocates := hguards.allocates _ (h.allocs.trans (allocBlock_allocs m role)) hnull
  exact ⟨hgrown.freshFrame (hallocates.fresh _ hnext.granted),
    hallocates.apart _ hnext.granted _ List.mem_cons_self⟩

theorem Tracks.alloc (h : Tracks base slots lo len m phys) (role : FrameRole) :
    Tracks base slots lo len (m.allocBlock role).2 (phys.allocPhys role).2 := by
  obtain ⟨new, hgrown⟩ := h.grown
  exact ⟨(h.mirrors.alloc role).2, h.allocs.trans (allocBlock_allocs m role),
    _, hgrown.allocBlock role⟩

theorem ensureTable_of_entry {alloc : Allocator} (habsent : entry m.mem table i &&& 1 = 0) :
    m.ensureTable role table i alloc = (((alloc m role).2.setMem
      (Libc.memset (alloc m role).2.mem (alloc m role).1 0 4096)).setMem
      (BadOS.Kernel.setEntry (Libc.memset (alloc m role).2.mem (alloc m role).1 0 4096) table i
        ((alloc m role).1 ||| 0x7))) := by
  rw [Machine.ensureTable, if_pos habsent]
  rfl

/-- A table that is missing is missing in both machines, and made in both. -/
theorem Tracks.ensureTable (h : Tracks base slots lo len m phys)
    (hguards : Guards base slots lo len) (hrole : role.isTable = true) {p : List (Fin 512)}
    {i : Fin 512} {f : ℕ} (hp : p ++ [i] ∈ paths slots) (hnode : m.node p = some f)
    (hserved : EitherServed (m.ensureTable role (4096 * f) i)
      (phys.ensureTable role (4096 * f) i allocPhys)) :
    Tracks base slots lo len (m.ensureTable role (4096 * f) i)
        (phys.ensureTable role (4096 * f) i allocPhys) ∧
      (m.ensureTable role (4096 * f) i).node (p ++ [i]) =
        some (frameOf (entry (m.ensureTable role (4096 * f) i).mem (4096 * f) i)) ∧
      entry (phys.ensureTable role (4096 * f) i allocPhys).mem (4096 * f) i =
        entry (m.ensureTable role (4096 * f) i).mem (4096 * f) i := by
  obtain ⟨new, hgrown⟩ := h.grown
  have hallocs := ensureTable_allocs m role (4096 * f) i
  have hnull := (h.mirrors.neverNull
    (hserved.of_granted hallocs.granted (ensureTable_granted phys role (4096 * f) i))).1
  have hapart := h.apart hguards hnull (paths_prefixClosed slots p i hp) hnode
  have hentry := h.mirrors.entry_eq hapart i.isLt
  have hboth : (entry m.mem (4096 * f) i &&& 1 = 0 →
        m.FreshFrame slots m.pmm.pmmAllocBlock.1) ∧
      Mirrors lo len (m.ensureTable role (4096 * f) i)
        (phys.ensureTable role (4096 * f) i allocPhys) := by
    by_cases habsent : entry m.mem (4096 * f) i &&& 1 = 0
    · have habsent' : entry phys.mem (4096 * f) i &&& 1 = 0 := by rw [hentry]; exact habsent
      rw [ensureTable_of_entry habsent, ensureTable_of_entry habsent'] at hserved ⊢
      obtain ⟨hfresh, hframe⟩ := h.next hguards hserved
      obtain ⟨hsame, hmirrors⟩ := h.mirrors.alloc role
      have hframe' : Apart (m.allocBlock role).1 lo len := hframe
      rw [hsame]
      exact ⟨fun _ => hfresh, (hmirrors.memset hframe').setEntry hapart i.isLt _⟩
    · have hpresent : ¬ entry phys.mem (4096 * f) i &&& 1 = 0 := by rw [hentry]; exact habsent
      rw [Machine.ensureTable, if_neg habsent, Machine.ensureTable, if_neg hpresent]
      exact ⟨fun h => absurd h habsent, h.mirrors⟩
  obtain ⟨hfresh, hmirrors⟩ := hboth
  obtain ⟨hextends, hnode'⟩ := ensureTable_extends role hrole hgrown.tree hp hnode hfresh
  obtain ⟨more, hgrown', -⟩ := hgrown.extend hextends
  exact ⟨⟨hmirrors, h.allocs.trans hallocs, _, hgrown'⟩, hnode',
    hmirrors.entry_eq hapart i.isLt⟩

/-- `vmm_map_page` makes the same tables in both machines and sets the same entry. -/
theorem Tracks.vmmMapPage (h : Tracks base slots lo len m phys)
    (hguards : Guards base slots lo len) (hslot : slot virt 39 ∈ slots) (frame flags : ℕ)
    (hserved : EitherServed (m.vmmMapPage frame virt flags)
      (phys.vmmMapPage frame virt flags allocPhys)) :
    Tracks base slots lo len (m.vmmMapPage frame virt flags)
      (phys.vmmMapPage frame virt flags allocPhys) := by
  obtain ⟨hpath₁, hpath₂, hpath₃⟩ := mem_paths_of_slot hslot
  have hallocs := h.allocs.trans (vmmMapPage_allocs m frame virt flags)
  have hmirrors : Mirrors lo len (m.vmmMapPage frame virt flags)
      (phys.vmmMapPage frame virt flags allocPhys) := by
    unfold Machine.vmmMapPage at hserved ⊢
    dsimp only [getActivePageDir] at hserved ⊢
    rw [h.mirrors.cr3_eq] at hserved ⊢
    simp only [and_addrMask] at hserved ⊢
    have hslot₁ : ((slot virt 39 : Fin 512) : ℕ) = index virt 39 := rfl
    have hslot₂ : ((slot virt 30 : Fin 512) : ℕ) = index virt 30 := rfl
    have hslot₃ : ((slot virt 21 : Fin 512) : ℕ) = index virt 21 := rfl
    have hstage₁ := h.ensureTable hguards (show FrameRole.pdpt.isTable = true from rfl)
      (p := []) hpath₁
      (show m.node [] = some (frameOf m.cr3) from rfl)
    rw [hslot₁] at hstage₁
    generalize m.ensureTable .pdpt (4096 * frameOf m.cr3) (index virt 39) = m₁ at hserved hstage₁ ⊢
    generalize phys.ensureTable .pdpt (4096 * frameOf m.cr3) (index virt 39) allocPhys = phys₁
      at hserved hstage₁ ⊢
    obtain ⟨htracks₁, hnode₁, hentry₁⟩ := hstage₁ (hserved.of_granted
      ((ensureTable_allocs _ _ _ _).granted.trans (ensureTable_allocs _ _ _ _).granted)
      ((ensureTable_granted _ _ _ _).trans (ensureTable_granted _ _ _ _)))
    rw [hentry₁] at hserved ⊢
    generalize frameOf (entry m₁.mem (4096 * frameOf m.cr3) (index virt 39)) = pdpt
      at hserved hnode₁ ⊢
    have hstage₂ := htracks₁.ensureTable hguards (show FrameRole.pd.isTable = true from rfl)
      hpath₂ hnode₁
    rw [hslot₂] at hstage₂
    generalize m₁.ensureTable .pd (4096 * pdpt) (index virt 30) = m₂ at hserved hstage₂ ⊢
    generalize phys₁.ensureTable .pd (4096 * pdpt) (index virt 30) allocPhys = phys₂
      at hserved hstage₂ ⊢
    obtain ⟨htracks₂, hnode₂, hentry₂⟩ := hstage₂ (hserved.of_granted
      (ensureTable_allocs _ _ _ _).granted (ensureTable_granted _ _ _ _))
    rw [hentry₂] at hserved ⊢
    generalize frameOf (entry m₂.mem (4096 * pdpt) (index virt 30)) = pd at hserved hnode₂ ⊢
    have hstage₃ := htracks₂.ensureTable hguards (show FrameRole.pt.isTable = true from rfl)
      hpath₃ hnode₂
    rw [hslot₃] at hstage₃
    generalize m₂.ensureTable .pt (4096 * pd) (index virt 21) = m₃ at hserved hstage₃ ⊢
    generalize phys₂.ensureTable .pt (4096 * pd) (index virt 21) allocPhys = phys₃
      at hserved hstage₃ ⊢
    obtain ⟨htracks₃, hnode₃, hentry₃⟩ := hstage₃ hserved
    rw [hentry₃]
    have hindex : index virt 12 < 512 := (slot virt 12).isLt
    exact htracks₃.mirrors.setEntry
      (htracks₃.apart hguards (htracks₃.mirrors.neverNull hserved).1 hpath₃ hnode₃) hindex _
  obtain ⟨new, hgrown⟩ := h.grown
  have hallocates := hguards.allocates _ hallocs (hmirrors.neverNull hserved).1
  obtain ⟨more, hgrown', -⟩ := hgrown.vmmMapPage hslot frame flags hallocates.fresh
  exact ⟨hmirrors, hallocs, _, hgrown'⟩

theorem Tracks.mapNewPage (h : Tracks base slots lo len m phys)
    (hguards : Guards base slots lo len) (hslot : slot virt 39 ∈ slots) (role : FrameRole)
    (flags : ℕ) (hserved : EitherServed (m.mapNewPage role virt flags)
      (phys.mapNewPage role virt flags allocPhys)) :
    Tracks base slots lo len (m.mapNewPage role virt flags)
      (phys.mapNewPage role virt flags allocPhys) := by
  have hframe := (h.mirrors.alloc role).1
  unfold Machine.mapNewPage at hserved ⊢
  dsimp only at hserved ⊢
  rw [hframe] at hserved ⊢
  exact (h.alloc role).vmmMapPage hguards hslot _ flags hserved

end Machine

end BadOS.Kernel
