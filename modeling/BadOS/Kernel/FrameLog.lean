import BadOS.Kernel.AddressSpace

/-! # Frames granted since a starting machine

As long as the allocator grants every frame once and no table of the starting
machine, mapping pages builds a tree whose tables are those of the starting
machine and frames granted for tables.
-/

namespace BadOS.Kernel

open RadixTree

namespace Machine

/-- No frame is granted twice, and none is a table of `base`. -/
structure FreshLog (base : Machine) (slots : Set (Fin 512)) (new : List (FrameRole × ℕ)) :
    Prop where
  nodup : (new.map Prod.snd).Nodup
  fresh : ∀ g ∈ new, base.FreshFrame slots g.2

/-- `m` comes from `base` by the allocations in `new`; its tables are those of
`base` and frames granted for tables. -/
structure GrownFrom (base : Machine) (slots : Set (Fin 512)) (new : List (FrameRole × ℕ))
    (m : Machine) : Prop where
  cr3_eq : m.cr3 = base.cr3
  tree : m.TreeOn slots
  granted : m.granted = new ++ base.granted
  node : ∀ q ∈ paths slots, ∀ f, m.node q = some f →
    base.node q = some f ∨ ∃ role, role.isTable = true ∧ (role, 4096 * f) ∈ new

variable {base m m' : Machine} {slots : Set (Fin 512)} {new more : List (FrameRole × ℕ)}
variable {role : FrameRole} {a x virt table k : ℕ}

theorem GrownFrom.refl (htree : base.TreeOn slots) : GrownFrom base slots [] base :=
  ⟨rfl, htree, rfl, fun _ _ _ h => Or.inl h⟩

/-! ## Logs -/

theorem FreshLog.isFrame (hlog : FreshLog base slots new) (hgrant : (role, a) ∈ new) :
    IsFrame a := (hlog.fresh _ hgrant).1

theorem FreshLog.of_append (hlog : FreshLog base slots (more ++ new)) :
    FreshLog base slots new := by
  obtain ⟨hnodup, hfresh⟩ := hlog
  rw [List.map_append] at hnodup
  exact ⟨hnodup.of_append_right, fun g hg => hfresh g (List.mem_append_right more hg)⟩

/-- A frame has one role. -/
theorem FreshLog.role_unique (hlog : FreshLog base slots new) {role' : FrameRole}
    (hgrant : (role, a) ∈ new) (hgrant' : (role', a) ∈ new) : role = role' := by
  have hsame := List.inj_on_of_nodup_map hlog.nodup hgrant hgrant' rfl
  exact congrArg Prod.fst hsame

/-- A table in a frame that was no table of `base` was granted. -/
theorem GrownFrom.grant_of_node (hgrown : GrownFrom base slots new m)
    (hfresh : base.FreshFrame slots a) {q : List (Fin 512)} (hq : q ∈ paths slots)
    (hnode : m.node q = some (a / 4096)) : ∃ role', role'.isTable = true ∧ (role', a) ∈ new := by
  obtain ⟨hframe, hunused⟩ := hfresh
  have haligned : 4096 * (a / 4096) = a := by
    have := hframe.2.1
    omega
  rcases hgrown.node q hq _ hnode with hold | ⟨role', htable, hgrant⟩
  · exact absurd hold (hunused q hq)
  · rw [haligned] at hgrant
    exact ⟨role', htable, hgrant⟩

/-- A frame granted for something else than a table is no table. -/
theorem GrownFrom.node_ne (hgrown : GrownFrom base slots new m) (hlog : FreshLog base slots new)
    (hgrant : (role, a) ∈ new) (hrole : role.isTable = false) {q : List (Fin 512)}
    (hq : q ∈ paths slots) : m.node q ≠ some (a / 4096) := by
  intro hnode
  obtain ⟨role', htable, hgrant'⟩ := hgrown.grant_of_node (hlog.fresh _ hgrant) hq hnode
  rw [hlog.role_unique hgrant hgrant', htable] at hrole
  cases hrole

/-- The next frame is no table. -/
theorem GrownFrom.freshFrame (hgrown : GrownFrom base slots new m)
    (hlog : FreshLog base slots ((role, a) :: new)) : m.FreshFrame slots a := by
  have hfresh := hlog.fresh _ List.mem_cons_self
  refine ⟨hfresh.1, fun q hq hnode => ?_⟩
  obtain ⟨role', -, hgrant⟩ := hgrown.grant_of_node hfresh hq hnode
  have hnodup := hlog.nodup
  rw [List.map_cons, List.nodup_cons] at hnodup
  exact hnodup.1 (List.mem_map.mpr ⟨_, hgrant, rfl⟩)

/-! ## Allocations -/

/-- `m'` has the allocator of `m` after some allocations, all of them logged. -/
inductive Allocs : Machine → Machine → Prop
  | refl {m m' : Machine} (hpmm : m'.pmm = m.pmm) (hgranted : m'.granted = m.granted) : Allocs m m'
  | alloc {m m' m'' : Machine} (role : FrameRole) (hallocs : Allocs m m')
      (hpmm : m''.pmm = m'.pmm.pmmAllocBlock.2)
      (hgranted : m''.granted = (role, m'.pmm.pmmAllocBlock.1) :: m'.granted) : Allocs m m''

theorem Allocs.trans {m'' : Machine} (hfirst : Allocs m m') (hsecond : Allocs m' m'') :
    Allocs m m'' := by
  induction hsecond with
  | refl hpmm hgranted =>
      cases hfirst with
      | refl hpmm' hgranted' => exact .refl (hpmm.trans hpmm') (hgranted.trans hgranted')
      | alloc role hallocs hpmm' hgranted' =>
          exact .alloc role hallocs (hpmm.trans hpmm') (hgranted.trans hgranted')
  | alloc role hallocs hpmm hgranted ih => exact .alloc role ih hpmm hgranted

/-- The log only grows. -/
theorem Allocs.granted (hallocs : Allocs m m') : m.granted <:+ m'.granted := by
  induction hallocs with
  | refl hpmm hgranted => rw [hgranted]
  | alloc role hallocs hpmm hgranted ih =>
      rw [hgranted]
      exact ih.trans (List.suffix_cons _ _)

theorem allocBlock_allocs (m : Machine) (role : FrameRole) : Allocs m (m.allocBlock role).2 :=
  .alloc role (.refl rfl rfl) rfl rfl

theorem ensureTable_allocs (m : Machine) (role : FrameRole) (table k : ℕ) :
    Allocs m (m.ensureTable role table k) := by
  by_cases h : entry m.mem table k &&& 1 = 0
  · rw [ensureTable_of_absent h]
    exact .alloc role (.refl rfl rfl) rfl rfl
  · rw [ensureTable_of_present h]
    exact .refl rfl rfl

/-- `vmm_map_page` makes sure of three tables and writes an entry. -/
theorem vmmMapPage_stages (m : Machine) (phys virt flags : ℕ) :
    ∃ pdpt pd mem, m.vmmMapPage phys virt flags =
      (((m.ensureTable .pdpt m.getActivePageDir (index virt 39)).ensureTable .pd pdpt
        (index virt 30)).ensureTable .pt pd (index virt 21)).setMem mem :=
  ⟨_, _, _, rfl⟩

theorem vmmMapPage_allocs (m : Machine) (phys virt flags : ℕ) :
    Allocs m (m.vmmMapPage phys virt flags) := by
  obtain ⟨pdpt, pd, mem, hstages⟩ := vmmMapPage_stages m phys virt flags
  have hfirst := ensureTable_allocs m .pdpt m.getActivePageDir (index virt 39)
  have hsecond := hfirst.trans (ensureTable_allocs _ .pd pdpt (index virt 30))
  have hthird := hsecond.trans (ensureTable_allocs _ .pt pd (index virt 21))
  rw [hstages]
  exact hthird.trans (.refl rfl rfl)

/-! ## Steps -/

theorem GrownFrom.extend (hgrown : GrownFrom base slots new m) (hextends : Extends slots m m') :
    ∃ more, GrownFrom base slots (more ++ new) m' ∧ ∀ g ∈ more, g.1.isTable = true := by
  obtain ⟨more, hgranted, hroles, hnodes⟩ := hextends.granted
  refine ⟨more, ⟨hextends.cr3_eq.trans hgrown.cr3_eq, hextends.tree, ?_, ?_⟩, hroles⟩
  · rw [hgranted, hgrown.granted, List.append_assoc]
  · intro q hq f hf
    rcases hnodes q hq f hf with hold | hnew
    · refine (hgrown.node q hq f hold).imp_right ?_
      rintro ⟨role, htable, hgrant⟩
      exact ⟨role, htable, List.mem_append_right more hgrant⟩
    · obtain ⟨g, hg, heq⟩ := List.mem_map.mp hnew
      refine Or.inr ⟨g.1, hroles g hg, List.mem_append_left new ?_⟩
      rw [← heq]
      exact hg

theorem GrownFrom.sameTables (hgrown : GrownFrom base slots new m)
    (hsame : SameTables slots m m') (hgranted : m'.granted = m.granted) :
    GrownFrom base slots new m' := by
  refine ⟨hsame.cr3_eq.trans hgrown.cr3_eq, hsame.treeOn hgrown.tree,
    hgranted.trans hgrown.granted, ?_⟩
  intro q hq f hf
  rw [hsame.node_eq hq] at hf
  exact hgrown.node q hq f hf

theorem GrownFrom.allocBlock (hgrown : GrownFrom base slots new m) (role : FrameRole) :
    GrownFrom base slots ((role, m.pmm.pmmAllocBlock.1) :: new) (m.allocBlock role).2 := by
  have htree : (m.allocBlock role).2.TreeOn slots := ⟨hgrown.tree.tree, hgrown.tree.noLarge⟩
  refine ⟨hgrown.cr3_eq, htree, ?_, ?_⟩
  · rw [List.cons_append, ← hgrown.granted]
    rfl
  · intro q hq f hf
    refine (hgrown.node q hq f hf).imp_right ?_
    rintro ⟨role, htable, hgrant⟩
    exact ⟨role, htable, List.mem_cons_of_mem _ hgrant⟩

/-- The log of an earlier machine is fresh when a later one is. -/
theorem GrownFrom.freshLog_of_suffix (hgrown : GrownFrom base slots new m)
    (hsuffix : m.granted <:+ m'.granted) (hgranted : m'.granted = more ++ base.granted)
    (hlog : FreshLog base slots more) : FreshLog base slots new := by
  obtain ⟨l, hl⟩ := hsuffix
  rw [hgrown.granted, hgranted, ← List.append_assoc] at hl
  rw [← List.append_cancel_right hl] at hlog
  exact hlog.of_append

theorem GrownFrom.ensureFresh (hgrown : GrownFrom base slots new m)
    (hsuffix : (m.ensureTable role table k).granted <:+ m'.granted)
    (hgranted : m'.granted = more ++ base.granted) (hlog : FreshLog base slots more) :
    m.EnsureFresh slots table k := by
  intro habsent
  have hnext := hgrown.allocBlock role
  have hsuffix' : (m.allocBlock role).2.granted <:+ m'.granted := by
    rw [ensureTable_of_absent habsent] at hsuffix
    exact hsuffix
  exact hgrown.freshFrame (hnext.freshLog_of_suffix hsuffix' hgranted hlog)

/-- The allocations of `vmm_map_page` are fresh when the log after it is. -/
theorem GrownFrom.mapFresh (hgrown : GrownFrom base slots new m) (hslot : slot virt 39 ∈ slots)
    {phys flags : ℕ} (hgranted : (m.vmmMapPage phys virt flags).granted = more ++ base.granted)
    (hlog : FreshLog base slots more) : m.MapFresh slots virt := by
  obtain ⟨hpath₁, hpath₂, hpath₃⟩ := mem_paths_of_slot hslot
  unfold MapFresh
  unfold vmmMapPage at hgranted
  dsimp only [getActivePageDir] at hgranted ⊢
  simp only [and_addrMask] at hgranted ⊢
  generalize hm₁ : m.ensureTable .pdpt (4096 * frameOf m.cr3) (index virt 39) = m₁ at hgranted ⊢
  generalize hpdpt : frameOf (entry m₁.mem (4096 * frameOf m.cr3) (index virt 39)) = pdpt
    at hgranted ⊢
  generalize hm₂ : m₁.ensureTable .pd (4096 * pdpt) (index virt 30) = m₂ at hgranted ⊢
  generalize hpd : frameOf (entry m₂.mem (4096 * pdpt) (index virt 30)) = pd at hgranted ⊢
  generalize hm₃ : m₂.ensureTable .pt (4096 * pd) (index virt 21) = m₃ at hgranted
  have hsuffix₃ : m₂.granted <:+ m₃.granted := hm₃ ▸ (ensureTable_allocs _ _ _ _).granted
  have hsuffix₂ : m₁.granted <:+ m₂.granted := hm₂ ▸ (ensureTable_allocs _ _ _ _).granted
  have hgranted₃ : m₃.granted = more ++ base.granted := hgranted
  have hfresh₁ : m.EnsureFresh slots (4096 * frameOf m.cr3) (index virt 39) :=
    hgrown.ensureFresh (hm₁ ▸ hsuffix₂.trans hsuffix₃) hgranted₃ hlog
  obtain ⟨hextends₁, hnode₁⟩ := ensureTable_extends .pdpt rfl hgrown.tree (p := [])
    (i := slot virt 39) (f := frameOf m.cr3) hpath₁ rfl hfresh₁
  have hslot₁ : ((slot virt 39 : Fin 512) : ℕ) = index virt 39 := rfl
  have hslot₂ : ((slot virt 30 : Fin 512) : ℕ) = index virt 30 := rfl
  rw [hslot₁, hm₁] at hextends₁ hnode₁
  rw [hpdpt] at hnode₁
  obtain ⟨l₁, hgrown₁, -⟩ := hgrown.extend hextends₁
  have hfresh₂ : m₁.EnsureFresh slots (4096 * pdpt) (index virt 30) :=
    hgrown₁.ensureFresh (hm₂ ▸ hsuffix₃) hgranted₃ hlog
  obtain ⟨hextends₂, -⟩ := ensureTable_extends .pd rfl hextends₁.tree
    (i := slot virt 30) hpath₂ hnode₁ hfresh₂
  rw [hslot₂, hm₂] at hextends₂
  obtain ⟨l₂, hgrown₂, -⟩ := hgrown₁.extend hextends₂
  have hlast : (m₂.ensureTable .pt (4096 * pd) (index virt 21)).granted <:+ m₃.granted := by
    rw [hm₃]
  have hfresh₃ : m₂.EnsureFresh slots (4096 * pd) (index virt 21) :=
    hgrown₂.ensureFresh hlast hgranted₃ hlog
  exact ⟨hfresh₁, hfresh₂, hfresh₃⟩

/-- What mapping a page does: tables are added, one translation is set, and
nothing outside the tables changes. -/
structure Maps (slots : Set (Fin 512)) (m : Machine) (phys virt flags : ℕ) (m' : Machine) :
    Prop where
  lookup_eq : ∀ q ∈ paths slots, q.length = 3 → ∀ j, m'.lookup q j =
    if q = pathTo virt ∧ j = slot virt 12 then some (leafEntry phys flags) else m.lookup q j
  outside : ∀ x, (∀ q ∈ paths slots, m'.node q ≠ some (x / 4096)) → m'.mem x = m.mem x

/-- Setting an entry of the last table keeps all paths. -/
theorem node_setLeaf {ready : Machine} {pt : ℕ} {virt v : ℕ} (hv : v < 2 ^ 64)
    (htree : ready.TreeOn slots) (hslot : slot virt 39 ∈ slots)
    (hnode : ready.node (pathTo virt) = some pt) {q : List (Fin 512)} (hq : q ∈ paths slots) :
    (ready.setMem (BadOS.Kernel.setEntry ready.mem (4096 * pt) (slot virt 12) v)).node q =
      ready.node q := by
  have htables := tables_setEntry ready.mem pt (slot virt 12) hv
  unfold node at hnode ⊢
  dsimp only [setMem]
  rw [htables]
  exact htree.tree.node_setEntry (paths_prefixClosed slots) (mem_paths_of_slot hslot).2.2 hnode
    hq (pathTo_not_initial hq)

theorem GrownFrom.vmmMapPage (hgrown : GrownFrom base slots new m) (hslot : slot virt 39 ∈ slots)
    (phys flags : ℕ) (hlog : ∀ more, (m.vmmMapPage phys virt flags).granted = more ++ base.granted →
      FreshLog base slots more) :
    ∃ more, GrownFrom base slots (more ++ new) (m.vmmMapPage phys virt flags) ∧
      (∀ g ∈ more, g.1.isTable = true) ∧
      Maps slots m phys virt flags (m.vmmMapPage phys virt flags) := by
  obtain ⟨l, hl⟩ := (vmmMapPage_allocs m phys virt flags).granted
  rw [hgrown.granted, ← List.append_assoc] at hl
  have hfresh := hgrown.mapFresh hslot hl.symm (hlog _ hl.symm)
  obtain ⟨hcr3, htree, hlookup⟩ := vmmMapPage_lookup phys flags hgrown.tree hslot hfresh
  obtain ⟨ready, pt, hextends, hnode, hmap⟩ := exists_ready phys flags hgrown.tree hslot hfresh
  obtain ⟨more, hready, hroles⟩ := hgrown.extend hextends
  have hsame : ∀ q ∈ paths slots, (m.vmmMapPage phys virt flags).node q = ready.node q := by
    intro q hq
    rw [hmap]
    exact node_setLeaf (leafEntry_lt phys flags) hready.tree hslot hnode hq
  refine ⟨more, ⟨hcr3.trans hgrown.cr3_eq, htree, ?_, ?_⟩, hroles, ⟨hlookup, ?_⟩⟩
  · rw [hmap]
    exact hready.granted
  · intro q hq f hf
    rw [hsame q hq] at hf
    exact hready.node q hq f hf
  · intro x hx
    have hout : ready.mem x = m.mem x :=
      hextends.outside x fun q hq => hsame q hq ▸ hx q hq
    have hpt : pt ≠ x / 4096 := by
      intro heq
      have hpath := (mem_paths_of_slot hslot).2.2
      exact hx _ hpath ((hsame _ hpath).trans (heq ▸ hnode))
    have hindex := (slot virt 12).isLt
    rw [← hout, hmap]
    dsimp only [setMem, BadOS.Kernel.setEntry]
    exact Memory.store_outside (by omega)

end Machine

end BadOS.Kernel
