import BadOS.Kernel.Vmm

/-! # Page mapping on a tree of tables

On a set of top-level slots below which the table frames form a tree,
`vmm_map_page` adds tables without changing any translation and then sets the
translation of one page.
-/

namespace BadOS.Kernel

open RadixTree

/-! ## Tables as a store -/

theorem tables_setEntry (mem : Memory) (f : ℕ) (i : Fin 512) {v : ℕ} (hv : v < 2 ^ 64) :
    tables (setEntry mem (4096 * f) i v) = RadixTree.setEntry (tables mem) f i v := by
  funext g j
  have hi := i.isLt
  have hj := j.isLt
  unfold tables entry setEntry RadixTree.setEntry
  split
  next heq =>
    rw [heq.1, heq.2]
    exact Memory.load_store (by omega)
  next hne =>
    apply Memory.load_store_of_disjoint
    by_contra hoverlap
    exact hne ⟨by omega, Fin.ext (by omega)⟩

theorem tables_memset (mem : Memory) (n : ℕ) :
    tables (Libc.memset mem (4096 * n) 0 4096) = RadixTree.clear (tables mem) n 0 := by
  funext g j
  have hj := j.isLt
  rw [Libc.memset_zero]
  unfold tables entry RadixTree.clear
  split
  next heq => exact Memory.load_fill_zero (by omega) (by omega)
  next hne => exact Memory.load_fill_of_disjoint (by omega)

/-- An address of a frame: page-aligned and within the physical address space. -/
abbrev IsFrame (a : ℕ) : Prop := a ≠ 0 ∧ a % 4096 = 0 ∧ a < 2 ^ 52

theorem IsFrame.exists_eq {a : ℕ} (ha : IsFrame a) : ∃ n < 2 ^ 40, 0 < n ∧ a = 4096 * n := by
  obtain ⟨hne, haligned, hlt⟩ := ha
  exact ⟨a / 4096, by omega, by omega, by omega⟩

/-- The entry that links a table. -/
theorem link_eq (n : ℕ) : 4096 * n ||| 0x7 = 4096 * n + 7 :=
  (Nat.two_pow_add_eq_or_of_lt (show 7 < 2 ^ 12 by decide) n).symm

theorem frameOf_link {n : ℕ} (hn : n < 2 ^ 40) : frameOf (4096 * n ||| 0x7) = n := by
  rw [link_eq]
  unfold frameOf
  omega

theorem childFrame_link {n : ℕ} (hn : n < 2 ^ 40) : childFrame (4096 * n ||| 0x7) = some n := by
  have hpresent : isPresent (4096 * n ||| 0x7) = true := by
    rw [link_eq, isPresent_eq, decide_eq_true (by omega)]
  rw [childFrame, if_pos hpresent, frameOf_link hn]

theorem isLarge_link (n : ℕ) : isLarge (4096 * n ||| 0x7) = false := by
  rw [link_eq, isLarge, Nat.testBit_eq_decide_div_mod_eq, decide_eq_false (by omega)]

theorem childFrame_zero : childFrame 0 = none := rfl

theorem childFrame_eq_none_iff {e : ℕ} : childFrame e = none ↔ e &&& 1 = 0 := by
  rw [← isPresent_eq_false_iff, childFrame]
  cases isPresent e <;> simp

theorem isPresent_leafEntry (phys flags : ℕ) : isPresent (Machine.leafEntry phys flags) = true := by
  unfold isPresent Machine.leafEntry
  rw [Nat.testBit_or]
  simp

theorem leafEntry_lt (phys flags : ℕ) : Machine.leafEntry phys flags < 2 ^ 64 := by
  have hphys : phys &&& addrMask < 2 ^ 64 :=
    lt_of_le_of_lt Nat.and_le_right (by decide)
  have hflags : flags &&& 0xFFF < 2 ^ 64 := lt_of_le_of_lt Nat.and_le_right (by decide)
  exact Nat.or_lt_two_pow (Nat.or_lt_two_pow hphys hflags) (by decide)

/-! ## The tree of tables -/

/-- The paths to tables below the slots of `slots`. -/
def paths (slots : Set (Fin 512)) : Set (List (Fin 512)) :=
  {p | p.length ≤ 3 ∧ ∀ i ∈ p.head?, i ∈ slots}

namespace Machine

def root (m : Machine) : ℕ := frameOf m.cr3

/-- The table frame a path of indices leads to. -/
def node (m : Machine) (p : List (Fin 512)) : Option ℕ :=
  RadixTree.node childFrame (tables m.mem) m.root p

/-- The present entry at index `i` of the last table. -/
def lookup (m : Machine) (p : List (Fin 512)) (i : Fin 512) : Option ℕ :=
  RadixTree.lookup childFrame (tables m.mem) m.root p i

/-- Below `slots` no frame is used as a table in two places, and no present
entry above the last level is a large page. -/
structure TreeOn (m : Machine) (slots : Set (Fin 512)) : Prop where
  tree : IsTree childFrame (tables m.mem) m.root (paths slots)
  noLarge : ∀ p ∈ paths slots, p ≠ [] → p.length < 3 → ∀ f, m.node p = some f →
    ∀ i, isPresent (tables m.mem f i) = true → isLarge (tables m.mem f i) = false

/-- A frame that is not a table below `slots`. -/
def FreshFrame (m : Machine) (slots : Set (Fin 512)) (a : ℕ) : Prop :=
  IsFrame a ∧ ∀ q ∈ paths slots, m.node q ≠ some (a / 4096)

/-- `m'` has the translations of `m` and possibly more tables, in frames granted
since. -/
structure Grows (slots : Set (Fin 512)) (m m' : Machine) : Prop where
  cr3_eq : m'.cr3 = m.cr3
  tree : m'.TreeOn slots
  node_mono : ∀ q ∈ paths slots, ∀ f, m.node q = some f → m'.node q = some f
  lookup_eq : ∀ q ∈ paths slots, q.length = 3 → ∀ i, m'.lookup q i = m.lookup q i
  granted : ∃ new, m'.granted = new ++ m.granted ∧ (∀ g ∈ new, g.1.isTable = true) ∧
    ∀ q ∈ paths slots, ∀ f,
      m'.node q = some f → m.node q = some f ∨ 4096 * f ∈ new.map Prod.snd

/-- Moreover nothing outside the tables has changed. -/
structure Extends (slots : Set (Fin 512)) (m m' : Machine) : Prop extends Grows slots m m' where
  outside : ∀ x, (∀ q ∈ paths slots, m'.node q ≠ some (x / 4096)) → m'.mem x = m.mem x

variable {m m' m'' : Machine} {slots : Set (Fin 512)} {p q : List (Fin 512)} {i j : Fin 512}
variable {f : ℕ} {role : FrameRole}

theorem paths_prefixClosed (slots : Set (Fin 512)) : PrefixClosed (paths slots) := by
  rintro p i ⟨hlength, hhead⟩
  rw [List.length_append, List.length_singleton] at hlength
  refine ⟨by omega, ?_⟩
  intro j hj
  exact hhead j (by rw [List.head?_append, hj]; rfl)

theorem Grows.refl (htree : m.TreeOn slots) : Grows slots m m :=
  ⟨rfl, htree, fun _ _ _ h => h, fun _ _ _ _ => rfl,
    ⟨[], rfl, fun _ h => absurd h List.not_mem_nil, fun _ _ _ h => Or.inl h⟩⟩

theorem Grows.trans (hfirst : Grows slots m m') (hsecond : Grows slots m' m'') :
    Grows slots m m'' := by
  obtain ⟨new, hgranted, hroles, hnodes⟩ := hfirst.granted
  obtain ⟨new', hgranted', hroles', hnodes'⟩ := hsecond.granted
  refine ⟨hsecond.cr3_eq.trans hfirst.cr3_eq, hsecond.tree, ?_, ?_, ⟨new' ++ new, ?_, ?_, ?_⟩⟩
  · exact fun q hq f hf => hsecond.node_mono q hq f (hfirst.node_mono q hq f hf)
  · exact fun q hq hlen i => (hsecond.lookup_eq q hq hlen i).trans (hfirst.lookup_eq q hq hlen i)
  · rw [hgranted', hgranted, List.append_assoc]
  · intro g hg
    exact (List.mem_append.mp hg).elim (hroles' g) (hroles g)
  · intro q hq f hf
    rw [List.map_append, List.mem_append]
    rcases hnodes' q hq f hf with hold | hnew
    · exact (hnodes q hq f hold).imp_right Or.inr
    · exact Or.inr (Or.inl hnew)

theorem Extends.refl (htree : m.TreeOn slots) : Extends slots m m := ⟨.refl htree, fun _ _ => rfl⟩

theorem Extends.trans (hfirst : Extends slots m m') (hsecond : Extends slots m' m'') :
    Extends slots m m'' := by
  refine ⟨hfirst.toGrows.trans hsecond.toGrows, fun x hx => ?_⟩
  rw [hsecond.outside x hx]
  exact hfirst.outside x fun q hq hnode => hx q hq (hsecond.node_mono q hq _ hnode)

/-- A root table with no present entry in the slots is a tree on its own. -/
theorem node_of_absent (habsent : ∀ i ∈ slots, isPresent (tables m.mem m.root i) = false)
    (hq : q ∈ paths slots) (hnode : m.node q = some f) : q = [] ∧ f = m.root := by
  cases q with
  | nil => exact ⟨rfl, (Option.some_injective _ hnode).symm⟩
  | cons i rest =>
      have hnone : childFrame (tables m.mem m.root i) = none := by
        rw [childFrame, habsent i (hq.2 i rfl)]
        rfl
      rw [node, RadixTree.node, hnone] at hnode
      cases hnode

theorem treeOn_of_absent (habsent : ∀ i ∈ slots, isPresent (tables m.mem m.root i) = false) :
    m.TreeOn slots := by
  constructor
  · intro p hp q hq f hpf hqf
    rw [(node_of_absent habsent hp hpf).1, (node_of_absent habsent hq hqf).1]
  · intro p hp hne _ f hpf
    exact absurd (node_of_absent habsent hp hpf).1 hne

/-- A fresh frame stays fresh until it is granted. -/
theorem Grows.freshFrame (hgrows : Grows slots m m') {new : List (FrameRole × ℕ)} {a : ℕ}
    (hgranted : m'.granted = new ++ m.granted) (hfresh : m.FreshFrame slots a)
    (hnew : a ∉ new.map Prod.snd) : m'.FreshFrame slots a := by
  obtain ⟨new', hgranted', -, hnodes⟩ := hgrows.granted
  have hsame : new' = new := List.append_cancel_right (hgranted'.symm.trans hgranted)
  refine ⟨hfresh.1, fun q hq hnode => ?_⟩
  have haligned : 4096 * (a / 4096) = a := by
    have := hfresh.1.2.1
    omega
  rcases hnodes q hq _ hnode with hold | hmem
  · exact hfresh.2 q hq hold
  · rw [hsame, haligned] at hmem
    exact hnew hmem

theorem ensureTable_of_present {table k : ℕ} (h : entry m.mem table k &&& 1 ≠ 0) :
    m.ensureTable role table k = m := by
  rw [ensureTable, if_neg h]

theorem ensureTable_of_absent {table k : ℕ} (h : entry m.mem table k &&& 1 = 0) :
    m.ensureTable role table k =
      { mem := BadOS.Kernel.setEntry (Libc.memset m.mem m.pmm.pmmAllocBlock.1 0 4096) table k
          (m.pmm.pmmAllocBlock.1 ||| 0x7)
        cr3 := m.cr3, pmm := m.pmm.pmmAllocBlock.2
        granted := (role, m.pmm.pmmAllocBlock.1) :: m.granted } := by
  rw [ensureTable, if_pos h]
  rfl

/-- The tables after a fresh one is linked. -/
theorem tables_link (mem : Memory) (f : ℕ) (i : Fin 512) {n : ℕ} (hn : n < 2 ^ 40) :
    tables (BadOS.Kernel.setEntry (Libc.memset mem (4096 * n) 0 4096) (4096 * f) i
        (4096 * n ||| 0x7)) =
      RadixTree.setEntry (RadixTree.clear (tables mem) n 0) f i (4096 * n ||| 0x7) := by
  rw [tables_setEntry _ _ _ (by rw [link_eq]; omega), tables_memset]

/-- Linking a cleared fresh table changes no translation. -/
theorem extends_of_link {n : ℕ} (hrole : role.isTable = true) (htree : m.TreeOn slots)
    (hp : p ++ [i] ∈ paths slots) (hnode : m.node p = some f)
    (habsent : entry m.mem (4096 * f) i &&& 1 = 0) (hn : n < 2 ^ 40)
    (hfresh : ∀ q ∈ paths slots, m.node q ≠ some n) (hcr3 : m'.cr3 = m.cr3)
    (htables : tables m'.mem =
      RadixTree.setEntry (RadixTree.clear (tables m.mem) n 0) f i (4096 * n ||| 0x7))
    (hgranted : m'.granted = (role, 4096 * n) :: m.granted)
    (houtside : ∀ x, x / 4096 ≠ n → x / 4096 ≠ f → m'.mem x = m.mem x) :
    Extends slots m m' ∧ m'.node (p ++ [i]) = some n := by
  have hclosed := paths_prefixClosed slots
  have hnone : childFrame (tables m.mem f i) = none := childFrame_eq_none_iff.mpr habsent
  have hlink := childFrame_link hn
  have hroot : m'.root = m.root := by rw [root, hcr3, root]
  have hlength : p.length + 1 ≤ 3 := by
    have := hp.1
    rwa [List.length_append, List.length_singleton] at this
  -- The link adds one path to the tree and moves no other table.
  have hnodes : ∀ q ∈ paths slots, m'.node q = if q = p ++ [i] then some n else m.node q := by
    intro q hq
    unfold node
    rw [htables, hroot]
    exact htree.tree.node_link hclosed hp hnode hnone hfresh hlink childFrame_zero hq
  have hmono : ∀ q ∈ paths slots, ∀ g, m.node q = some g → m'.node q = some g := by
    intro q hq g hg
    rw [hnodes q hq, if_neg, hg]
    rintro rfl
    unfold node at hg hnode
    rw [node_concat, hnode, Option.bind_some, hnone] at hg
    cases hg
  have hlinked : m'.node (p ++ [i]) = some n := by rw [hnodes _ hp, if_pos rfl]
  refine ⟨⟨⟨hcr3, ⟨?_, ?_⟩, hmono, ?_, ⟨[(role, 4096 * n)], hgranted, ?_, ?_⟩⟩, ?_⟩, hlinked⟩
  · rw [htables, hroot]
    exact htree.tree.link hclosed hp hnode hnone hfresh hlink childFrame_zero
  · intro q hq hne hlen g hg j hpresent
    rw [htables] at hpresent ⊢
    rw [hnodes q hq] at hg
    unfold RadixTree.setEntry RadixTree.clear at hpresent ⊢
    -- An entry is the link itself, in the cleared table, or an old entry.
    by_cases hentry : g = f ∧ j = i
    · rw [if_pos hentry]
      exact isLarge_link n
    · rw [if_neg hentry] at hpresent ⊢
      by_cases hnew : g = n
      · rw [if_pos hnew] at hpresent
        exact absurd hpresent (by decide)
      · rw [if_neg hnew] at hpresent ⊢
        split at hg
        next => exact absurd (Option.some_injective _ hg).symm hnew
        next => exact htree.noLarge q hq hne hlen g hg j hpresent
  · intro q hq hlen j
    unfold lookup
    rw [htables, hroot]
    apply htree.tree.lookup_link hclosed hp hnode hnone hfresh hlink childFrame_zero hq
    rintro rfl
    omega
  · simpa using hrole
  · intro q hq g hg
    rw [hnodes q hq] at hg
    split at hg
    next =>
      obtain rfl := Option.some_injective _ hg
      exact Or.inr (by simp)
    next => exact Or.inl hg
  · intro x hx
    apply houtside x
    · rintro rfl
      exact hx _ hp hlinked
    · rintro rfl
      exact hx p (paths_prefixClosed slots p i hp) (hmono p (hclosed p i hp) _ hnode)

/-- Ensuring a table changes no translation, and the table is there afterwards. -/
theorem ensureTable_extends (role : FrameRole) (hrole : role.isTable = true)
    (htree : m.TreeOn slots) (hp : p ++ [i] ∈ paths slots) (hnode : m.node p = some f)
    (hfresh : entry m.mem (4096 * f) i &&& 1 = 0 →
      m.FreshFrame slots (m.pmm.pmmAllocBlock).1) :
    Extends slots m (m.ensureTable role (4096 * f) i) ∧
      (m.ensureTable role (4096 * f) i).node (p ++ [i]) =
        some (frameOf (entry (m.ensureTable role (4096 * f) i).mem (4096 * f) i)) := by
  by_cases habsent : entry m.mem (4096 * f) i &&& 1 = 0
  · obtain ⟨hframe, hunused⟩ := hfresh habsent
    obtain ⟨n, hn, -, haddr⟩ := hframe.exists_eq
    rw [haddr, Nat.mul_div_cancel_left n (by decide)] at hunused
    generalize hnext : m.ensureTable role (4096 * f) i = next
    rw [ensureTable_of_absent habsent, haddr] at hnext
    have hcr3 : next.cr3 = m.cr3 := by rw [← hnext]
    have htables : tables next.mem =
        RadixTree.setEntry (RadixTree.clear (tables m.mem) n 0) f i (4096 * n ||| 0x7) := by
      rw [← hnext]
      exact tables_link m.mem f i hn
    have hgranted : next.granted = (role, 4096 * n) :: m.granted := by rw [← hnext]
    have houtside : ∀ x, x / 4096 ≠ n → x / 4096 ≠ f → next.mem x = m.mem x := by
      intro x hxn hxf
      have hi := i.isLt
      rw [← hnext]
      dsimp only [BadOS.Kernel.setEntry]
      rw [Libc.memset_eq_fill, Memory.store_outside (by omega), Memory.fill_outside (by omega)]
    obtain ⟨hextends, hlinked⟩ := extends_of_link hrole htree hp hnode habsent hn hunused
      hcr3 htables hgranted houtside
    refine ⟨hextends, ?_⟩
    have hentry : entry next.mem (4096 * f) i = 4096 * n ||| 0x7 :=
      (congrFun (congrFun htables f) i).trans (if_pos ⟨rfl, rfl⟩)
    rw [hlinked, hentry, frameOf_link hn]
  · rw [ensureTable_of_present habsent]
    refine ⟨Extends.refl htree, ?_⟩
    have hpresent : isPresent (entry m.mem (4096 * f) i) = true := by
      rw [← Bool.not_eq_false, isPresent_eq_false_iff]
      exact habsent
    unfold node at hnode ⊢
    rw [node_concat, hnode, Option.bind_some, tables, childFrame, if_pos hpresent]

/-! ## Mapping a page -/

/-- The index of an address at a level, as an index into a table. -/
def slot (virt shift : ℕ) : Fin 512 :=
  ⟨index virt shift, by rw [index_eq]; exact Nat.mod_lt _ (by decide)⟩

/-- The path to the last table for an address. -/
def pathTo (virt : ℕ) : List (Fin 512) := [slot virt 39, slot virt 30, slot virt 21]

/-- The allocation for `table[i]`, if one is made, returns a fresh frame. -/
def EnsureFresh (m : Machine) (slots : Set (Fin 512)) (table i : ℕ) : Prop :=
  entry m.mem table i &&& 1 = 0 → m.FreshFrame slots m.pmm.pmmAllocBlock.1

/-- Every allocation `vmm_map_page` makes for `virt` returns a fresh frame. -/
def MapFresh (m : Machine) (slots : Set (Fin 512)) (virt : ℕ) : Prop :=
  let pml4 := m.getActivePageDir
  m.EnsureFresh slots pml4 (index virt 39) ∧
    let m := m.ensureTable .pdpt pml4 (index virt 39)
    let pdpt := entry m.mem pml4 (index virt 39) &&& addrMask
    m.EnsureFresh slots pdpt (index virt 30) ∧
      let m := m.ensureTable .pd pdpt (index virt 30)
      let pd := entry m.mem pdpt (index virt 30) &&& addrMask
      m.EnsureFresh slots pd (index virt 21)

theorem mem_paths_of_slot {virt : ℕ} (hslot : slot virt 39 ∈ slots) :
    [slot virt 39] ∈ paths slots ∧ [slot virt 39, slot virt 30] ∈ paths slots ∧
      pathTo virt ∈ paths slots := by
  simp [paths, pathTo, hslot]

/-- `vmm_map_page` first makes the tables, then sets the entry of the last one. -/
theorem exists_ready (phys flags : ℕ) {virt : ℕ} (htree : m.TreeOn slots)
    (hslot : slot virt 39 ∈ slots) (hfresh : m.MapFresh slots virt) :
    ∃ ready pt, Extends slots m ready ∧ ready.node (pathTo virt) = some pt ∧
      m.vmmMapPage phys virt flags = ready.setMem (BadOS.Kernel.setEntry ready.mem (4096 * pt)
        (slot virt 12) (leafEntry phys flags)) := by
  obtain ⟨hpath₁, hpath₂, hpath₃⟩ := mem_paths_of_slot hslot
  unfold MapFresh getActivePageDir at hfresh
  simp only [and_addrMask] at hfresh
  obtain ⟨hfresh₁, hfresh₂, hfresh₃⟩ := hfresh
  have hroot : m.node [] = some (frameOf m.cr3) := rfl
  obtain ⟨hextends₁, hnode₁⟩ :=
    ensureTable_extends .pdpt rfl htree (p := []) (i := slot virt 39) hpath₁ hroot hfresh₁
  obtain ⟨hextends₂, hnode₂⟩ :=
    ensureTable_extends .pd rfl hextends₁.tree (i := slot virt 30) hpath₂ hnode₁ hfresh₂
  obtain ⟨hextends₃, hnode₃⟩ :=
    ensureTable_extends .pt rfl hextends₂.tree (i := slot virt 21) hpath₃ hnode₂ hfresh₃
  refine ⟨_, _, (hextends₁.trans hextends₂).trans hextends₃, hnode₃, ?_⟩
  unfold vmmMapPage getActivePageDir
  simp only [and_addrMask]
  rfl

theorem pathTo_not_initial {virt : ℕ} (hq : q ∈ paths slots) : ¬ pathTo virt ++ [i] <+: q := by
  intro hpre
  have hlength := hpre.length_le
  have := hq.1
  simp only [pathTo, List.length_append, List.length_cons, List.length_nil] at hlength
  omega

/-- Writing an entry of the last table leaves a tree and sets the lookup of one page. -/
theorem setLeaf_lookup {ready : Machine} {pt virt : ℕ} (phys flags : ℕ)
    (htree : ready.TreeOn slots) (hslot : slot virt 39 ∈ slots)
    (hnode : ready.node (pathTo virt) = some pt)
    (hmap : m' = ready.setMem (BadOS.Kernel.setEntry ready.mem (4096 * pt) (slot virt 12)
      (leafEntry phys flags))) :
    m'.cr3 = ready.cr3 ∧ m'.TreeOn slots ∧
      ∀ q ∈ paths slots, q.length = 3 → ∀ j, m'.lookup q j =
        if q = pathTo virt ∧ j = slot virt 12 then some (leafEntry phys flags)
        else ready.lookup q j := by
  have hpath := (mem_paths_of_slot hslot).2.2
  have hclosed := paths_prefixClosed slots
  have hleaf : ∀ q ∈ paths slots, ¬ pathTo virt ++ [slot virt 12] <+: q :=
    fun q hq => pathTo_not_initial hq
  have hchild : (childFrame (leafEntry phys flags)).isSome := by
    rw [childFrame, if_pos (isPresent_leafEntry phys flags)]
    rfl
  have hcr3 : m'.cr3 = ready.cr3 := by rw [hmap, setMem]
  have hroot : m'.root = ready.root := by rw [root, hcr3, root]
  have htables : tables m'.mem =
      RadixTree.setEntry (tables ready.mem) pt (slot virt 12) (leafEntry phys flags) := by
    rw [hmap]
    exact tables_setEntry ready.mem pt (slot virt 12) (leafEntry_lt phys flags)
  refine ⟨hcr3, ⟨?_, ?_⟩, ?_⟩
  · rw [htables, hroot]
    exact htree.tree.setEntry hclosed hpath hnode hleaf
  · intro q hq hne hlen g hg j hpresent
    unfold node at hg
    rw [htables, hroot, htree.tree.node_setEntry hclosed hpath hnode hq (hleaf q hq)] at hg
    have hother : tables m'.mem g j = tables ready.mem g j := by
      rw [htables, RadixTree.setEntry, if_neg]
      rintro ⟨rfl, -⟩
      have heq := htree.tree q hq _ hpath g hg hnode
      rw [heq] at hlen
      exact absurd hlen (by simp [pathTo])
    rw [hother] at hpresent ⊢
    exact htree.noLarge q hq hne hlen g hg j hpresent
  · intro q hq _ j
    unfold lookup
    rw [htables, hroot]
    exact htree.tree.lookup_setEntry hclosed hpath hnode hleaf hchild hq

/-- After `vmm_map_page` the tables form a tree, the entry for the page is the
one written, and all others are what they were. -/
theorem vmmMapPage_lookup (phys flags : ℕ) {virt : ℕ} (htree : m.TreeOn slots)
    (hslot : slot virt 39 ∈ slots) (hfresh : m.MapFresh slots virt) :
    (m.vmmMapPage phys virt flags).cr3 = m.cr3 ∧
      (m.vmmMapPage phys virt flags).TreeOn slots ∧
      ∀ q ∈ paths slots, q.length = 3 → ∀ j, (m.vmmMapPage phys virt flags).lookup q j =
        if q = pathTo virt ∧ j = slot virt 12 then some (leafEntry phys flags)
        else m.lookup q j := by
  obtain ⟨ready, pt, hextends, hnode, hmap⟩ := exists_ready phys flags htree hslot hfresh
  obtain ⟨hcr3, htree', hlookup⟩ := setLeaf_lookup phys flags hextends.tree hslot hnode hmap
  refine ⟨hcr3.trans hextends.cr3_eq, htree', fun q hq hlen j => ?_⟩
  rw [hlookup q hq hlen, hextends.lookup_eq q hq hlen]

/-- On a tree the processor's walk is the lookup along the address's path. -/
theorem walk_eq_lookup {virt : ℕ} (htree : m.TreeOn slots) (hslot : slot virt 39 ∈ slots) :
    walk m.mem m.cr3 virt =
      (m.lookup (pathTo virt) (slot virt 12)).map fun e => ⟨e, 12⟩ := by
  obtain ⟨hpath₁, hpath₂, -⟩ := mem_paths_of_slot hslot
  have hlarge₁ := htree.noLarge _ hpath₁ (by simp) (by simp)
  have hlarge₂ := htree.noLarge _ hpath₂ (by simp) (by simp)
  unfold node root at hlarge₁ hlarge₂
  unfold walk lookup RadixTree.lookup pathTo root
  simp only [and_addrMask]
  simp only [RadixTree.node] at hlarge₁ hlarge₂ ⊢
  have hindex : ∀ f shift, entry m.mem (4096 * f) (index virt shift) =
      tables m.mem f (slot virt shift) := fun _ _ => rfl
  simp only [hindex]
  generalize tables m.mem (frameOf m.cr3) (slot virt 39) = e4 at hlarge₁ hlarge₂ ⊢
  cases h4 : isPresent e4 with
  | false => simp [childFrame, h4]
  | true =>
      simp only [childFrame, h4, if_true, Option.bind_some] at hlarge₁ hlarge₂ ⊢
      have hsmall₁ := hlarge₁ _ rfl (slot virt 30)
      generalize tables m.mem (frameOf e4) (slot virt 30) = e3 at hsmall₁ hlarge₂ ⊢
      cases h3 : isPresent e3 with
      | false => simp
      | true =>
          simp only [h3, if_true, Option.bind_some] at hlarge₂ ⊢
          have hsmall₂ := hlarge₂ _ rfl (slot virt 21)
          rw [hsmall₁ h3]
          generalize tables m.mem (frameOf e3) (slot virt 21) = e2 at hsmall₂ ⊢
          cases h2 : isPresent e2 with
          | false => simp
          | true =>
              simp only [hsmall₂ h2, if_true, Option.bind_some]
              generalize tables m.mem (frameOf e2) (slot virt 12) = e1
              by_cases h1 : isPresent e1 = true <;> simp [h1]

/-- The bits of an address that the walk uses. -/
def page (virt : ℕ) : ℕ := virt / 2 ^ 12 % 2 ^ 36

theorem page_eq_iff {virt virt' : ℕ} :
    page virt' = page virt ↔ pathTo virt' = pathTo virt ∧ slot virt' 12 = slot virt 12 := by
  simp only [pathTo, slot, List.cons.injEq, Fin.mk.injEq, and_true, index_eq, page]
  omega

/-- An empty root table in frame 1, with the frames from 2 to 7 free. -/
def emptyTables : Machine :=
  { mem := fun _ => 0, cr3 := 0x1000
    pmm :=
      { mem := fun x => if x = 0 then 3 else 0, pmmBitmap := 0, usedBlocks := 2, maxBlocks := 8 }
    granted := [] }

theorem emptyTables_absent :
    ∀ i ∈ Set.univ, isPresent (tables emptyTables.mem emptyTables.root i) = false := by
  decide +kernel

end Machine

end BadOS.Kernel
