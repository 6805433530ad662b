import BadOS.Kernel.KexLoader

/-! # Pages placed by the loader

The frames behind the pages the loader has mapped so far. They are disjoint from
the tables, from each other and from the file, so a store to one page changes
neither the other pages nor any translation.
-/

namespace BadOS.Kernel

open Kex

namespace Machine

/-- The frame at `a` holds no byte of the file. -/
def Apart (a file len : ℕ) : Prop := a + 4096 ≤ file ∨ file + len ≤ a

/-- Every allocation since `base` has returned a frame that is not 0, is no table
and was not granted before, and that holds no byte of the file. -/
structure Allocates (base : Machine) (slots : Set (Fin 512)) (file len : ℕ) (m : Machine) :
    Prop where
  fresh : ∀ new, m.granted = new ++ base.granted → FreshLog base slots new
  apart : ∀ new, m.granted = new ++ base.granted → ∀ g ∈ new, Apart g.2 file len

/-- The tables form a tree and hold no byte of the file. -/
structure Ready (base : Machine) (slots : Set (Fin 512)) (file len : ℕ) : Prop where
  tree : base.TreeOn slots
  apart : ∀ q ∈ paths slots, ∀ f, base.node q = some f → Apart (4096 * f) file len

/-- `frames` gives the frame of each page placed since `base`; the other
translations are those of `base`. -/
structure Placed (base : Machine) (slots : Set (Fin 512)) (file len : ℕ)
    (new : List (FrameRole × ℕ)) (frames : ℕ → Option ℕ) (m : Machine) : Prop where
  grown : GrownFrom base slots new m
  fresh : FreshLog base slots new
  apart : ∀ g ∈ new, Apart g.2 file len
  file_eq : SameFile base.mem m.mem file len
  mapsTo : ∀ n a, frames n = some a → m.MapsTo (4096 * n) a
  role : ∀ n a, frames n = some a → ∃ role : FrameRole, (role = .segment ∨ role = .stack) ∧
    (role, a) ∈ new
  injective : ∀ n n' a, frames n = some a → frames n' = some a → n = n'
  canonical : ∀ n a, frames n = some a → Canonical (4096 * n)
  inSlots : ∀ n a, frames n = some a → slot (4096 * n) 39 ∈ slots
  kept : ∀ q ∈ paths slots, q.length = 3 → ∀ j,
    (∀ n a, frames n = some a → ¬ (q = pathTo (4096 * n) ∧ j = slot (4096 * n) 12)) →
    m.lookup q j = base.lookup q j

variable {base m m' : Machine} {slots : Set (Fin 512)} {new : List (FrameRole × ℕ)}
variable {frames : ℕ → Option ℕ} {file len n n' a a' x virt virt' size src : ℕ}

/-- The log decides what was allocated. -/
theorem Allocates.of_granted (hgranted : m.granted = new ++ base.granted)
    (hfresh : FreshLog base slots new) (hapart : ∀ g ∈ new, Apart g.2 file len) :
    Allocates base slots file len m := by
  have hnew : ∀ new', m.granted = new' ++ base.granted → new' = new :=
    fun new' hnew' => List.append_cancel_right (hnew'.symm.trans hgranted)
  refine ⟨fun new' hnew' => ?_, fun new' hnew' => ?_⟩ <;> rw [hnew new' hnew']
  · exact hfresh
  · exact hapart

/-- A machine with fewer allocations. -/
theorem Allocates.of_allocs (hallocs : Allocs m m') (halloc : Allocates base slots file len m') :
    Allocates base slots file len m := by
  obtain ⟨l, hl⟩ := hallocs.granted
  have hlog : ∀ new, m.granted = new ++ base.granted →
      m'.granted = (l ++ new) ++ base.granted := by
    intro new hnew
    rw [← hl, hnew, List.append_assoc]
  refine ⟨fun new hnew => (halloc.fresh _ (hlog new hnew)).of_append, fun new hnew g hg => ?_⟩
  exact halloc.apart _ (hlog new hnew) g (List.mem_append_right l hg)

/-! ## Pages -/

theorem page_eq_of_div (virt : ℕ) : page virt = page (4096 * (virt / 4096)) := by
  unfold page
  omega

theorem page_injective (hcanonical : Canonical (4096 * n)) (hcanonical' : Canonical (4096 * n'))
    (hpage : page (4096 * n) = page (4096 * n')) : n = n' := by
  unfold page at hpage
  unfold Canonical at hcanonical hcanonical'
  omega

theorem canonical_page (h : Canonical virt) : Canonical (4096 * (virt / 4096)) := by
  unfold Canonical at h ⊢
  omega

theorem canonical_of_page (h : Canonical (4096 * (virt / 4096))) : Canonical virt := by
  unfold Canonical at h ⊢
  omega

/-- A canonical range cannot span the gap of non-canonical addresses. -/
theorem size_le_of_canonical (hcanonical : ∀ k < size, Canonical (virt + k)) : size ≤ 2 ^ 47 := by
  by_contra hlarge
  have hfar := hcanonical (2 ^ 47) (by omega)
  have hfirst := hcanonical 0 (by omega)
  unfold Canonical at hfar hfirst
  omega

theorem slot_page (virt : ℕ) : slot virt 39 = slot (4096 * (virt / 4096)) 39 := by
  have hpath := (page_eq_iff.mp (page_eq_of_div virt)).1
  exact (List.cons.inj hpath).1

theorem MapsTo.of_page (hmaps : m.MapsTo (4096 * (virt / 4096)) a) : m.MapsTo virt a := by
  obtain ⟨hpath, hslot⟩ := page_eq_iff.mp (page_eq_of_div virt)
  unfold MapsTo at hmaps ⊢
  rw [hpath, hslot]
  exact hmaps

/-- Mapping another page keeps a mapping. -/
theorem Maps.mapsTo_of_ne {phys flags : ℕ} (hmap : Maps slots m phys virt flags m')
    (hslot : slot virt' 39 ∈ slots) (hne : page virt' ≠ page virt) (hmaps : m.MapsTo virt' a) :
    m'.MapsTo virt' a := by
  unfold MapsTo at hmaps ⊢
  rw [hmap.lookup_eq _ (mem_paths_of_slot hslot).2.2 rfl, if_neg, hmaps]
  exact fun h => hne (page_eq_iff.mpr h)

theorem Maps.mapsTo (hmap : Maps slots m a virt 0x7 m') (hslot : slot virt 39 ∈ slots) :
    m'.MapsTo virt a := by
  unfold MapsTo
  rw [hmap.lookup_eq _ (mem_paths_of_slot hslot).2.2 rfl, if_pos ⟨rfl, rfl⟩]

/-! ## Separation -/

theorem Ready.placed (hready : Ready base slots file len) :
    Placed base slots file len [] (fun _ => none) base := by
  refine ⟨.refl hready.tree, ⟨List.nodup_nil, ?_⟩, ?_, fun _ _ _ => rfl, ?_, ?_, ?_, ?_, ?_, ?_⟩ <;>
    simp

theorem GrownFrom.file_not_table (hready : Ready base slots file len)
    (hgrown : GrownFrom base slots new m) (hapart : ∀ g ∈ new, Apart g.2 file len)
    (hlo : file ≤ x) (hhi : x < file + len) {q : List (Fin 512)} (hq : q ∈ paths slots) :
    m.node q ≠ some (x / 4096) := by
  intro hnode
  have hmeets : ¬ Apart (4096 * (x / 4096)) file len := by
    unfold Apart
    omega
  rcases hgrown.node q hq _ hnode with hold | ⟨role, -, hgrant⟩
  · exact hmeets (hready.apart q hq _ hold)
  · exact hmeets (hapart _ hgrant)

theorem Placed.isFrame (hplaced : Placed base slots file len new frames m)
    (hframe : frames n = some a) : IsFrame a := by
  obtain ⟨role, -, hgrant⟩ := hplaced.role n a hframe
  exact hplaced.fresh.isFrame hgrant

/-- A byte of a placed page belongs to no table. -/
theorem Placed.node_ne (hplaced : Placed base slots file len new frames m)
    (hframe : frames n = some a) {k : ℕ} (hk : k < 4096) {q : List (Fin 512)}
    (hq : q ∈ paths slots) : m.node q ≠ some ((a + k) / 4096) := by
  obtain ⟨role, hrole, hgrant⟩ := hplaced.role n a hframe
  have haligned := (hplaced.isFrame hframe).2.1
  have hsame : (a + k) / 4096 = a / 4096 := by omega
  have hkind : role.isTable = false := by
    rcases hrole with rfl | rfl <;> rfl
  rw [hsame]
  exact hplaced.grown.node_ne hplaced.fresh hgrant hkind hq

theorem Placed.not_in_file (hplaced : Placed base slots file len new frames m)
    (hframe : frames n = some a) {k : ℕ} (hk : k < 4096) :
    ¬ (file ≤ a + k ∧ a + k < file + len) := by
  obtain ⟨role, -, hgrant⟩ := hplaced.role n a hframe
  have hapart := hplaced.apart _ hgrant
  unfold Apart at hapart
  dsimp only at hapart
  omega

/-- Different addresses of placed pages are stored at different places. -/
theorem Placed.phys_injective (hplaced : Placed base slots file len new frames m)
    (hframe : frames (virt / 4096) = some a) (hframe' : frames (virt' / 4096) = some a')
    (hsame : a + virt % 4096 = a' + virt' % 4096) : virt = virt' := by
  have haligned := (hplaced.isFrame hframe).2.1
  have haligned' := (hplaced.isFrame hframe').2.1
  obtain rfl : a = a' := by omega
  have hpage := hplaced.injective _ _ a hframe hframe'
  omega

theorem Placed.translate (hplaced : Placed base slots file len new frames m)
    (hframe : frames (virt / 4096) = some a) : m.translate virt = some (a + virt % 4096) := by
  have hslot := hplaced.inSlots _ a hframe
  rw [← slot_page] at hslot
  exact (hplaced.mapsTo _ a hframe).of_page.translate hplaced.grown.tree hslot
    (canonical_of_page (hplaced.canonical _ a hframe)) (hplaced.isFrame hframe)

theorem Placed.lt_addressSpace (hplaced : Placed base slots file len new frames m)
    (hframe : frames (virt / 4096) = some a) : virt < 2 ^ 64 := by
  have hcanonical := canonical_of_page (hplaced.canonical _ a hframe)
  unfold Canonical at hcanonical
  omega

/-! ## Mapping one more page -/

theorem eq_or_ne_of_update (h : Function.update frames n (some a) n' = some a') :
    n' = n ∧ a' = a ∨ n' ≠ n ∧ frames n' = some a' := by
  by_cases hn : n' = n
  · rw [hn, Function.update_self] at h
    exact Or.inl ⟨hn, (Option.some_injective _ h).symm⟩
  · rw [Function.update_of_ne hn] at h
    exact Or.inr ⟨hn, h⟩

theorem Placed.mapNewPage (hready : Ready base slots file len)
    (hplaced : Placed base slots file len new frames m) (role : FrameRole)
    (hrole : role = .segment ∨ role = .stack) (hcanonical : Canonical (4096 * n))
    (hslot : slot (4096 * n) 39 ∈ slots)
    (halloc : Allocates base slots file len (m.mapNewPage role (4096 * n) 0x7)) :
    ∃ new' a, Placed base slots file len new' (Function.update frames n (some a))
        (m.mapNewPage role (4096 * n) 0x7) ∧
      ∀ p b, frames p = some b → ∀ k < 4096,
        (m.mapNewPage role (4096 * n) 0x7).mem (b + k) = m.mem (b + k) := by
  have hnext := hplaced.grown.allocBlock role
  generalize hphys : m.pmm.pmmAllocBlock.1 = a at hnext
  have hmap : m.mapNewPage role (4096 * n) 0x7 =
      (m.allocBlock role).2.vmmMapPage a (4096 * n) 0x7 := by
    rw [← hphys]
    rfl
  have hmem : (m.allocBlock role).2.mem = m.mem := rfl
  have hlookup : ∀ q i, (m.allocBlock role).2.lookup q i = m.lookup q i := fun _ _ => rfl
  rw [hmap] at halloc ⊢
  obtain ⟨more, hgrown, hroles, hmaps⟩ := hnext.vmmMapPage hslot a 0x7 halloc.fresh
  generalize (m.allocBlock role).2.vmmMapPage a (4096 * n) 0x7 = m' at *
  have hfresh := halloc.fresh _ hgrown.granted
  have hapart := halloc.apart _ hgrown.granted
  have hgrant : (role, a) ∈ more ++ (role, a) :: new :=
    List.mem_append_right more List.mem_cons_self
  have hkept : ∀ g ∈ new, g ∈ more ++ (role, a) :: new :=
    fun g hg => List.mem_append_right more (List.mem_cons_of_mem _ hg)
  -- The new frame is in no earlier page.
  have hnew : ∀ p b, frames p = some b → b ≠ a := by
    rintro p b hp rfl
    obtain ⟨role', -, hgrant'⟩ := hplaced.role p b hp
    have hnodup := hfresh.of_append.nodup
    rw [List.map_cons, List.nodup_cons] at hnodup
    exact hnodup.1 (List.mem_map.mpr ⟨_, hgrant', rfl⟩)
  -- The mapping writes to tables only, and no placed frame is a table.
  have houtside : ∀ p b, frames p = some b → ∀ k < 4096, m'.mem (b + k) = m.mem (b + k) := by
    intro p b hp k hk
    rw [← hmem]
    apply hmaps.outside
    intro q hq
    obtain ⟨role', hrole', hgrant'⟩ := hplaced.role p b hp
    have hkind : role'.isTable = false := by
      rcases hrole' with rfl | rfl <;> rfl
    have haligned := (hplaced.isFrame hp).2.1
    rw [show (b + k) / 4096 = b / 4096 by omega]
    exact hgrown.node_ne hfresh (hkept _ hgrant') hkind hq
  refine ⟨more ++ (role, a) :: new, a, ⟨hgrown, hfresh, hapart, ?_, ?_, ?_, ?_, ?_, ?_, ?_⟩,
    houtside⟩
  · intro x hlo hhi
    rw [hmaps.outside x fun q hq => hgrown.file_not_table hready hapart hlo hhi hq, hmem]
    exact hplaced.file_eq x hlo hhi
  · intro p b hp
    rcases eq_or_ne_of_update hp with ⟨rfl, rfl⟩ | ⟨hpn, hp⟩
    · exact hmaps.mapsTo hslot
    · have hne : page (4096 * p) ≠ page (4096 * n) :=
        fun heq => hpn (page_injective (hplaced.canonical p b hp) hcanonical heq)
      exact hmaps.mapsTo_of_ne (hplaced.inSlots p b hp) hne
        ((hlookup _ _).trans (hplaced.mapsTo p b hp))
  · intro p b hp
    rcases eq_or_ne_of_update hp with ⟨rfl, rfl⟩ | ⟨-, hp⟩
    · exact ⟨role, hrole, hgrant⟩
    · obtain ⟨role', hrole', hgrant'⟩ := hplaced.role p b hp
      exact ⟨role', hrole', hkept _ hgrant'⟩
  · intro p p' b hp hp'
    rcases eq_or_ne_of_update hp with ⟨hpn, hb⟩ | ⟨-, hold⟩ <;>
      rcases eq_or_ne_of_update hp' with ⟨hpn', hb'⟩ | ⟨-, hold'⟩
    · rw [hpn, hpn']
    · exact absurd hb (hnew p' b hold')
    · exact absurd hb' (hnew p b hold)
    · exact hplaced.injective p p' b hold hold'
  · intro p b hp
    rcases eq_or_ne_of_update hp with ⟨rfl, -⟩ | ⟨-, hp⟩
    · exact hcanonical
    · exact hplaced.canonical p b hp
  · intro p b hp
    rcases eq_or_ne_of_update hp with ⟨rfl, -⟩ | ⟨-, hp⟩
    · exact hslot
    · exact hplaced.inSlots p b hp
  -- The one entry that changed is the entry of the new page.
  · intro q hq hlength j hother
    have hthis : ¬ (q = pathTo (4096 * n) ∧ j = slot (4096 * n) 12) :=
      hother n a (Function.update_self n (some a) frames)
    rw [hmaps.lookup_eq q hq hlength, if_neg hthis, hlookup]
    apply hplaced.kept q hq hlength
    intro p b hp hpage
    by_cases hpn : p = n
    · exact hthis (hpn ▸ hpage)
    · exact hother p b (by rwa [Function.update_of_ne hpn]) hpage

/-- Only the page of the address matters to `vmm_map_page`. -/
theorem mapNewPage_page (m : Machine) (role : FrameRole) (virt flags : ℕ) :
    m.mapNewPage role virt flags = m.mapNewPage role (4096 * (virt / 4096)) flags := by
  have hindex : ∀ shift ∈ [39, 30, 21, 12],
      index virt shift = index (4096 * (virt / 4096)) shift := by
    simp only [List.forall_mem_cons, List.not_mem_nil, false_implies, implies_true, and_true,
      index_eq]
    omega
  have h39 := hindex 39 (by decide)
  have h30 := hindex 30 (by decide)
  have h21 := hindex 21 (by decide)
  have h12 := hindex 12 (by decide)
  unfold Machine.mapNewPage vmmMapPage
  dsimp only
  rw [h39, h30, h21, h12]

/-! ## Storing to placed pages -/

/-- The physical address of a byte of a placed page. -/
def phys (frames : ℕ → Option ℕ) (virt : ℕ) : ℕ := (frames (virt / 4096)).getD 0 + virt % 4096

/-- All `size` bytes from `virt` on are in placed pages. -/
def AllPlaced (frames : ℕ → Option ℕ) (virt size : ℕ) : Prop :=
  ∀ k < size, (frames ((virt + k) / 4096)).isSome

theorem phys_eq (hframe : frames (virt / 4096) = some a) : phys frames virt = a + virt % 4096 := by
  rw [phys, hframe, Option.getD_some]

theorem Placed.eq_of_phys_eq (hplaced : Placed base slots file len new frames m)
    (hframe : frames (virt / 4096) = some a) (hall : AllPlaced frames virt' size) {k : ℕ}
    (hk : k < size) (hsame : a + virt % 4096 = phys frames (virt' + k)) : virt = virt' + k := by
  obtain ⟨a', hframe'⟩ := Option.isSome_iff_exists.mp (hall k hk)
  rw [phys_eq hframe'] at hsame
  exact hplaced.phys_injective hframe hframe' hsame

theorem Placed.setMem (hplaced : Placed base slots file len new frames m) {mem : Memory}
    (hmem : ∀ x, (∀ n a, frames n = some a → ∀ k < 4096, x ≠ a + k) → mem x = m.mem x) :
    Placed base slots file len new frames (m.setMem mem) := by
  have hsame : SameTables slots m (m.setMem mem) := by
    refine ⟨rfl, fun x hx => hmem x ?_⟩
    rintro n a hframe k hk rfl
    obtain ⟨q, hq, hnode⟩ := hx
    exact hplaced.node_ne hframe hk hq hnode
  refine ⟨hplaced.grown.sameTables hsame rfl, hplaced.fresh, hplaced.apart, ?_, ?_, hplaced.role,
    hplaced.injective, hplaced.canonical, hplaced.inSlots, ?_⟩
  · intro x hlo hhi
    rw [← hplaced.file_eq x hlo hhi]
    apply hmem
    rintro n a hframe k hk rfl
    exact hplaced.not_in_file hframe hk ⟨hlo, hhi⟩
  · intro n a hframe
    have hslot := hplaced.inSlots n a hframe
    unfold MapsTo
    rw [hsame.lookup_eq (mem_paths_of_slot hslot).2.2]
    exact hplaced.mapsTo n a hframe
  · intro q hq hlength j hother
    rw [hsame.lookup_eq hq]
    exact hplaced.kept q hq hlength j hother

/-- A store loop over placed bytes does not fault and changes only these bytes. -/
theorem Placed.storeBytes (hplaced : Placed base slots file len new frames m)
    (byte : Memory → ℕ → UInt8)
    (hall : AllPlaced frames virt size) :
    ∃ mem, m.storeBytes virt byte size = some (m.setMem mem) ∧
      Placed base slots file len new frames (m.setMem mem) ∧
      (∀ k < size, ∃ mem', SameFile base.mem mem' file len ∧
        mem (phys frames (virt + k)) = byte mem' k) ∧
      ∀ x, (∀ k < size, x ≠ phys frames (virt + k)) → mem x = m.mem x := by
  have hphys : ∀ k < size, ∃ a, frames ((virt + k) / 4096) = some a ∧
      phys frames (virt + k) = a + (virt + k) % 4096 := by
    intro k hk
    obtain ⟨a, hframe⟩ := Option.isSome_iff_exists.mp (hall k hk)
    exact ⟨a, hframe, phys_eq hframe⟩
  have hnowrap : ∀ k < size, (virt + k) % 2 ^ 64 = virt + k := by
    intro k hk
    obtain ⟨a, hframe, -⟩ := hphys k hk
    exact Nat.mod_eq_of_lt (hplaced.lt_addressSpace hframe)
  have hslot : ∀ k < size, slot ((virt + k) % 2 ^ 64) 39 ∈ slots := by
    intro k hk
    obtain ⟨a, hframe, -⟩ := hphys k hk
    rw [hnowrap k hk, slot_page]
    exact hplaced.inSlots _ a hframe
  have htranslate : ∀ k < size,
      m.translate ((virt + k) % 2 ^ 64) = some (phys frames (virt + k)) := by
    intro k hk
    obtain ⟨a, hframe, haddr⟩ := hphys k hk
    rw [hnowrap k hk, haddr]
    exact hplaced.translate hframe
  have hinjective : ∀ i < size, ∀ j < size,
      phys frames (virt + i) = phys frames (virt + j) → i = j := by
    intro i hi j hj hsame
    obtain ⟨a, hframe, haddr⟩ := hphys i hi
    have := hplaced.eq_of_phys_eq hframe hall hj (haddr.symm.trans hsame)
    omega
  have htables : ∀ k < size, ¬ m.TableByte slots (phys frames (virt + k)) := by
    rintro k hk ⟨q, hq, hnode⟩
    obtain ⟨a, hframe, haddr⟩ := hphys k hk
    rw [haddr] at hnode
    exact hplaced.node_ne hframe (Nat.mod_lt _ (by decide)) hq hnode
  obtain ⟨mem, hstore, hwritten, hkept⟩ :=
    storeBytes_spec byte hplaced.grown.tree hslot htranslate hinjective htables
  -- The bytes are read between the stores, but the stores do not reach the file.
  have hfile : ∀ mem' : Memory, (∀ x, (∀ k < size, x ≠ phys frames (virt + k)) →
      mem' x = m.mem x) → SameFile base.mem mem' file len := by
    intro mem' hmem' x hlo hhi
    rw [← hplaced.file_eq x hlo hhi]
    apply hmem'
    rintro k hk rfl
    obtain ⟨a, hframe, haddr⟩ := hphys k hk
    rw [haddr] at hlo hhi
    exact hplaced.not_in_file hframe (Nat.mod_lt _ (by decide)) ⟨hlo, hhi⟩
  refine ⟨mem, hstore, hplaced.setMem ?_, ?_, hkept⟩
  · intro x hx
    apply hkept
    intro k hk
    obtain ⟨a, hframe, haddr⟩ := hphys k hk
    rw [haddr]
    exact hx _ a hframe _ (Nat.mod_lt _ (by decide))
  · intro k hk
    obtain ⟨mem', hmem', hbyte⟩ := hwritten k hk
    exact ⟨mem', hfile mem' hmem', hbyte⟩

/-- Byte `k` of a segment as the file declares it. -/
def imageByte (mem : Memory) (file : ℕ) (seg : SegmentCmd) (k : ℕ) : UInt8 :=
  if k < seg.fileSize then mem (file + seg.fileOffset + k) else 0

/-- Filling a segment whose pages are placed stores its declared bytes and
changes no other byte. -/
theorem Placed.fillSegment (hplaced : Placed base slots file len new frames m) {cmd : ℕ}
    {seg : SegmentCmd}
    (hseg : ∀ mem, SameFile base.mem mem file len → segmentCmd mem cmd = seg)
    (hall : AllPlaced frames seg.rva seg.memSize) (hfits : seg.fileSize ≤ seg.memSize)
    (hmemory : file + len ≤ 2 ^ 64) :
    ∃ mem, m.fillSegment file cmd = some (m.setMem mem) ∧
      Placed base slots file len new frames (m.setMem mem) ∧
      (seg.fileOffset + seg.fileSize ≤ len → ∀ k < seg.memSize,
        mem (phys frames (seg.rva + k)) = imageByte base.mem file seg k) ∧
      ∀ x, (∀ k < seg.memSize, x ≠ phys frames (seg.rva + k)) → mem x = m.mem x := by
  have hzero : UInt8.ofNat (CInt.toU8 0) = 0 := by decide +kernel
  obtain ⟨mem, hstore, hcleared, hwritten, hkept⟩ :=
    hplaced.storeBytes (fun _ _ => UInt8.ofNat (CInt.toU8 0)) hall
  have hmemset : m.memset seg.rva 0 seg.memSize = some (m.setMem mem) := hstore
  have hbefore := hseg m.mem hplaced.file_eq
  have hafter : segmentCmd (m.setMem mem).mem cmd = seg := hseg _ hcleared.file_eq
  have hcopied : AllPlaced frames seg.rva seg.fileSize := fun k hk => hall k (by omega)
  unfold Machine.fillSegment
  dsimp only
  rw [hbefore, hmemset, Option.bind_some, hafter]
  by_cases hsize : 0 < seg.fileSize
  · obtain ⟨mem', hstore', hplaced', hwritten', hkept'⟩ := hcleared.storeBytes
      (fun mem k => mem (pointer file seg.fileOffset + k)) hcopied
    have hinjective : ∀ k < seg.memSize, ∀ j < seg.fileSize,
        phys frames (seg.rva + k) = phys frames (seg.rva + j) → k = j := by
      intro k hk j hj hsame
      obtain ⟨a, hframe⟩ := Option.isSome_iff_exists.mp (hall k hk)
      rw [phys_eq hframe] at hsame
      have := hplaced.eq_of_phys_eq hframe hcopied hj hsame
      omega
    refine ⟨mem', ?_, hplaced', ?_, ?_⟩
    · rw [if_pos hsize]
      exact hstore'
    · intro hinside k hk
      unfold imageByte
      by_cases hcopy : k < seg.fileSize
      · obtain ⟨source, hsource, hbyte⟩ := hwritten' k hcopy
        have hpointer : pointer file seg.fileOffset = file + seg.fileOffset :=
          Nat.mod_eq_of_lt (by omega)
        rw [if_pos hcopy, hbyte, hpointer]
        exact hsource _ (by omega) (by omega)
      · obtain ⟨-, -, hbyte⟩ := hwritten k hk
        rw [if_neg hcopy, hkept' _ fun j hj hsame => by
          have := hinjective k hk j hj hsame
          omega]
        exact hbyte.trans hzero
    · intro x hx
      rw [hkept' x fun k hk => hx k (by omega)]
      exact hkept x hx
  · refine ⟨mem, if_neg hsize, hcleared, ?_, hkept⟩
    intro hinside k hk
    obtain ⟨-, -, hbyte⟩ := hwritten k hk
    unfold imageByte
    rw [if_neg (by omega), hbyte, hzero]

end Machine

end BadOS.Kernel
