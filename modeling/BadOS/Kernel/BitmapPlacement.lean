import BadOS.Kernel.BitmapStorage

/-! # Where the frame bitmap is placed

`_start` puts the bitmap at the first usable entry of 1 MiB, while it is still looking
for the end of memory. The entry has to be long enough for every other one.
-/

namespace BadOS.Kernel

/-- A usable entry of 1 MiB or more. -/
def LimineMemmapEntry.Large (e : LimineMemmapEntry) : Prop :=
  e.type = usable ∧ 0x100000 ≤ e.length

/-- The bytes of the words of a bitmap for memory up to `top`. -/
def bitmapBytes (top : ℕ) : ℕ := 4 * ((top / 4096 + 31) / 32)

instance : DecidablePred LimineMemmapEntry.Large := fun e =>
  inferInstanceAs (Decidable (e.type = LimineMemmapEntry.usable ∧ 0x100000 ≤ e.length))

namespace MemoryMap

/-- Usable entries are page-aligned, do not overlap and end below 8 TiB, and one of them
has 1 MiB. -/
structure Placeable (map : MemoryMap) : Prop where
  aligned : ∀ e ∈ map, e.type = LimineMemmapEntry.usable →
    e.base % 4096 = 0 ∧ e.length % 4096 = 0
  apart : map.Pairwise fun e e' =>
    e.type = LimineMemmapEntry.usable → e'.type = LimineMemmapEntry.usable →
      e.base + e.length ≤ e'.base ∨ e'.base + e'.length ≤ e.base
  below : ∀ e ∈ map, e.type = LimineMemmapEntry.usable → e.base + e.length < 2 ^ 43
  large : ∃ e ∈ map, e.Large

/-- What `pmm_initialize` writes and the words of all blocks lie in the entry at
`bitmap_phys`. -/
def Fits (map : MemoryMap) : Prop :=
  ∃ e ∈ map, e.Large ∧ e.base = map.bitmapPhys ∧
    (∀ (hhdmOffset : ℕ) (mem : Memory) (x : ℕ),
      (Pmm.pmmInitialize mem map.memSize ((hhdmOffset + map.bitmapPhys) % 2 ^ 64)).mem x ≠ mem x →
        ∃ k < e.length, x = (hhdmOffset + e.base) % 2 ^ 64 + k) ∧
    ∀ b < map.memSize / 4096, e.base ≤ map.wordPhys b ∧ map.wordPhys b + 4 ≤ e.base + e.length

/-- The first large entry that does not start at 0, or one at 0 if there is no other. -/
def Chosen (map : MemoryMap) (e : LimineMemmapEntry) : Prop :=
  ∃ before behind, map = before ++ e :: behind ∧ e.Large ∧
    (e.base ≠ 0 ∧ (∀ e' ∈ before, e'.Large → e'.base = 0) ∨
      e.base = 0 ∧ ∀ e' ∈ map, e'.Large → e'.base = 0)

/-- The chosen entry has room for a bitmap up to the end of every usable entry. -/
def Roomy (map : MemoryMap) : Prop :=
  ∃ e, map.Chosen e ∧ ∀ e' ∈ map, e'.type = LimineMemmapEntry.usable →
    bitmapBytes (e'.base + e'.length) ≤ e.length

variable {map before behind : MemoryMap} {e e' : LimineMemmapEntry} {found : ℕ × ℕ} {n : ℕ}

/-! ## The scan -/

theorem scanEntry_phys : (scanEntry found e).2 =
    if e.type = LimineMemmapEntry.usable ∧ 0x100000 ≤ e.length ∧ found.2 = 0 then e.base
    else found.2 := rfl

/-- A base that is not 0 stays. -/
theorem foldl_scanEntry_phys (hne : found.2 ≠ 0) : (map.foldl scanEntry found).2 = found.2 := by
  induction map generalizing found with
  | nil => rfl
  | cons e rest ih =>
      have hstep : (scanEntry found e).2 = found.2 := by
        rw [scanEntry_phys, if_neg fun h => hne h.2.2]
      rw [List.foldl_cons, ih (by rwa [hstep]), hstep]

theorem foldl_scanEntry_zero (hzero : found.2 = 0) (hlarge : ∀ e ∈ map, e.Large → e.base = 0) :
    (map.foldl scanEntry found).2 = 0 := by
  induction map generalizing found with
  | nil => exact hzero
  | cons e rest ih =>
      refine ih ?_ fun e' he' => hlarge e' (List.mem_cons_of_mem _ he')
      rw [scanEntry_phys]
      split
      · next h => exact hlarge e List.mem_cons_self ⟨h.1, h.2.1⟩
      · exact hzero

theorem Chosen.bitmapPhys_eq (hchosen : map.Chosen e) : map.bitmapPhys = e.base := by
  obtain ⟨before, behind, rfl, hlarge, ⟨hne, hbefore⟩ | ⟨hzero, hall⟩⟩ := hchosen
  · have hfound := @foldl_scanEntry_zero before (0, 0) rfl hbefore
    have hstep : (scanEntry (before.foldl scanEntry (0, 0)) e).2 = e.base := by
      rw [scanEntry_phys, if_pos ⟨hlarge.1, hlarge.2, hfound⟩]
    change (List.foldl scanEntry (0, 0) _).2 = _
    rw [List.foldl_append, List.foldl_cons, foldl_scanEntry_phys (by rwa [hstep]), hstep]
  · rw [hzero]
    exact foldl_scanEntry_zero rfl hall

theorem exists_chosen (hlarge : ∃ e ∈ map, e.Large) : ∃ e, map.Chosen e := by
  by_cases hbase : ∃ e ∈ map, e.Large ∧ e.base ≠ 0
  · have hsome : (map.find? fun e => decide (e.Large ∧ e.base ≠ 0)).isSome := by
      rw [List.find?_isSome]
      simpa using hbase
    obtain ⟨e, hfind⟩ := Option.isSome_iff_exists.mp hsome
    obtain ⟨he, before, behind, hsplit, hbefore⟩ := List.find?_eq_some_iff_append.mp hfind
    have hchosen := of_decide_eq_true he
    refine ⟨e, before, behind, hsplit, hchosen.1, .inl ⟨hchosen.2, fun e' he' hlarge' => ?_⟩⟩
    by_contra hne
    have hnot := hbefore e' he'
    simp [hlarge', hne] at hnot
  · obtain ⟨e, he, hlarge⟩ := hlarge
    have hzero : ∀ e' ∈ map, e'.Large → e'.base = 0 := by
      intro e' he' hlarge'
      by_contra hne
      exact hbase ⟨e', he', hlarge', hne⟩
    obtain ⟨before, behind, hsplit⟩ := List.append_of_mem he
    exact ⟨e, before, behind, hsplit, hlarge, .inr ⟨hzero e he hlarge, hzero⟩⟩

theorem Chosen.mem (hchosen : map.Chosen e) : e ∈ map := by
  obtain ⟨before, behind, rfl, -⟩ := hchosen
  exact List.mem_append_right _ List.mem_cons_self

/-- The memory size is the end of a usable entry, or 0. -/
theorem foldl_scanEntry_attained (found : ℕ × ℕ)
    (hbelow : ∀ e ∈ map, e.type = LimineMemmapEntry.usable → e.base + e.length < 2 ^ 43) :
    (map.foldl scanEntry found).1 = found.1 ∨ ∃ e ∈ map, e.type = LimineMemmapEntry.usable ∧
      (map.foldl scanEntry found).1 = e.base + e.length := by
  induction map generalizing found with
  | nil => exact .inl rfl
  | cons e rest ih =>
      rw [List.foldl_cons]
      obtain hsame | ⟨e', he', husable, hend⟩ :=
        ih (scanEntry found e) fun e' he' => hbelow e' (List.mem_cons_of_mem _ he')
      · rw [hsame]
        unfold scanEntry
        dsimp only
        split
        · next h =>
          have hlt := hbelow e List.mem_cons_self h.1
          exact .inr ⟨e, List.mem_cons_self, h.1, Nat.mod_eq_of_lt (by omega)⟩
        · exact .inl rfl
      · exact .inr ⟨e', List.mem_cons_of_mem _ he', husable, hend⟩

theorem bitmapBytes_mono {top top' : ℕ} (hle : top ≤ top') :
    bitmapBytes top ≤ bitmapBytes top' := by
  unfold bitmapBytes
  omega

/-- Room up to the end of every usable entry is room for the whole memory. -/
theorem Placeable.forall_bitmapBytes_le (hmap : map.Placeable) :
    (∀ e' ∈ map, e'.type = LimineMemmapEntry.usable →
      bitmapBytes (e'.base + e'.length) ≤ n) ↔ bitmapBytes map.memSize ≤ n := by
  have hupper := (foldl_scanEntry_le (fun e he husable => (hmap.below e he husable).le.trans
    (by decide)) (0, 0)).2
  constructor
  · intro hall
    obtain hzero | ⟨e, he, husable, hend⟩ := foldl_scanEntry_attained (0, 0) hmap.below
    · have hsize : map.memSize = 0 := hzero
      rw [hsize]
      exact Nat.zero_le n
    · have hsize : map.memSize = e.base + e.length := hend
      rw [hsize]
      exact hall e he husable
  · intro hle e he husable
    exact (bitmapBytes_mono (hupper e he husable)).trans hle

theorem Placeable.memSize_lt (hmap : map.Placeable) : map.memSize < 2 ^ 43 := by
  obtain hzero | ⟨e, he, husable, hend⟩ := foldl_scanEntry_attained (0, 0) hmap.below
  · have hsize : map.memSize = 0 := hzero
    rw [hsize]
    decide
  · exact hend.trans_lt (hmap.below e he husable)

/-! ## The words and the bytes -/

/-- The words of all blocks lie in as many bytes as they fill. -/
theorem forall_wordPhys_iff (hsize : map.memSize < 2 ^ 43) (hbase : e.base = map.bitmapPhys) :
    (∀ b < map.memSize / 4096, e.base ≤ map.wordPhys b ∧
      map.wordPhys b + 4 ≤ e.base + e.length) ↔ bitmapBytes map.memSize ≤ e.length := by
  unfold bitmapBytes
  constructor
  · intro hwords
    by_cases hpos : 0 < map.memSize / 4096
    · have hlast := (hwords (map.memSize / 4096 - 1) (by omega)).2
      rw [wordPhys_natCast (by omega)] at hlast
      omega
    · omega
  · intro hle b hb
    rw [wordPhys_natCast (by omega)]
    omega

/-- The bytes set are a part of the words. -/
theorem pmmInitialize_inside (hbase : e.base = map.bitmapPhys)
    (hle : bitmapBytes map.memSize ≤ e.length) {hhdmOffset x : ℕ} {mem : Memory}
    (hchange : (Pmm.pmmInitialize mem map.memSize
      ((hhdmOffset + map.bitmapPhys) % 2 ^ 64)).mem x ≠ mem x) :
    ∃ k < e.length, x = (hhdmOffset + e.base) % 2 ^ 64 + k := by
  have hbytes : map.memSize / blockSize / 8 ≤ e.length := by
    unfold bitmapBytes at hle
    unfold blockSize
    omega
  rw [hbase]
  unfold Pmm.pmmInitialize at hchange
  dsimp only at hchange
  rw [Libc.memset_eq_fill] at hchange
  by_contra hnone
  refine hchange (Memory.fill_outside ?_)
  by_contra hinside
  exact hnone ⟨x - (hhdmOffset + map.bitmapPhys) % 2 ^ 64, by omega, by omega⟩

/-- Large usable entries that start at the same place are the same. -/
theorem Placeable.eq_of_base (hmap : map.Placeable) (he : e ∈ map) (he' : e' ∈ map)
    (hlarge : e.Large) (hlarge' : e'.Large) (hbase : e.base = e'.base) : e = e' := by
  by_contra hne
  have hsymm : Std.Symm fun e e' : LimineMemmapEntry =>
      e.type = LimineMemmapEntry.usable → e'.type = LimineMemmapEntry.usable →
        e.base + e.length ≤ e'.base ∨ e'.base + e'.length ≤ e.base :=
    ⟨fun _ _ h husable husable' => (h husable' husable).symm⟩
  have hapart := hmap.apart.forall he he' hne hlarge.1 hlarge'.1
  have hlength := hlarge.2
  have hlength' := hlarge'.2
  omega

/-- The bitmap fits exactly when the entry it is placed in is long enough for the end of
every usable entry. -/
theorem fits_iff_roomy (hmap : map.Placeable) : map.Fits ↔ map.Roomy := by
  have hsize := hmap.memSize_lt
  unfold Fits Roomy
  simp only [hmap.forall_bitmapBytes_le]
  constructor
  · rintro ⟨e, he, hlarge, hbase, -, hwords⟩
    obtain ⟨c, hchosen⟩ := exists_chosen hmap.large
    have hlargeChosen : c.Large := by
      obtain ⟨_, _, _, h, _⟩ := hchosen
      exact h
    obtain rfl := hmap.eq_of_base he hchosen.mem hlarge hlargeChosen
      (hbase.trans hchosen.bitmapPhys_eq)
    exact ⟨e, hchosen, (forall_wordPhys_iff hsize hbase).mp hwords⟩
  · rintro ⟨e, hchosen, hle⟩
    have hbase := hchosen.bitmapPhys_eq.symm
    refine ⟨e, hchosen.mem, ?_, hbase, fun _ _ _ => pmmInitialize_inside hbase hle,
      (forall_wordPhys_iff hsize hbase).mpr hle⟩
    obtain ⟨_, _, _, h, _⟩ := hchosen
    exact h

/-- A map with one entry of 128 MiB: its bitmap has 4100 bytes. -/
theorem spillMap_fits_iff_roomy : spillMap.Fits ↔ spillMap.Roomy :=
  fits_iff_roomy ⟨by decide, by decide, by decide, by decide⟩

/-- A first entry of 1 MiB, and 32 GiB behind it. -/
def lowMap : MemoryMap := [⟨0x100000, 0x100000, 0⟩, ⟨0x300000, 0x800000000, 0⟩]

/-- The bitmap of more than 32 GiB does not fit in 1 MiB. -/
theorem lowMap_not_fits : lowMap.Placeable ∧ ¬ lowMap.Fits := by
  have hphys : lowMap.bitmapPhys = 0x100000 := by decide
  have hblocks : lowMap.memSize / 4096 = 8389376 := by decide
  refine ⟨⟨by decide, by decide, by decide, by decide⟩, ?_⟩
  rintro ⟨e, he, -, hbase, -, hwords⟩
  have hlast := (hwords 8389375 (by omega)).2
  rw [wordPhys_natCast (by decide)] at hlast
  simp only [lowMap, List.mem_cons, List.not_mem_nil, or_false] at he
  rcases he with rfl | rfl
  · dsimp only at hlast
    omega
  · dsimp only at hbase
    omega

end MemoryMap

end BadOS.Kernel
