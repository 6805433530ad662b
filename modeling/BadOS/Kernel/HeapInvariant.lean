import BadOS.Foundation.Tiling
import BadOS.Kernel.Kheap

/-! # The heap invariant

The headers in memory describe blocks tiling the heap, each linked to the one
behind it. Allocation splits a block and freeing merges two, so every operation
replaces a stretch of blocks by one of the same extent.
-/

namespace BadOS.Kernel.Kheap

open Tiling

/-- A block of the heap; `owner` is the requested size while it is allocated. -/
structure Block where
  size : ℕ
  owner : Option ℕ
deriving DecidableEq

/-- The region handed to `kheap_initialize`: not at address 0, and its end is an
address too. -/
structure Region where
  start : ℕ
  total : ℕ
  start_pos : 0 < start
  header_le : headerSize ≤ total
  fits : start + total < 2 ^ 64

namespace Region

def stop (region : Region) : ℕ := region.start + region.total

end Region

/-- The `next` field of a block that ends at `x`. -/
def link (stop x : ℕ) : ℕ := if x = stop then 0 else x

/-- The header at `a` describes `b`. -/
structure HeaderAt (m : Memory) (stop a : ℕ) (b : Block) : Prop where
  size_eq : size m a = b.size
  isFree_iff : isFree m a ≠ 0 ↔ b.owner = none
  next_eq : next m a = link stop (a + b.size)

/-- A block holds its header and what its owner asked for. -/
def Block.Roomy (b : Block) : Prop :=
  headerSize ≤ b.size ∧ ∀ n, b.owner = some n → n + headerSize ≤ b.size

/-- The headers in memory describe `blocks`, which tile the region. -/
structure Represents (m : Memory) (region : Region) (blocks : List Block) : Prop where
  extent_eq : extent Block.size blocks = region.total
  header : ∀ p ∈ place Block.size region.start blocks, HeaderAt m region.stop p.1 p.2
  roomy : ∀ b ∈ blocks, b.Roomy

variable {m m' : Memory} {region : Region} {blocks before middle after : List Block}
variable {a stop fuel total : ℕ} {b : Block} {p : ℕ × Block}

/-! ## Headers -/

theorem HeaderAt.congr (hheader : HeaderAt m stop a b)
    (hsame : ∀ x, a ≤ x → x < a + headerSize → m' x = m x) : HeaderAt m' stop a b := by
  unfold headerSize at hsame
  obtain ⟨hsize, hfree, hnext⟩ := hheader
  have hsize' : size m' a = size m a := Memory.load_congr fun i hi => hsame _ (by omega) (by omega)
  have hfree' : isFree m' a = isFree m a :=
    Memory.load_congr fun i hi => hsame _ (by omega) (by omega)
  have hnext' : next m' a = next m a := Memory.load_congr fun i hi => hsame _ (by omega) (by omega)
  exact ⟨hsize'.trans hsize, by rw [hfree']; exact hfree, hnext'.trans hnext⟩

section Fields

variable (m : Memory) {c v : ℕ}

theorem next_setNext (hv : v < 2 ^ 64) : next (setNext m a v) a = v :=
  Memory.load_store (by omega)

theorem size_setSize (hv : v < 2 ^ 64) : size (setSize m a v) a = v :=
  Memory.load_store (by omega)

theorem isFree_setIsFree (hv : v < 2 ^ 32) : isFree (setIsFree m a v) a = v :=
  Memory.load_store (by omega)

/-- Headers that do not overlap, or are the same. -/
def Apart (a c : ℕ) : Prop := a = c ∨ a + headerSize ≤ c ∨ c + headerSize ≤ a

variable {m}

theorem size_setNext (h : Apart a c) : size (setNext m a v) c = size m c := by
  unfold Apart headerSize at h
  exact Memory.load_store_of_disjoint (by omega)

theorem isFree_setNext (h : Apart a c) : isFree (setNext m a v) c = isFree m c := by
  unfold Apart headerSize at h
  exact Memory.load_store_of_disjoint (by omega)

theorem next_setSize (h : Apart a c) : next (setSize m a v) c = next m c := by
  unfold Apart headerSize at h
  exact Memory.load_store_of_disjoint (by omega)

theorem isFree_setSize (h : Apart a c) : isFree (setSize m a v) c = isFree m c := by
  unfold Apart headerSize at h
  exact Memory.load_store_of_disjoint (by omega)

theorem next_setIsFree (h : Apart a c) : next (setIsFree m a v) c = next m c := by
  unfold Apart headerSize at h
  exact Memory.load_store_of_disjoint (by omega)

theorem size_setIsFree (h : Apart a c) : size (setIsFree m a v) c = size m c := by
  unfold Apart headerSize at h
  exact Memory.load_store_of_disjoint (by omega)

theorem next_setNext_of_ne (h : Apart a c) (hne : a ≠ c) :
    next (setNext m a v) c = next m c := by
  unfold Apart headerSize at h
  exact Memory.load_store_of_disjoint (by omega)

theorem size_setSize_of_ne (h : Apart a c) (hne : a ≠ c) :
    size (setSize m a v) c = size m c := by
  unfold Apart headerSize at h
  exact Memory.load_store_of_disjoint (by omega)

theorem isFree_setIsFree_of_ne (h : Apart a c) (hne : a ≠ c) :
    isFree (setIsFree m a v) c = isFree m c := by
  unfold Apart headerSize at h
  exact Memory.load_store_of_disjoint (by omega)

end Fields

/-! ## Blocks in the region -/

theorem Represents.stop_eq (hrep : Represents m region blocks) :
    region.stop = region.start + extent Block.size blocks := by
  rw [Region.stop, hrep.extent_eq]

theorem Represents.size_pos (hrep : Represents m region blocks) :
    ∀ b ∈ blocks, 0 < b.size := by
  intro b hb
  have := (hrep.roomy b hb).1
  unfold headerSize at this
  omega

/-- A placed block lies in the region and has room for its header. -/
theorem Represents.bounds (hrep : Represents m region blocks)
    (hp : p ∈ place Block.size region.start blocks) :
    region.start ≤ p.1 ∧ headerSize ≤ p.2.size ∧ p.1 + p.2.size ≤ region.stop := by
  have hbounds := mem_place_bounds hp
  rw [hrep.stop_eq]
  exact ⟨hbounds.1, (hrep.roomy _ (snd_mem_of_mem_place hp)).1, hbounds.2⟩

/-- Replacing a stretch of blocks by one of the same extent. -/
theorem Represents.replace {middle' : List Block}
    (hrep : Represents m region (before ++ middle ++ after))
    (hextent : extent Block.size middle' = extent Block.size middle)
    (hroomy : ∀ b ∈ middle', b.Roomy)
    (hheader : ∀ p ∈ place Block.size (region.start + extent Block.size before) middle',
      HeaderAt m' region.stop p.1 p.2)
    (houtside : ∀ x, x < region.start + extent Block.size before ∨
      region.start + extent Block.size before + extent Block.size middle ≤ x → m' x = m x) :
    Represents m' region (before ++ middle' ++ after) := by
  constructor
  · have := hrep.extent_eq
    simp only [extent_append] at this ⊢
    omega
  · intro p hp
    rcases mem_place_middle.mp hp with hbefore | hmiddle | hafter
    · have hold : p ∈ place Block.size region.start (before ++ middle ++ after) :=
        mem_place_middle.mpr (Or.inl hbefore)
      have hsize := (hrep.bounds hold).2.1
      have hend := (mem_place_bounds hbefore).2
      exact (hrep.header p hold).congr fun x hlo hhi => houtside x (by omega)
    · exact hheader p hmiddle
    · rw [hextent] at hafter
      have hold : p ∈ place Block.size region.start (before ++ middle ++ after) :=
        mem_place_middle.mpr (Or.inr (Or.inr hafter))
      have hstart := (mem_place_bounds hafter).1
      exact (hrep.header p hold).congr fun x hlo hhi => houtside x (by omega)
  · intro b hb
    simp only [List.mem_append] at hb
    rcases hb with (hbefore | hmiddle) | hafter
    · exact hrep.roomy b (by simp [hbefore])
    · exact hroomy b hmiddle
    · exact hrep.roomy b (by simp [hafter])

/-! ## Allocation -/

/-- A block the search stops at. -/
def Block.Fits (total : ℕ) (b : Block) : Prop := b.owner = none ∧ total ≤ b.size

instance (total : ℕ) : DecidablePred (Block.Fits total) :=
  fun b => inferInstanceAs (Decidable (b.owner = none ∧ total ≤ b.size))

theorem HeaderAt.fits_iff (hheader : HeaderAt m stop a b) :
    isFree m a ≠ 0 ∧ total ≤ size m a ↔ b.Fits total := by
  rw [hheader.isFree_iff, hheader.size_eq]
  rfl

/-- The search visits the blocks in order and takes the first that fits. -/
theorem kmallocLoop_eq_find (total : ℕ) (hpos : 0 < a) (hstop : stop = a + extent Block.size blocks)
    (hsize : ∀ b ∈ blocks, 0 < b.size)
    (hheader : ∀ p ∈ place Block.size a blocks, HeaderAt m stop p.1 p.2)
    (hfuel : blocks.length < fuel) :
    kmallocLoop m total fuel (link stop a) =
      match (place Block.size a blocks).find? (fun p => p.2.Fits total) with
      | none => some (0, m)
      | some p => some ((p.1 + headerSize) % 2 ^ 64, takeBlock m p.1 total) := by
  induction blocks generalizing a fuel with
  | nil =>
      obtain ⟨fuel, rfl⟩ : ∃ k, fuel = k + 1 := ⟨fuel - 1, by simp at hfuel; omega⟩
      rw [extent_nil, Nat.add_zero] at hstop
      simp [kmallocLoop, link, hstop]
  | cons b rest ih =>
      obtain ⟨fuel, rfl⟩ : ∃ k, fuel = k + 1 := ⟨fuel - 1, by simp at hfuel; omega⟩
      rw [extent_cons] at hstop
      have hb := hsize b List.mem_cons_self
      have hlink : link stop a = a := if_neg (by omega)
      have hhead := hheader (a, b) List.mem_cons_self
      rw [hlink, kmallocLoop, if_neg (by omega), place_cons, List.find?_cons]
      by_cases hfit : b.Fits total
      · rw [if_pos (hhead.fits_iff.mpr hfit)]
        simp [hfit]
      · rw [if_neg (fun h => hfit (hhead.fits_iff.mp h)), hhead.next_eq]
        simp only [hfit, decide_false]
        apply ih
        · omega
        · omega
        · exact fun c hc => hsize c (List.mem_cons_of_mem _ hc)
        · exact fun p hp => hheader p (List.mem_cons_of_mem _ hp)
        · simpa using hfuel

/-- What a block becomes when `totalSize` of its bytes are taken. -/
def Block.taken (total n : ℕ) (b : Block) : List Block :=
  if total + headerSize < b.size then [⟨total, some n⟩, ⟨b.size - total, none⟩]
  else [⟨b.size, some n⟩]

theorem extent_taken (n : ℕ) (hfits : total ≤ b.size) :
    extent Block.size (b.taken total n) = b.size := by
  unfold Block.taken
  split
  · simp only [extent_cons, extent_nil]
    omega
  · simp

theorem roomy_taken {n : ℕ} (hfits : n + headerSize ≤ b.size) (hb : headerSize ≤ b.size) :
    ∀ c ∈ b.taken (n + headerSize) n, c.Roomy := by
  unfold Block.taken Block.Roomy
  split
  next hsplit =>
    simp only [List.mem_cons, List.not_mem_nil, or_false, forall_eq_or_imp, forall_eq,
      Option.some.injEq, reduceCtorEq, IsEmpty.forall_iff, implies_true, and_true]
    refine ⟨⟨by omega, ?_⟩, by omega⟩
    rintro k rfl
    exact le_refl _
  next =>
    simp only [List.mem_cons, List.not_mem_nil, or_false, forall_eq, Option.some.injEq]
    refine ⟨hb, ?_⟩
    rintro k rfl
    exact hfits

theorem takeBlock_outside (hsize : size m a = b.size) (hb : headerSize ≤ b.size)
    (hend : a + b.size ≤ 2 ^ 64) (htotal : total + headerSize < 2 ^ 64) {x : ℕ}
    (hx : x < a ∨ a + b.size ≤ x) : takeBlock m a total x = m x := by
  unfold headerSize at *
  unfold takeBlock headerSize
  rw [Nat.mod_eq_of_lt htotal, hsize]
  split
  next hsplit =>
    have hnew : (a + total) % 2 ^ 64 = a + total := Nat.mod_eq_of_lt (by omega)
    simp only [splitBlock, hnew, setNext, setSize, setIsFree]
    iterate 6 rw [Memory.store_outside (by omega)]
  next =>
    unfold setIsFree
    exact Memory.store_outside (by omega)

/-- The two headers after a split. -/
theorem splitBlock_fields (htotal : headerSize ≤ total) (hle : total ≤ size m a)
    (hend : a + total < 2 ^ 64) :
    (size (splitBlock m a total) a = total ∧ isFree (splitBlock m a total) a = isFree m a ∧
      next (splitBlock m a total) a = a + total) ∧
    (size (splitBlock m a total) (a + total) = size m a - total ∧
      isFree (splitBlock m a total) (a + total) = 1 ∧
      next (splitBlock m a total) (a + total) = next m a) := by
  have hsize : size m a < 2 ^ 64 := Memory.load_lt m (a + 8) 8
  have hnext : next m a < 2 ^ 64 := Memory.load_lt m a 8
  have hnew : (a + total) % 2 ^ 64 = a + total := Nat.mod_eq_of_lt hend
  have hrest : (size m a + 2 ^ 64 - total) % 2 ^ 64 = size m a - total := by omega
  have hself : Apart a a := Or.inl rfl
  have hnewSelf : Apart (a + total) (a + total) := Or.inl rfl
  have hforth : Apart a (a + total) := Or.inr (Or.inl (by omega))
  have hback : Apart (a + total) a := Or.inr (Or.inr (by omega))
  have hne : a ≠ a + total := by
    unfold headerSize at htotal
    omega
  simp only [splitBlock, hnew, hrest]
  refine ⟨⟨?_, ?_, ?_⟩, ?_, ?_, ?_⟩
  · rw [size_setNext hself, size_setSize _ (by omega)]
  · rw [isFree_setNext hself, isFree_setSize hself, isFree_setNext hback,
      isFree_setIsFree_of_ne hback hne.symm, isFree_setSize hback]
  · rw [next_setNext _ hend]
  · rw [size_setNext hforth, size_setSize_of_ne hforth hne, size_setNext hnewSelf,
      size_setIsFree hnewSelf, size_setSize _ (by omega)]
  · rw [isFree_setNext hforth, isFree_setSize hforth, isFree_setNext hnewSelf,
      isFree_setIsFree _ (by decide)]
  · have hkept : next (setIsFree (setSize m (a + total) (size m a - total)) (a + total) 1) a =
        next m a := by
      rw [next_setIsFree hback, next_setSize hback]
    rw [next_setNext_of_ne hforth hne, next_setSize hforth, hkept, next_setNext _ hnext]

/-- The headers a taken block leaves describe the blocks it becomes. -/
theorem takeBlock_header {n : ℕ} (hheader : HeaderAt m stop a b) (hfits : b.Fits total)
    (htotal : total + headerSize < 2 ^ 64) (hroom : headerSize ≤ total)
    (hend : a + b.size ≤ stop) (hstop : stop ≤ 2 ^ 64) :
    ∀ p ∈ place Block.size a (b.taken total n), HeaderAt (takeBlock m a total) stop p.1 p.2 := by
  obtain ⟨hsize, hfree, hnext⟩ := hheader
  have hle : total ≤ b.size := hfits.2
  unfold takeBlock Block.taken
  rw [Nat.mod_eq_of_lt htotal, hsize]
  by_cases hsplit : total + headerSize < b.size
  · obtain ⟨⟨hsizeA, -, hnextA⟩, hsizeN, hfreeN, hnextN⟩ :=
      splitBlock_fields hroom (show total ≤ size m a by omega) (by omega)
    have hself : Apart a a := Or.inl rfl
    have hforth : Apart a (a + total) := Or.inr (Or.inl (by omega))
    have hne : a ≠ a + total := by
      unfold headerSize at hroom
      omega
    simp only [if_pos hsplit, place_cons, place_nil, List.mem_cons, List.not_mem_nil, or_false,
      forall_eq_or_imp, forall_eq]
    constructor
    · refine ⟨by rw [size_setIsFree hself, hsizeA], by simp [isFree_setIsFree], ?_⟩
      have hlink : link stop (a + total) = a + total := if_neg (by omega)
      rw [next_setIsFree hself, hnextA, hlink]
    · refine ⟨by rw [size_setIsFree hforth, hsizeN, hsize], ?_, ?_⟩
      · rw [isFree_setIsFree_of_ne hforth hne, hfreeN]
        simp
      · have hback : a + total + (b.size - total) = a + b.size := by omega
        rw [next_setIsFree hforth, hnextN, hnext, hback]
  · have hself : Apart a a := Or.inl rfl
    simp only [if_neg hsplit, place_cons, place_nil, List.mem_cons, List.not_mem_nil, or_false,
      forall_eq]
    exact ⟨by rw [size_setIsFree hself, hsize], by simp [isFree_setIsFree],
      by rw [next_setIsFree hself, hnext]⟩

theorem Represents.length_lt (hrep : Represents m region blocks) : blocks.length < 2 ^ 64 := by
  have hlength := length_le_extent hrep.size_pos
  have hextent := hrep.extent_eq
  have hfits := region.fits
  have hpos := region.start_pos
  omega

theorem Region.link_start (region : Region) : link region.stop region.start = region.start := by
  have hheader := region.header_le
  unfold headerSize at hheader
  exact if_neg (by rw [Region.stop]; omega)

theorem Region.stop_lt (region : Region) : region.stop < 2 ^ 64 := region.fits

/-- The search of `kmalloc` ends, at the end of the list or at a free block as large
as the total, which may have wrapped around. -/
theorem Represents.kmalloc_cases (hrep : Represents m region blocks) (n : ℕ) :
    (kmalloc ⟨m, region.start⟩ n = some (0, ⟨m, region.start⟩) ∧
      ∀ b ∈ blocks, ¬ b.Fits ((n + headerSize) % 2 ^ 64)) ∨
    ∃ before b after, blocks = before ++ [b] ++ after ∧ b.Fits ((n + headerSize) % 2 ^ 64) ∧
      kmalloc ⟨m, region.start⟩ n =
        some (region.start + extent Block.size before + headerSize,
          ⟨takeBlock m (region.start + extent Block.size before) ((n + headerSize) % 2 ^ 64),
            region.start⟩) := by
  have hloop := kmallocLoop_eq_find ((n + headerSize) % 2 ^ 64) region.start_pos hrep.stop_eq
    hrep.size_pos hrep.header hrep.length_lt
  rw [region.link_start] at hloop
  unfold kmalloc
  dsimp only
  rw [hloop]
  cases hfind : (place Block.size region.start blocks).find?
      (fun p => p.2.Fits ((n + headerSize) % 2 ^ 64)) with
  | none =>
      refine Or.inl ⟨rfl, ?_⟩
      intro b hb hfits
      obtain ⟨before, after, rfl⟩ := List.append_of_mem hb
      rw [List.find?_eq_none] at hfind
      apply hfind (region.start + extent Block.size before, b)
      · rw [place_append, place_cons]
        simp
      · simpa using hfits
  | some p =>
      have hmem := List.mem_of_find?_eq_some hfind
      have hfits : p.2.Fits ((n + headerSize) % 2 ^ 64) := by simpa using List.find?_some hfind
      obtain ⟨before, after, hblocks, haddr⟩ := exists_split_of_mem_place hmem
      refine Or.inr ⟨before, p.2, after, by simpa using hblocks, hfits, ?_⟩
      have hbounds := hrep.bounds hmem
      have hstop := region.stop_lt
      have hpayload : (p.1 + headerSize) % 2 ^ 64 = p.1 + headerSize :=
        Nat.mod_eq_of_lt (by unfold headerSize at *; omega)
      simp only [Option.map_some]
      rw [hpayload, haddr]

/-- The same for a request whose total does not wrap around. -/
theorem Represents.kmalloc_eq (hrep : Represents m region blocks) {n : ℕ}
    (hn : n + 2 * headerSize < 2 ^ 64) :
    (kmalloc ⟨m, region.start⟩ n = some (0, ⟨m, region.start⟩) ∧
      ∀ b ∈ blocks, ¬ b.Fits (n + headerSize)) ∨
    ∃ before b after, blocks = before ++ [b] ++ after ∧ b.Fits (n + headerSize) ∧
      kmalloc ⟨m, region.start⟩ n =
        some (region.start + extent Block.size before + headerSize,
          ⟨takeBlock m (region.start + extent Block.size before) (n + headerSize),
            region.start⟩) := by
  have htotal : (n + headerSize) % 2 ^ 64 = n + headerSize := Nat.mod_eq_of_lt (by omega)
  have hcases := hrep.kmalloc_cases n
  rwa [htotal] at hcases

/-- Taking a block that fits leaves a represented heap. -/
theorem Represents.takeBlock {n : ℕ} (hrep : Represents m region (before ++ [b] ++ after))
    (hfits : b.Fits (n + headerSize)) (hn : n + 2 * headerSize < 2 ^ 64) :
    Represents (takeBlock m (region.start + extent Block.size before) (n + headerSize)) region
      (before ++ b.taken (n + headerSize) n ++ after) := by
  have hmem : (region.start + extent Block.size before, b) ∈
      place Block.size region.start (before ++ [b] ++ after) := mem_place_split b before after
  have hbounds := hrep.bounds hmem
  have hheader := hrep.header _ hmem
  have hstop := region.stop_lt
  dsimp only at hbounds hheader
  apply hrep.replace
  · rw [extent_taken n hfits.2]
    simp
  · exact roomy_taken hfits.2 hbounds.2.1
  · exact takeBlock_header hheader hfits (by omega) (by omega) hbounds.2.2 hstop.le
  · intro x hx
    rw [extent_cons, extent_nil, Nat.add_zero] at hx
    exact takeBlock_outside hheader.size_eq hbounds.2.1 (by omega) (by omega) hx

/-! ## Freeing -/

/-- The blocks from a free one on, after it absorbed the next if that is free. -/
def Block.absorb (b : Block) : List Block → List Block
  | [] => [b]
  | c :: rest => if c.owner = none then ⟨b.size + c.size, none⟩ :: rest else b :: c :: rest

theorem mergeNext_outside {x : ℕ} (hx : x < a ∨ a + headerSize ≤ x) :
    mergeNext m a x = m x := by
  unfold headerSize at hx
  unfold mergeNext setNext setSize
  split
  · rw [Memory.store_outside (by omega), Memory.store_outside (by omega)]
  · rfl

theorem Represents.setIsFree (hrep : Represents m region (before ++ [b] ++ after)) :
    Represents (setIsFree m (region.start + extent Block.size before) 1) region
      (before ++ [⟨b.size, none⟩] ++ after) := by
  have hmem : (region.start + extent Block.size before, b) ∈
      place Block.size region.start (before ++ [b] ++ after) := mem_place_split b before after
  have hroom := (hrep.bounds hmem).2.1
  obtain ⟨hsize, -, hnext⟩ := hrep.header _ hmem
  have hself : ∀ a, Apart a a := fun a => Or.inl rfl
  unfold headerSize at hroom
  apply hrep.replace
  · simp
  · simp only [List.mem_singleton, forall_eq]
    exact ⟨hroom, fun n hn => nomatch hn⟩
  · simp only [place_cons, place_nil, List.mem_singleton, forall_eq]
    refine ⟨?_, by simp [isFree_setIsFree], ?_⟩
    · rw [size_setIsFree (hself _), hsize]
    · rw [next_setIsFree (hself _), hnext]
  · intro x hx
    rw [extent_cons, extent_nil, Nat.add_zero] at hx
    unfold Kheap.setIsFree
    dsimp only at hroom
    exact Memory.store_outside (by omega)

/-- The merged header describes the two blocks as one. -/
theorem mergeNext_header {c : Block} (hheader : HeaderAt m stop a b) (hfree : b.owner = none)
    (hheaderC : HeaderAt m stop (a + b.size) c) (hfreeC : c.owner = none) (hpos : 0 < a)
    (hroom : headerSize ≤ b.size) (hroomC : headerSize ≤ c.size)
    (hend : a + b.size + c.size ≤ stop) (hstop : stop < 2 ^ 64) :
    HeaderAt (mergeNext m a) stop a ⟨b.size + c.size, none⟩ := by
  have hisFree := hheader.isFree_iff.mpr hfree
  have hself : Apart a a := Or.inl rfl
  have hforth : Apart a (a + b.size) := Or.inr (Or.inl (by omega))
  have hnextC : next m (a + b.size) < 2 ^ 64 := Memory.load_lt m (a + b.size) 8
  have hsum : (b.size + c.size) % 2 ^ 64 = b.size + c.size := Nat.mod_eq_of_lt (by omega)
  have hlink : next m a = a + b.size := by
    unfold headerSize at hroomC
    rw [hheader.next_eq, link, if_neg (by omega)]
  unfold mergeNext
  rw [hlink, if_pos ⟨by omega, hheaderC.isFree_iff.mpr hfreeC⟩, hheader.size_eq, hheaderC.size_eq,
    hsum]
  dsimp only
  rw [next_setSize hself, hlink, next_setSize hforth]
  refine ⟨?_, ?_, ?_⟩
  · rw [size_setNext hself, size_setSize _ (by omega)]
  · rw [isFree_setNext hself, isFree_setSize hself]
    simpa using hisFree
  · rw [next_setNext _ hnextC, hheaderC.next_eq, Nat.add_assoc]

/-- Merging a free block with the next leaves a represented heap. -/
theorem Represents.mergeNext (hrep : Represents m region (before ++ [b] ++ after))
    (hfree : b.owner = none) :
    Represents (mergeNext m (region.start + extent Block.size before)) region
      (before ++ b.absorb after) := by
  have hmem : (region.start + extent Block.size before, b) ∈
      place Block.size region.start (before ++ [b] ++ after) := mem_place_split b before after
  have hheader := hrep.header _ hmem
  have hroom := (hrep.bounds hmem).2.1
  have hlt := region.stop_lt
  have hpos : 0 < region.start + extent Block.size before := by
    have := region.start_pos
    omega
  cases after with
  | nil =>
      -- The last block has no next one to merge with.
      have hlast : next m (region.start + extent Block.size before) = 0 := by
        have hstop := hrep.stop_eq
        simp only [extent_append, extent_cons, extent_nil, Nat.add_zero] at hstop
        rw [hheader.next_eq, link, if_pos (by dsimp only; omega)]
      have hsame : Kheap.mergeNext m (region.start + extent Block.size before) = m := by
        unfold Kheap.mergeNext
        rw [hlast, if_neg (by simp)]
      rw [hsame, Block.absorb]
      simpa using hrep
  | cons c rest =>
      have hmemC : (region.start + extent Block.size before + b.size, c) ∈
          place Block.size region.start (before ++ [b] ++ c :: rest) :=
        mem_place_middle.mpr (Or.inr (Or.inr (by simp)))
      have hheaderC := hrep.header _ hmemC
      have hboundsC := hrep.bounds hmemC
      dsimp only at hheader hheaderC hboundsC hroom
      by_cases hfreeC : c.owner = none
      · rw [Block.absorb, if_pos hfreeC]
        have hpair : Represents m region (before ++ [b, c] ++ rest) := by simpa using hrep
        have hmerged : Represents (Kheap.mergeNext m (region.start + extent Block.size before))
            region (before ++ [⟨b.size + c.size, none⟩] ++ rest) := by
          apply hpair.replace
          · simp
          · simp only [List.mem_singleton, forall_eq]
            exact ⟨by dsimp only; omega, fun n hn => nomatch hn⟩
          · simp only [place_cons, place_nil, List.mem_singleton, forall_eq]
            exact mergeNext_header hheader hfree hheaderC hfreeC hpos hroom hboundsC.2.1
              hboundsC.2.2 hlt
          · intro x hx
            simp only [extent_cons, extent_nil, Nat.add_zero] at hx
            exact mergeNext_outside (by omega)
        simpa using hmerged
      · have hroomC := hboundsC.2.1
        unfold headerSize at hroomC
        have hlink : next m (region.start + extent Block.size before) =
            region.start + extent Block.size before + b.size := by
          rw [hheader.next_eq, link, if_neg (by omega)]
        have hsame : Kheap.mergeNext m (region.start + extent Block.size before) = m := by
          unfold Kheap.mergeNext
          rw [hlink, if_neg (fun h => hfreeC (hheaderC.isFree_iff.mp h.2))]
        rw [hsame, Block.absorb, if_neg hfreeC]
        simpa using hrep

/-- `kfree` of an allocated block leaves a represented heap. -/
theorem Represents.kfree_eq (hrep : Represents m region (before ++ [b] ++ after)) :
    ∃ m', kfree ⟨m, region.start⟩ (region.start + extent Block.size before + headerSize) =
        ⟨m', region.start⟩ ∧
      Represents m' region (before ++ Block.absorb ⟨b.size, none⟩ after) := by
  have hmem : (region.start + extent Block.size before, b) ∈
      place Block.size region.start (before ++ [b] ++ after) := mem_place_split b before after
  have hbounds := hrep.bounds hmem
  have hlt := region.stop_lt
  dsimp only at hbounds
  have hblock : (region.start + extent Block.size before + headerSize + 2 ^ 64 - headerSize) %
      2 ^ 64 = region.start + extent Block.size before := by omega
  unfold Kheap.kfree
  rw [if_neg (by unfold headerSize; omega)]
  dsimp only
  rw [hblock]
  exact ⟨_, rfl, hrep.setIsFree.mergeNext rfl⟩

end BadOS.Kernel.Kheap
