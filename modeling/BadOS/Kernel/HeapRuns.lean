import BadOS.Foundation.Execution
import BadOS.Kernel.HeapInvariant

/-! # Runs of the heap

Any sequence of allocations, frees of live pointers and writes by the owners of
live payloads. The ghost map `live` records what the callers hold; the invariant
ties it to the allocated blocks.
-/

namespace BadOS.Kernel.Kheap

open Tiling Execution

/-- The heap with the requested size of every pointer its callers hold. -/
structure Usage where
  heap : Kheap
  live : ℕ → Option ℕ

inductive Operation
  | kmalloc (size : ℕ)
  | kfree (ptr : ℕ)
  | write (ptr offset : ℕ) (byte : UInt8)
  | writeOutside (addr : ℕ) (byte : UInt8)

/-- The bytes of the block behind `ptr` that are not its header. -/
def capacity (m : Memory) (ptr : ℕ) : ℕ := size m (ptr - headerSize) - headerSize

def Usage.start (region : Region) (mem : Memory) : Usage :=
  { heap := kheapInitialize mem region.start region.total, live := fun _ => none }

inductive Step (region : Region) (s : Usage) : Operation → Usage → Prop
  | kmalloc {size ptr : ℕ} {heap : Kheap} (hsize : size + 2 * headerSize < 2 ^ 64)
      (hreturn : s.heap.kmalloc size = some (ptr, heap)) :
      Step region s (.kmalloc size)
        ⟨heap, if ptr = 0 then s.live else Function.update s.live ptr (some size)⟩
  | kfree {ptr : ℕ} (hlive : ptr = 0 ∨ s.live ptr ≠ none) :
      Step region s (.kfree ptr) ⟨s.heap.kfree ptr, Function.update s.live ptr none⟩
  | write {ptr offset : ℕ} {byte : UInt8} (hlive : s.live ptr ≠ none)
      (hoffset : offset < capacity s.heap.mem ptr) :
      Step region s (.write ptr offset byte)
        ⟨{ s.heap with mem := Function.update s.heap.mem (ptr + offset) byte }, s.live⟩
  | writeOutside {addr : ℕ} {byte : UInt8} (houtside : addr < region.start ∨ region.stop ≤ addr) :
      Step region s (.writeOutside addr byte)
        ⟨{ s.heap with mem := Function.update s.heap.mem addr byte }, s.live⟩

/-! ## The invariant -/

/-- `blocks` describes the heap, and its allocated blocks are the live pointers. -/
structure Sound (region : Region) (s : Usage) (blocks : List Block) : Prop where
  freeList_eq : s.heap.freeList = region.start
  represents : Represents s.heap.mem region blocks
  live_iff : ∀ ptr n, s.live ptr = some n ↔
    ∃ p ∈ place Block.size region.start blocks, ptr = p.1 + headerSize ∧ p.2.owner = some n

variable {region : Region} {s s' : Usage} {blocks before middle after : List Block} {b : Block}
variable {op : Operation} {ops : List Operation} {m m' : Memory} {ptr n : ℕ}

theorem Sound.heap_eq (hsound : Sound region s blocks) :
    s.heap = ⟨s.heap.mem, region.start⟩ := by
  rw [← hsound.freeList_eq]

theorem kheapInitialize_represents (region : Region) (m : Memory) :
    Represents (kheapInitialize m region.start region.total).mem region
      [⟨region.total, none⟩] := by
  have hfits := region.fits
  have hself : Apart region.start region.start := Or.inl rfl
  have hend : link region.stop (region.start + region.total) = 0 := if_pos rfl
  constructor
  · simp
  · simp only [place_cons, place_nil, List.mem_singleton, forall_eq]
    dsimp only [kheapInitialize]
    refine ⟨?_, ?_, ?_⟩
    · rw [size_setNext hself, size_setIsFree hself, size_setSize _ (by omega)]
    · rw [isFree_setNext hself, isFree_setIsFree _ (by decide)]
      simp
    · rw [next_setNext _ (by omega)]
      exact hend.symm
  · simp only [List.mem_singleton, forall_eq]
    exact ⟨region.header_le, fun n hn => nomatch hn⟩

theorem start_sound (region : Region) (m : Memory) :
    Sound region (.start region m) [⟨region.total, none⟩] := by
  refine ⟨rfl, kheapInitialize_represents region m, ?_⟩
  intro ptr n
  simp [Usage.start]

/-- The block behind a live pointer. -/
theorem Sound.exists_block (hsound : Sound region s blocks) (hlive : s.live ptr = some n) :
    ∃ before b after, blocks = before ++ [b] ++ after ∧
      ptr = region.start + extent Block.size before + headerSize ∧ b.owner = some n := by
  obtain ⟨p, hp, rfl, howner⟩ := (hsound.live_iff ptr n).mp hlive
  obtain ⟨before, after, hblocks, haddr⟩ := exists_split_of_mem_place hp
  exact ⟨before, p.2, after, by simpa using hblocks, by rw [haddr], howner⟩

/-- A live pointer stays live, and its block where it is and as large as it is. -/
def Keeps (s s' : Usage) (ptr : ℕ) : Prop :=
  ∀ n, s.live ptr = some n → s'.live ptr = some n ∧
    size s'.heap.mem (ptr - headerSize) = size s.heap.mem (ptr - headerSize)

theorem Sound.size_eq (hsound : Sound region s blocks) {p : ℕ × Block}
    (hp : p ∈ place Block.size region.start blocks) : size s.heap.mem p.1 = p.2.size :=
  (hsound.represents.header p hp).size_eq

/-- Nobody holds the payload of a free block. -/
theorem Sound.live_eq_none (hsound : Sound region s (before ++ [b] ++ after))
    (hfree : b.owner = none) :
    s.live (region.start + extent Block.size before + headerSize) = none := by
  rw [Option.eq_none_iff_forall_ne_some]
  intro n hn
  obtain ⟨p, hp, haddr, howner⟩ := (hsound.live_iff _ n).mp hn
  have hmem : (region.start + extent Block.size before, b) ∈
      place Block.size region.start (before ++ [b] ++ after) := mem_place_split b before after
  have heq := eq_of_mem_place hsound.represents.size_pos hp hmem (by dsimp only; omega)
  rw [heq] at howner
  exact absurd (howner.symm.trans hfree) (by simp)

/-- Replacing a stretch of blocks of which at most the first is allocated. -/
theorem Sound.replace {middle' : List Block} {live : ℕ → Option ℕ} {x : ℕ}
    (hsound : Sound region s (before ++ middle ++ after))
    (hrep : Represents m' region (before ++ middle' ++ after))
    (hx : x = region.start + extent Block.size before)
    (hextent : extent Block.size middle' = extent Block.size middle)
    (hpos : 0 < extent Block.size middle)
    (hfirst : ∀ p ∈ place Block.size x middle, p.1 ≠ x → p.2.owner = none)
    (hfirst' : ∀ p ∈ place Block.size x middle', p.1 ≠ x → p.2.owner = none)
    (hself : ∀ n, live (x + headerSize) = some n ↔
      ∃ p ∈ place Block.size x middle', p.1 = x ∧ p.2.owner = some n)
    (hother : ∀ ptr, ptr ≠ x + headerSize → live ptr = s.live ptr) :
    Sound region ⟨⟨m', region.start⟩, live⟩ (before ++ middle' ++ after) ∧
      ∀ ptr, ptr ≠ x + headerSize → Keeps s ⟨⟨m', region.start⟩, live⟩ ptr := by
  -- Blocks elsewhere are the same blocks before and after.
  have hbefore : ∀ p ∈ place Block.size region.start before, p.1 ≠ x := by
    intro p hp
    have hend := (mem_place_bounds hp).2
    have hsize := hrep.size_pos p.2 (by simp [snd_mem_of_mem_place hp])
    omega
  have hafter : ∀ p ∈ place Block.size (x + extent Block.size middle) after, p.1 ≠ x := by
    intro p hp
    have hstart := (mem_place_bounds hp).1
    omega
  have hsame : ∀ p : ℕ × Block, p.1 ≠ x → p.2.owner ≠ none →
      (p ∈ place Block.size region.start (before ++ middle' ++ after) ↔
        p ∈ place Block.size region.start (before ++ middle ++ after)) := by
    intro p hne howner
    rw [mem_place_middle, mem_place_middle, hextent, ← hx]
    constructor
    · rintro (h | h | h)
      · exact Or.inl h
      · exact absurd (hfirst' p h hne) howner
      · exact Or.inr (Or.inr h)
    · rintro (h | h | h)
      · exact Or.inl h
      · exact absurd (hfirst p h hne) howner
      · exact Or.inr (Or.inr h)
  -- Only the pointer of the first block changes hands.
  have hlive : ∀ ptr n, live ptr = some n ↔
      ∃ p ∈ place Block.size region.start (before ++ middle' ++ after),
        ptr = p.1 + headerSize ∧ p.2.owner = some n := by
    intro ptr n
    by_cases hptr : ptr = x + headerSize
    · rw [hptr, hself]
      constructor
      · rintro ⟨p, hp, haddr, howner⟩
        exact ⟨p, mem_place_middle.mpr (Or.inr (Or.inl (hx ▸ hp))), by rw [haddr], howner⟩
      · rintro ⟨p, hp, haddr, howner⟩
        have haddr' : p.1 = x := by omega
        rcases mem_place_middle.mp hp with h | h | h
        · exact absurd haddr' (hbefore p h)
        · exact ⟨p, hx ▸ h, haddr', howner⟩
        · rw [hextent, ← hx] at h
          exact absurd haddr' (hafter p h)
    · rw [hother ptr hptr, hsound.live_iff]
      constructor
      · rintro ⟨p, hp, haddr, howner⟩
        exact ⟨p, (hsame p (by omega) (by simp [howner])).mpr hp, haddr, howner⟩
      · rintro ⟨p, hp, haddr, howner⟩
        exact ⟨p, (hsame p (by omega) (by simp [howner])).mp hp, haddr, howner⟩
  have hsound' : Sound region ⟨⟨m', region.start⟩, live⟩ (before ++ middle' ++ after) :=
    ⟨rfl, hrep, hlive⟩
  refine ⟨hsound', ?_⟩
  intro ptr hptr n hn
  obtain ⟨p, hp, haddr, howner⟩ := (hsound.live_iff ptr n).mp hn
  have hp' := (hsame p (by omega) (by simp [howner])).mpr hp
  refine ⟨(hother ptr hptr).trans hn, ?_⟩
  rw [haddr, Nat.add_sub_cancel, hsound.size_eq hp, hsound'.size_eq hp']

/-! ## Every operation keeps the invariant -/

theorem taken_owner (total n x : ℕ) (b : Block) :
    (∀ p ∈ place Block.size x (b.taken total n), p.1 ≠ x → p.2.owner = none) ∧
      ∀ k, (∃ p ∈ place Block.size x (b.taken total n), p.1 = x ∧ p.2.owner = some k) ↔
        n = k := by
  unfold Block.taken
  split <;> simp

/-- Taking a block that fits. -/
theorem Sound.take {size : ℕ} (hsound : Sound region s (before ++ [b] ++ after))
    (hsize : size + 2 * headerSize < 2 ^ 64) (hfits : b.Fits (size + headerSize)) :
    Sound region ⟨⟨takeBlock s.heap.mem (region.start + extent Block.size before)
        (size + headerSize), region.start⟩, Function.update s.live
          (region.start + extent Block.size before + headerSize) (some size)⟩
        (before ++ b.taken (size + headerSize) size ++ after) ∧
      ∀ q, Keeps s ⟨⟨takeBlock s.heap.mem (region.start + extent Block.size before)
        (size + headerSize), region.start⟩, Function.update s.live
          (region.start + extent Block.size before + headerSize) (some size)⟩ q := by
  have hroom := (hsound.represents.roomy b (by simp)).1
  obtain ⟨hfirst', hself⟩ := taken_owner (size + headerSize) size
    (region.start + extent Block.size before) b
  have hfirst : ∀ p ∈ place Block.size (region.start + extent Block.size before) [b],
      p.1 ≠ region.start + extent Block.size before → p.2.owner = none := by
    intro p hp hne
    rw [place_cons, place_nil, List.mem_singleton] at hp
    rw [hp]
    exact hfits.1
  have hnew : ∀ k, Function.update s.live (region.start + extent Block.size before + headerSize)
      (some size) (region.start + extent Block.size before + headerSize) = some k ↔
      ∃ p ∈ place Block.size (region.start + extent Block.size before)
          (b.taken (size + headerSize) size),
        p.1 = region.start + extent Block.size before ∧ p.2.owner = some k := by
    intro k
    rw [hself, Function.update_self, Option.some.injEq]
  obtain ⟨hsound', hkeeps⟩ := hsound.replace
    (hsound.represents.takeBlock hfits hsize) rfl
    (by rw [extent_taken size hfits.2]; simp)
    (by rw [extent_cons, extent_nil]; unfold headerSize at hroom; omega)
    hfirst hfirst' hnew (fun q hq => Function.update_of_ne hq _ _)
  refine ⟨hsound', fun q => ?_⟩
  by_cases hq : q = region.start + extent Block.size before + headerSize
  · intro k hk
    rw [hq, hsound.live_eq_none hfits.1] at hk
    cases hk
  · exact hkeeps q hq

theorem kmalloc_sound (hsound : Sound region s blocks) {size ptr : ℕ} {heap : Kheap}
    (hsize : size + 2 * headerSize < 2 ^ 64) (hreturn : s.heap.kmalloc size = some (ptr, heap)) :
    ∃ blocks', Sound region
        ⟨heap, if ptr = 0 then s.live else Function.update s.live ptr (some size)⟩ blocks' ∧
      ∀ q, Keeps s
        ⟨heap, if ptr = 0 then s.live else Function.update s.live ptr (some size)⟩ q := by
  have hheap := hsound.heap_eq
  rw [hheap] at hreturn
  rcases hsound.represents.kmalloc_eq hsize with ⟨hnull, -⟩ | ⟨before, b, after, rfl, hfits, htake⟩
  · rw [hnull, Option.some.injEq, Prod.mk.injEq] at hreturn
    obtain ⟨rfl, rfl⟩ := hreturn
    rw [← hheap, if_pos rfl]
    exact ⟨blocks, hsound, fun q k hk => ⟨hk, rfl⟩⟩
  · rw [htake, Option.some.injEq, Prod.mk.injEq] at hreturn
    obtain ⟨rfl, rfl⟩ := hreturn
    rw [if_neg (by unfold headerSize; omega)]
    exact ⟨_, hsound.take hsize hfits⟩

/-- Freeing an allocated block, and what it absorbs, when that leaves one free block. -/
theorem Sound.release {c : Block} (hsound : Sound region s (before ++ b :: middle ++ after))
    (hmiddle : ∀ d ∈ middle, d.owner = none) (hfree : c.owner = none)
    (hsize : c.size = extent Block.size (b :: middle))
    (hrep : Represents m' region (before ++ [c] ++ after)) :
    Sound region ⟨⟨m', region.start⟩, Function.update s.live
        (region.start + extent Block.size before + headerSize) none⟩ (before ++ [c] ++ after) ∧
      ∀ q, q ≠ region.start + extent Block.size before + headerSize →
        Keeps s ⟨⟨m', region.start⟩, Function.update s.live
          (region.start + extent Block.size before + headerSize) none⟩ q := by
  have hroom := (hsound.represents.roomy b (by simp)).1
  have hfirst : ∀ p ∈ place Block.size (region.start + extent Block.size before) (b :: middle),
      p.1 ≠ region.start + extent Block.size before → p.2.owner = none := by
    intro p hp hne
    rw [place_cons, List.mem_cons] at hp
    rcases hp with rfl | hp
    · exact absurd rfl hne
    · exact hmiddle _ (snd_mem_of_mem_place hp)
  apply hsound.replace hrep rfl
  · simpa using hsize
  · rw [extent_cons]
    unfold headerSize at hroom
    omega
  · exact hfirst
  · simp [hfree]
  · simp [hfree]
  · exact fun q hq => Function.update_of_ne hq _ _

/-- Absorbing makes one free block of a free block and free blocks behind it. -/
theorem exists_absorb (b : Block) (hfree : b.owner = none) (after : List Block) :
    ∃ c absorbed rest, b.absorb after = c :: rest ∧ after = absorbed ++ rest ∧
      (∀ d ∈ absorbed, d.owner = none) ∧ c.owner = none ∧
      c.size = b.size + extent Block.size absorbed := by
  cases after with
  | nil => exact ⟨b, [], [], rfl, rfl, by simp, hfree, by simp⟩
  | cons d rest =>
      by_cases hd : d.owner = none
      · exact ⟨⟨b.size + d.size, none⟩, [d], rest, by simp [Block.absorb, hd], rfl, by simp [hd],
          rfl, by simp⟩
      · exact ⟨b, [], d :: rest, by simp [Block.absorb, hd], rfl, by simp, hfree, by simp⟩

theorem Sound.live_zero (hsound : Sound region s blocks) : s.live 0 = none := by
  rw [Option.eq_none_iff_forall_ne_some]
  intro n hn
  obtain ⟨p, hp, haddr, -⟩ := (hsound.live_iff 0 n).mp hn
  unfold headerSize at haddr
  omega

/-- Freeing a block, with its merge. -/
theorem Sound.kfree (hsound : Sound region s (before ++ [b] ++ after)) {ptr : ℕ}
    (hptr : ptr = region.start + extent Block.size before + headerSize) :
    Sound region ⟨s.heap.kfree ptr, Function.update s.live ptr none⟩
        (before ++ Block.absorb ⟨b.size, none⟩ after) ∧
      ∀ q, q ≠ ptr → Keeps s ⟨s.heap.kfree ptr, Function.update s.live ptr none⟩ q := by
  subst hptr
  have hheap := hsound.heap_eq
  obtain ⟨m', hkfree, hrep⟩ := hsound.represents.kfree_eq
  rw [← hheap] at hkfree
  obtain ⟨c, absorbed, rest, habsorb, rfl, habsorbed, hfree, hsize⟩ :=
    exists_absorb ⟨b.size, none⟩ rfl after
  rw [habsorb] at hrep ⊢
  have hsound' : Sound region s (before ++ b :: absorbed ++ rest) := by simpa using hsound
  have hrep' : Represents m' region (before ++ [c] ++ rest) := by simpa using hrep
  rw [hkfree, List.append_cons]
  exact hsound'.release habsorbed hfree (by rw [hsize, extent_cons]) hrep'

theorem kfree_sound (hsound : Sound region s blocks) {ptr : ℕ}
    (hlive : ptr = 0 ∨ s.live ptr ≠ none) :
    ∃ blocks', Sound region ⟨s.heap.kfree ptr, Function.update s.live ptr none⟩ blocks' ∧
      ∀ q, q ≠ ptr → Keeps s ⟨s.heap.kfree ptr, Function.update s.live ptr none⟩ q := by
  by_cases hnull : ptr = 0
  · have hsame : Function.update s.live 0 none = s.live := by
      rw [← hsound.live_zero, Function.update_eq_self]
    rw [hnull, hsame]
    exact ⟨blocks, hsound, fun q _ n hn => ⟨hn, rfl⟩⟩
  · obtain ⟨n, hn⟩ := Option.ne_none_iff_exists'.mp (hlive.resolve_left hnull)
    obtain ⟨before, b, after, rfl, hptr, -⟩ := hsound.exists_block hn
    exact ⟨_, hsound.kfree hptr⟩

/-- A change that no header contains. -/
theorem update_sound (hsound : Sound region s blocks) {addr : ℕ} {byte : UInt8}
    (hheader : ∀ p ∈ place Block.size region.start blocks,
      addr < p.1 ∨ p.1 + headerSize ≤ addr) :
    Sound region ⟨{ s.heap with mem := Function.update s.heap.mem addr byte }, s.live⟩ blocks ∧
      ∀ q, Keeps s ⟨{ s.heap with mem := Function.update s.heap.mem addr byte }, s.live⟩ q := by
  have hsound' : Sound region
      ⟨{ s.heap with mem := Function.update s.heap.mem addr byte }, s.live⟩ blocks := by
    obtain ⟨hlist, ⟨hextent, hheaders, hroomy⟩, hlive⟩ := hsound
    refine ⟨hlist, ⟨hextent, ?_, hroomy⟩, hlive⟩
    intro p hp
    have haddr := hheader p hp
    exact (hheaders p hp).congr fun x hlo hhi => Function.update_of_ne (by omega) _ _
  refine ⟨hsound', ?_⟩
  intro q n hn
  obtain ⟨p, hp, rfl, -⟩ := (hsound.live_iff q n).mp hn
  refine ⟨hn, ?_⟩
  rw [Nat.add_sub_cancel, hsound.size_eq hp, hsound'.size_eq hp]

/-- The rest of memory is not the heap's. -/
theorem Sound.congr (hsound : Sound region s blocks)
    (hsame : ∀ x, region.start ≤ x → x < region.stop → m' x = s.heap.mem x) :
    Sound region ⟨{ s.heap with mem := m' }, s.live⟩ blocks := by
  obtain ⟨hlist, hrep, hlive⟩ := hsound
  refine ⟨hlist, ⟨hrep.extent_eq, fun p hp => ?_, hrep.roomy⟩, hlive⟩
  have hbounds := hrep.bounds hp
  exact (hrep.header p hp).congr fun x hlo hhi => hsame x (by omega) (by omega)

theorem payload_avoids_header (hsound : Sound region s blocks) {p q : ℕ × Block} {offset : ℕ}
    (hp : p ∈ place Block.size region.start blocks)
    (hq : q ∈ place Block.size region.start blocks) (hoffset : offset + headerSize < p.2.size) :
    p.1 + headerSize + offset < q.1 ∨ q.1 + headerSize ≤ p.1 + headerSize + offset := by
  have hroom := (hsound.represents.bounds hq).2.1
  rcases eq_or_disjoint_of_mem_place hp hq with rfl | hpq | hqp
  · omega
  · omega
  · omega

/-- The payload of a live pointer holds no header. -/
theorem Sound.write_avoids (hsound : Sound region s blocks) {offset : ℕ}
    (hlive : s.live ptr ≠ none) (hoffset : offset < capacity s.heap.mem ptr) :
    ∀ q ∈ place Block.size region.start blocks,
      ptr + offset < q.1 ∨ q.1 + headerSize ≤ ptr + offset := by
  obtain ⟨n, hn⟩ := Option.ne_none_iff_exists'.mp hlive
  obtain ⟨p, hp, rfl, -⟩ := (hsound.live_iff _ n).mp hn
  unfold capacity at hoffset
  rw [Nat.add_sub_cancel, hsound.size_eq hp] at hoffset
  exact fun q hq => payload_avoids_header hsound hp hq (by omega)

theorem Represents.outside_avoids (hrep : Represents m region blocks) {addr : ℕ}
    (houtside : addr < region.start ∨ region.stop ≤ addr) :
    ∀ q ∈ place Block.size region.start blocks, addr < q.1 ∨ q.1 + headerSize ≤ addr := by
  intro q hq
  have hbounds := hrep.bounds hq
  omega

theorem step_sound (hstep : Step region s op s') (hsound : Sound region s blocks) :
    ∃ blocks', Sound region s' blocks' ∧ ∀ q, op ≠ .kfree q → Keeps s s' q := by
  cases hstep with
  | kmalloc hsize hreturn =>
      obtain ⟨blocks', hsound', hkeeps⟩ := kmalloc_sound hsound hsize hreturn
      exact ⟨blocks', hsound', fun q _ => hkeeps q⟩
  | kfree hlive =>
      obtain ⟨blocks', hsound', hkeeps⟩ := kfree_sound hsound hlive
      refine ⟨blocks', hsound', fun q hq => hkeeps q ?_⟩
      rintro rfl
      exact hq rfl
  | @write ptr offset byte hlive hoffset =>
      obtain ⟨hsound', hkeeps⟩ := update_sound hsound (hsound.write_avoids hlive hoffset)
      exact ⟨blocks, hsound', fun q _ => hkeeps q⟩
  | @writeOutside addr byte houtside =>
      obtain ⟨hsound', hkeeps⟩ := update_sound hsound
        (hsound.represents.outside_avoids houtside)
      exact ⟨blocks, hsound', fun q _ => hkeeps q⟩

theorem run_sound (hrun : Run (Step region) s ops s') (hsound : Sound region s blocks) :
    ∃ blocks', Sound region s' blocks' ∧ ∀ q, .kfree q ∉ ops → Keeps s s' q := by
  induction hrun generalizing blocks with
  | nil s => exact ⟨blocks, hsound, fun q _ n hn => ⟨hn, rfl⟩⟩
  | cons hstep hrun ih =>
      obtain ⟨blocks', hsound', hkeeps⟩ := step_sound hstep hsound
      obtain ⟨blocks'', hsound'', hkeeps'⟩ := ih hsound'
      refine ⟨blocks'', hsound'', ?_⟩
      intro q hq n hn
      obtain ⟨hfirst, hrest⟩ := not_or.mp (mt List.mem_cons.mpr hq)
      obtain ⟨hlive, hsize⟩ := hkeeps q (Ne.symm hfirst) n hn
      obtain ⟨hlive', hsize'⟩ := hkeeps' q hrest n hlive
      exact ⟨hlive', hsize'.trans hsize⟩

/-! ## What the invariant says of the memory -/

/-- The list that starts at `block` consists of `blocks`. -/
def Chain (m : Memory) : ℕ → List ℕ → Prop
  | block, [] => block = 0
  | block, a :: rest => a ≠ 0 ∧ block = a ∧ Chain m (next m a) rest

/-- Each block starts where the one before it ends, from `x` up to `stop`. -/
def Tiles (m : Memory) (stop : ℕ) : ℕ → List ℕ → Prop
  | x, [] => x = stop
  | x, a :: rest => a = x ∧ headerSize ≤ size m a ∧ Tiles m stop (x + size m a) rest

/-- The heap in memory, seen through its headers only. -/
structure WellFormed (region : Region) (s : Usage) (blocks : List ℕ) : Prop where
  chain : Chain s.heap.mem s.heap.freeList blocks
  tiles : Tiles s.heap.mem region.stop region.start blocks
  live_block : ∀ ptr n, s.live ptr = some n →
    ptr - headerSize ∈ blocks ∧ isFree s.heap.mem (ptr - headerSize) = 0
  allocated_live : ∀ block ∈ blocks, isFree s.heap.mem block = 0 →
    s.live (block + headerSize) ≠ none
  large_enough : ∀ ptr n, s.live ptr = some n → n ≤ capacity s.heap.mem ptr
  inside : ∀ ptr n, s.live ptr = some n →
    region.start ≤ ptr ∧ ptr + capacity s.heap.mem ptr ≤ region.stop
  payloads_disjoint : ∀ ptr ptr' n n', s.live ptr = some n → s.live ptr' = some n' →
    ptr ≠ ptr' → ptr + capacity s.heap.mem ptr ≤ ptr' ∨ ptr' + capacity s.heap.mem ptr' ≤ ptr
  headers_disjoint : ∀ ptr n, s.live ptr = some n → ∀ block ∈ blocks,
    block + headerSize ≤ ptr ∨ ptr + capacity s.heap.mem ptr ≤ block

theorem chain_of_headers {a stop : ℕ} (hpos : 0 < a) (hstop : stop = a + extent Block.size blocks)
    (hroomy : ∀ b ∈ blocks, b.Roomy)
    (hheader : ∀ p ∈ place Block.size a blocks, HeaderAt m stop p.1 p.2) :
    Chain m (link stop a) ((place Block.size a blocks).map Prod.fst) ∧
      Tiles m stop a ((place Block.size a blocks).map Prod.fst) := by
  induction blocks generalizing a with
  | nil =>
      rw [extent_nil, Nat.add_zero] at hstop
      exact ⟨if_pos hstop.symm, hstop.symm⟩
  | cons b rest ih =>
      rw [extent_cons] at hstop
      have hroom := (hroomy b List.mem_cons_self).1
      obtain ⟨hsize, -, hnext⟩ := hheader (a, b) List.mem_cons_self
      dsimp only at hsize hnext
      obtain ⟨hchain, htiles⟩ := ih (show 0 < a + b.size by omega) (by omega)
        (fun c hc => hroomy c (List.mem_cons_of_mem _ hc))
        (fun p hp => hheader p (List.mem_cons_of_mem _ hp))
      have hlink : link stop a = a := by
        unfold headerSize at hroom
        exact if_neg (by omega)
      rw [place_cons, List.map_cons]
      exact ⟨⟨by omega, hlink, by rwa [hnext]⟩, rfl, by rwa [hsize], by rwa [hsize]⟩

theorem Sound.wellFormed (hsound : Sound region s blocks) :
    WellFormed region s ((place Block.size region.start blocks).map Prod.fst) := by
  have hrep := hsound.represents
  obtain ⟨hchain, htiles⟩ :=
    chain_of_headers region.start_pos hrep.stop_eq hrep.roomy hrep.header
  rw [region.link_start] at hchain
  -- The payload of an allocated block ends where the block does.
  have hblock : ∀ ptr n, s.live ptr = some n → ∃ p ∈ place Block.size region.start blocks,
      ptr = p.1 + headerSize ∧ p.2.owner = some n ∧ capacity s.heap.mem ptr + headerSize =
        p.2.size := by
    intro ptr n hn
    obtain ⟨p, hp, rfl, howner⟩ := (hsound.live_iff ptr n).mp hn
    have hroom := (hrep.bounds hp).2.1
    refine ⟨p, hp, rfl, howner, ?_⟩
    rw [capacity, Nat.add_sub_cancel, hsound.size_eq hp]
    omega
  refine ⟨by rwa [hsound.freeList_eq], htiles, ?_, ?_, ?_, ?_, ?_, ?_⟩
  · intro ptr n hn
    obtain ⟨p, hp, rfl, howner, -⟩ := hblock ptr n hn
    rw [Nat.add_sub_cancel]
    refine ⟨List.mem_map_of_mem hp, ?_⟩
    by_contra hfree
    have hnone := (hrep.header p hp).isFree_iff.mp hfree
    rw [howner] at hnone
    cases hnone
  · intro block hmem hused
    obtain ⟨p, hp, rfl⟩ := List.mem_map.mp hmem
    cases howner : p.2.owner with
    | none => exact absurd hused ((hrep.header p hp).isFree_iff.mpr howner)
    | some n =>
        rw [(hsound.live_iff _ n).mpr ⟨p, hp, rfl, howner⟩]
        simp
  · intro ptr n hn
    obtain ⟨p, hp, rfl, howner, hcapacity⟩ := hblock ptr n hn
    have hroom := (hrep.roomy _ (snd_mem_of_mem_place hp)).2 n howner
    omega
  · intro ptr n hn
    obtain ⟨p, hp, rfl, -, hcapacity⟩ := hblock ptr n hn
    have hbounds := hrep.bounds hp
    omega
  · intro ptr ptr' n n' hn hn' hne
    obtain ⟨p, hp, rfl, -, hcapacity⟩ := hblock ptr n hn
    obtain ⟨q, hq, rfl, -, hcapacity'⟩ := hblock ptr' n' hn'
    rcases eq_or_disjoint_of_mem_place hp hq with rfl | hpq | hqp
    · exact absurd rfl hne
    · omega
    · omega
  · intro ptr n hn block hmem
    obtain ⟨p, hp, rfl, -, hcapacity⟩ := hblock ptr n hn
    obtain ⟨q, hq, rfl⟩ := List.mem_map.mp hmem
    have hroom := (hrep.bounds hq).2.1
    rcases eq_or_disjoint_of_mem_place hp hq with rfl | hpq | hqp
    · exact Or.inl (le_refl _)
    · omega
    · omega

/-- `kmalloc` on a sound heap returns, and returns `NULL` exactly when no free
block is large enough. -/
theorem Sound.kmalloc_null_iff (hsound : Sound region s blocks) {size : ℕ}
    (hsize : size + 2 * headerSize < 2 ^ 64) :
    ∃ ptr heap, s.heap.kmalloc size = some (ptr, heap) ∧ (ptr = 0 → heap = s.heap) ∧
      (ptr = 0 ↔ ∀ block ∈ (place Block.size region.start blocks).map Prod.fst,
        isFree s.heap.mem block ≠ 0 → Kheap.size s.heap.mem block < size + headerSize) := by
  have hrep := hsound.represents
  have hheap := hsound.heap_eq
  have hfits : ∀ p ∈ place Block.size region.start blocks,
      (isFree s.heap.mem p.1 ≠ 0 → Kheap.size s.heap.mem p.1 < size + headerSize) ↔
        ¬ p.2.Fits (size + headerSize) := by
    intro p hp
    rw [← (hrep.header p hp).fits_iff, not_and, not_le]
  rcases hrep.kmalloc_eq hsize with ⟨hnull, hnone⟩ | ⟨before, b, after, rfl, hfit, htake⟩
  · rw [← hheap] at hnull
    refine ⟨0, s.heap, hnull, fun _ => rfl, iff_of_true rfl ?_⟩
    intro block hmem
    obtain ⟨p, hp, rfl⟩ := List.mem_map.mp hmem
    exact (hfits p hp).mpr (hnone _ (snd_mem_of_mem_place hp))
  · rw [← hheap] at htake
    have hmem : (region.start + extent Block.size before, b) ∈
        place Block.size region.start (before ++ [b] ++ after) := mem_place_split b before after
    refine ⟨_, _, htake, fun hzero => ?_, iff_of_false ?_ ?_⟩
    · unfold headerSize at hzero
      omega
    · unfold headerSize
      omega
    · intro hall
      exact (hfits _ hmem).mp (hall _ (List.mem_map_of_mem hmem)) hfit

theorem Chain.unique {block : ℕ} {starts starts' : List ℕ} (hchain : Chain m block starts)
    (hchain' : Chain m block starts') : starts = starts' := by
  induction starts generalizing block starts' with
  | nil =>
      cases starts' with
      | nil => rfl
      | cons a rest =>
          obtain ⟨hne, rfl, -⟩ := hchain'
          exact absurd hchain hne
  | cons a rest ih =>
      obtain ⟨hne, rfl, htail⟩ := hchain
      cases starts' with
      | nil => exact absurd hchain' hne
      | cons a' rest' =>
          obtain ⟨-, rfl, htail'⟩ := hchain'
          rw [ih htail htail']

/-- A free block of the list has room for `n` bytes. -/
def HasRoom (heap : Kheap) (n : ℕ) : Prop :=
  ∃ starts, Chain heap.mem heap.freeList starts ∧
    ∃ block ∈ starts, isFree heap.mem block ≠ 0 ∧ n + headerSize ≤ size heap.mem block

/-- What holds of a header in the list holds of a block. -/
theorem Sound.exists_block_iff (hsound : Sound region s blocks) {P : ℕ → Prop} {Q : Block → Prop}
    (hiff : ∀ p ∈ place Block.size region.start blocks, P p.1 ↔ Q p.2) :
    (∃ starts, Chain s.heap.mem s.heap.freeList starts ∧ ∃ block ∈ starts, P block) ↔
      ∃ b ∈ blocks, Q b := by
  constructor
  · rintro ⟨starts, hchain, block, hmem, hblock⟩
    rw [hchain.unique hsound.wellFormed.chain] at hmem
    obtain ⟨p, hp, rfl⟩ := List.mem_map.mp hmem
    exact ⟨p.2, snd_mem_of_mem_place hp, (hiff p hp).mp hblock⟩
  · rintro ⟨b, hb, hblock⟩
    obtain ⟨before, after, rfl⟩ := List.append_of_mem hb
    have hp : (region.start + extent Block.size before, b) ∈
        place Block.size region.start (before ++ b :: after) := by
      rw [List.append_cons]
      exact mem_place_split b before after
    exact ⟨_, hsound.wellFormed.chain, _, List.mem_map_of_mem hp, (hiff _ hp).mpr hblock⟩

theorem Sound.hasRoom_iff (hsound : Sound region s blocks) :
    HasRoom s.heap n ↔ ∃ b ∈ blocks, b.Fits (n + headerSize) :=
  hsound.exists_block_iff fun p hp => (hsound.represents.header p hp).fits_iff

theorem Sound.hasRoom_congr (hsound : Sound region s blocks)
    (hsame : ∀ x, region.start ≤ x → x < region.stop → m' x = s.heap.mem x) :
    HasRoom { s.heap with mem := m' } n ↔ HasRoom s.heap n :=
  (hsound.congr hsame).hasRoom_iff.trans hsound.hasRoom_iff.symm

/-- `kmalloc` finds room when there is some. -/
theorem Sound.kmalloc_room (hsound : Sound region s blocks) {size : ℕ}
    (hsize : size + 2 * headerSize < 2 ^ 64) :
    ∃ ptr heap, s.heap.kmalloc size = some (ptr, heap) ∧ (ptr ≠ 0 ↔ HasRoom s.heap size) := by
  have hheap := hsound.heap_eq
  rw [hsound.hasRoom_iff]
  rcases hsound.represents.kmalloc_eq hsize with ⟨hnull, hnone⟩ |
    ⟨before, b, after, rfl, hfits, htake⟩
  · rw [← hheap] at hnull
    refine ⟨0, s.heap, hnull, iff_of_false (absurd rfl) ?_⟩
    rintro ⟨b, hb, hfits⟩
    exact hnone b hb hfits
  · rw [← hheap] at htake
    refine ⟨_, _, htake, iff_of_true ?_ ⟨b, by simp, hfits⟩⟩
    unfold headerSize
    omega

/-- A successful allocation lies in the region, and so does all it changes. -/
theorem Sound.kmalloc_inside (hsound : Sound region s blocks) {size ptr : ℕ} {heap : Kheap}
    (hsize : size + 2 * headerSize < 2 ^ 64) (hreturn : s.heap.kmalloc size = some (ptr, heap))
    (hne : ptr ≠ 0) :
    region.start ≤ ptr ∧ ptr + size ≤ region.stop ∧
      ∀ x, x < region.start ∨ region.stop ≤ x → heap.mem x = s.heap.mem x := by
  obtain ⟨blocks', hsound', -⟩ := kmalloc_sound hsound hsize hreturn
  rw [if_neg hne] at hsound'
  have hlive := Function.update_self ptr (some size) s.live
  have hroom := hsound'.wellFormed.large_enough ptr size hlive
  obtain ⟨hlo, hhi⟩ := hsound'.wellFormed.inside ptr size hlive
  refine ⟨hlo, by omega, ?_⟩
  intro x hx
  have hheap := hsound.heap_eq
  rw [hheap] at hreturn
  rcases hsound.represents.kmalloc_eq hsize with ⟨hnull, -⟩ | ⟨before, b, after, rfl, -, htake⟩
  · rw [hnull, Option.some.injEq, Prod.mk.injEq] at hreturn
    exact absurd hreturn.1.symm hne
  · rw [htake, Option.some.injEq, Prod.mk.injEq] at hreturn
    obtain ⟨-, rfl⟩ := hreturn
    have hmem : (region.start + extent Block.size before, b) ∈
        place Block.size region.start (before ++ [b] ++ after) := mem_place_split b before after
    have hbounds := hsound.represents.bounds hmem
    have hstop := region.stop_lt
    exact takeBlock_outside (hsound.size_eq hmem) hbounds.2.1 (by omega) (by omega) (by omega)

/-! ## Runs -/

/-- The first allocation from a fresh heap takes the start of the region. -/
theorem start_kmalloc (region : Region) (mem : Memory) {size : ℕ}
    (hsize : size + 2 * headerSize < 2 ^ 64) (hfits : size + headerSize ≤ region.total) :
    (Usage.start region mem).heap.kmalloc size = some (region.start + headerSize,
      ⟨takeBlock (Usage.start region mem).heap.mem region.start (size + headerSize),
        region.start⟩) := by
  have hsound := start_sound region mem
  have hrep := hsound.represents
  have hheap := hsound.heap_eq
  rcases hrep.kmalloc_eq hsize with ⟨-, hnone⟩ | ⟨before, b, after, hblocks, -, htake⟩
  · exact absurd ⟨rfl, hfits⟩ (hnone _ List.mem_cons_self)
  · have hlength := congrArg List.length hblocks
    simp only [List.length_append, List.length_cons, List.length_nil] at hlength
    have hbefore : before = [] := List.eq_nil_of_length_eq_zero (by omega)
    rw [hbefore, extent_nil, Nat.add_zero, ← hheap] at htake
    exact htake

/-- The region `_start` hands to the heap. -/
def kernelRegion : Region :=
  { start := 0xFFFF900000000000, total := 16 * 1024 * 1024, start_pos := by decide,
    header_le := by decide, fits := by decide }

/-- Any run leaves a well-formed heap in which `kmalloc` fails only for want of a
large enough free block, and no later run moves or resizes a live block before
it is freed. -/
theorem run_wellFormed (region : Region) (mem : Memory)
    (hrun : Run (Step region) (.start region mem) ops s) :
    ∃ blocks, WellFormed region s blocks ∧
      (∀ size, size + 2 * headerSize < 2 ^ 64 →
        ∃ ptr heap, s.heap.kmalloc size = some (ptr, heap) ∧ (ptr = 0 → heap = s.heap) ∧
          (ptr = 0 ↔ ∀ block ∈ blocks, isFree s.heap.mem block ≠ 0 →
            Kheap.size s.heap.mem block < size + headerSize)) ∧
      ∀ later s', Run (Step region) s later s' → ∀ ptr, .kfree ptr ∉ later → Keeps s s' ptr := by
  obtain ⟨blocks, hsound, -⟩ := run_sound hrun (start_sound region mem)
  refine ⟨_, hsound.wellFormed, fun size hsize => hsound.kmalloc_null_iff hsize, ?_⟩
  intro later s' hlater ptr hptr
  obtain ⟨_, -, hkeeps⟩ := run_sound hlater hsound
  exact hkeeps ptr hptr

theorem kernelRegion_wellFormed : ∃ s blocks,
    Run (Step kernelRegion) (.start kernelRegion fun _ => 0)
      [.kmalloc 100, .write 0xFFFF900000000018 99 7, .kfree 0xFFFF900000000018] s ∧
    WellFormed kernelRegion s blocks := by
  have hptr : kernelRegion.start + headerSize = 0xFFFF900000000018 := by decide
  have hreturn := start_kmalloc kernelRegion (fun _ => 0)
    (show 100 + 2 * headerSize < 2 ^ 64 by decide) (by decide)
  have hmalloc : Step kernelRegion (.start kernelRegion fun _ => 0) (.kmalloc 100) _ :=
    .kmalloc (by decide) hreturn
  rw [hptr, if_neg (by decide)] at hmalloc
  have hlive := Function.update_self (0xFFFF900000000018 : ℕ) (some 100)
    (Usage.start kernelRegion fun _ => 0).live
  have hheld : Function.update (Usage.start kernelRegion fun _ => 0).live
      (0xFFFF900000000018 : ℕ) (some 100) 0xFFFF900000000018 ≠ none := by
    rw [hlive]
    simp
  obtain ⟨_, hsound, -⟩ := step_sound hmalloc (start_sound kernelRegion fun _ => 0)
  have hroom := hsound.wellFormed.large_enough 0xFFFF900000000018 100 hlive
  have hrun : Run (Step kernelRegion) _
      [_, .write 0xFFFF900000000018 99 7, .kfree 0xFFFF900000000018] _ :=
    .cons hmalloc (.cons (.write hheld hroom) (.cons (.kfree (Or.inr hheld)) (.nil _)))
  obtain ⟨blocks, hformed, -⟩ := run_wellFormed kernelRegion (fun _ => 0) hrun
  exact ⟨_, blocks, hrun, hformed⟩

end BadOS.Kernel.Kheap
