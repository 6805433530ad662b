import BadOS.Kernel.HeapRequests

/-! # Freeing everything

`kfree` absorbs the block behind the freed one, never the block before it. A block
freed behind a free block leaves a seam between two free blocks, which only a later
`kfree` of the block before the seam closes.
-/

namespace BadOS.Kernel.Kheap

open Tiling Execution

/-- The heap has a block for the request. -/
def Satisfies (heap : Kheap) (size : ℕ) : Prop :=
  ∃ ptr heap', heap.kmalloc size = some (ptr, heap') ∧ ptr ≠ 0

/-- Freeing `ptr` frees the block at `x` right behind a free block. -/
def Opens (s : Usage) (ptr x : ℕ) : Prop :=
  s.live ptr ≠ none ∧ ptr = x + headerSize ∧ ∃ starts, Chain s.heap.mem s.heap.freeList starts ∧
    ∃ a ∈ starts, isFree s.heap.mem a ≠ 0 ∧ next s.heap.mem a = x

/-- Freeing `ptr` absorbs the free block at `x`. -/
def Closes (s : Usage) (ptr x : ℕ) : Prop :=
  s.live ptr ≠ none ∧ x ≠ 0 ∧ next s.heap.mem (ptr - headerSize) = x ∧ isFree s.heap.mem x ≠ 0

/-- A step that does not close the seam at `x`. -/
def SeamStep (region : Region) (x : ℕ) (s : Usage) (op : Operation) (s' : Usage) : Prop :=
  AnswerableStep region s op s' ∧ ∀ ptr, op = .kfree ptr → ¬ Closes s ptr x

/-- The run opens a seam at `x` and does not close it afterwards. -/
def LeavesSeam (region : Region) (s : Usage) (ops : List Operation) (s' : Usage) (x : ℕ) : Prop :=
  ∃ before ptr after s₁ s₂, ops = before ++ .kfree ptr :: after ∧
    Run (AnswerableStep region) s before s₁ ∧ AnswerableStep region s₁ (.kfree ptr) s₂ ∧
    Opens s₁ ptr x ∧ Run (SeamStep region x) s₂ after s'

variable {region : Region} {s s' : Usage} {blocks blocks' before after : List Block} {b : Block}
variable {op : Operation} {ops : List Operation} {x : ℕ}

/-! ## What a step does to the blocks -/

/-- The blocks before and after an operation. -/
inductive Rearranges (region : Region) : Operation → List Block → List Block → Prop
  | same {op : Operation} (blocks : List Block) (hidle : ∀ ptr, op = .kfree ptr → ptr = 0) :
      Rearranges region op blocks blocks
  | take (before : List Block) (b : Block) (after : List Block) {size : ℕ}
      (hfits : b.Fits (size + headerSize)) :
      Rearranges region (.kmalloc size) (before ++ [b] ++ after)
        (before ++ b.taken (size + headerSize) size ++ after)
  | release (before : List Block) (b : Block) (after : List Block) (howner : b.owner ≠ none) :
      Rearranges region (.kfree (region.start + extent Block.size before + headerSize))
        (before ++ [b] ++ after) (before ++ Block.absorb ⟨b.size, none⟩ after)

theorem step_rearranges (hstart : headerSize ≤ region.start)
    (hstep : AnswerableStep region s op s') (hsound : Sound region s blocks) :
    ∃ blocks', Represents s'.heap.mem region blocks' ∧ Rearranges region op blocks blocks' := by
  have hheap := hsound.heap_eq
  have hrep := hsound.represents
  obtain ⟨hwide, hadmits⟩ := hstep
  cases hwide with
  | @kmalloc size ptr heap hsize hreturn =>
      have hsame (hnull : s.heap.kmalloc size = some (0, s.heap)) :
          ∃ blocks', Represents heap.mem region blocks' ∧
            Rearranges region (.kmalloc size) blocks blocks' := by
        rw [hnull, Option.some.injEq, Prod.mk.injEq] at hreturn
        rw [← hreturn.2]
        exact ⟨blocks, hrep, .same blocks fun ptr hptr => by cases hptr⟩
      rcases hsound.null_or_small hstart (hadmits size rfl) with hnull | hsmall
      · exact hsame hnull
      · rcases hrep.kmalloc_eq hsmall with ⟨hnull, -⟩ | ⟨before, b, after, rfl, hfits, htake⟩
        · rw [← hheap] at hnull
          exact hsame hnull
        · rw [← hheap, hreturn, Option.some.injEq, Prod.mk.injEq] at htake
          rw [htake.2]
          exact ⟨_, hrep.takeBlock hfits hsmall, .take before b after hfits⟩
  | other hother hstep =>
      cases hstep with
      | kmalloc => exact absurd rfl (hother _)
      | @kfree ptr hlive =>
          by_cases hnull : ptr = 0
          · rw [hnull]
            refine ⟨blocks, hrep, .same blocks ?_⟩
            intro q hq
            cases hq
            rfl
          · obtain ⟨n, hn⟩ := Option.ne_none_iff_exists'.mp (hlive.resolve_left hnull)
            obtain ⟨before, b, after, rfl, rfl, howner⟩ := hsound.exists_block hn
            obtain ⟨m', hkfree, hrep'⟩ := hrep.kfree_eq
            rw [← hheap] at hkfree
            rw [hkfree]
            exact ⟨_, hrep', .release before b after (by simp [howner])⟩
      | write hlive hoffset =>
          obtain ⟨hsound', -⟩ := update_sound hsound (hsound.write_avoids hlive hoffset)
          exact ⟨blocks, hsound'.represents, .same blocks fun ptr hptr => by cases hptr⟩
      | writeOutside houtside =>
          obtain ⟨hsound', -⟩ := update_sound hsound (hrep.outside_avoids houtside)
          exact ⟨blocks, hsound'.represents, .same blocks fun ptr hptr => by cases hptr⟩

/-! ## Seams -/

/-- A block starts at `x`. -/
def Starts (region : Region) (blocks : List Block) (x : ℕ) : Prop :=
  ∃ p ∈ place Block.size region.start blocks, p.1 = x

/-- A free block ends at `x`, and a free block starts there. -/
def Seam (region : Region) (blocks : List Block) (x : ℕ) : Prop :=
  ∃ p ∈ place Block.size region.start blocks, ∃ q ∈ place Block.size region.start blocks,
    p.1 + p.2.size = x ∧ q.1 = x ∧ p.2.owner = none ∧ q.2.owner = none

theorem Sound.middle_mem (hsound : Sound region s (before ++ [b] ++ after)) :
    (region.start + extent Block.size before, b) ∈
      place Block.size region.start (before ++ [b] ++ after) ∧ headerSize ≤ b.size :=
  ⟨mem_place_split b before after, (hsound.represents.roomy b (by simp)).1⟩

theorem Sound.live_middle (hsound : Sound region s (before ++ [b] ++ after))
    (howner : b.owner ≠ none) :
    s.live (region.start + extent Block.size before + headerSize) ≠ none := by
  obtain ⟨n, hn⟩ := Option.ne_none_iff_exists'.mp howner
  rw [(hsound.live_iff _ n).mpr ⟨_, hsound.middle_mem.1, rfl, hn⟩]
  simp

/-- The link of a block that another one follows. -/
theorem Sound.next_eq {p q : ℕ × Block} (hsound : Sound region s blocks)
    (hp : p ∈ place Block.size region.start blocks)
    (hq : q ∈ place Block.size region.start blocks) (hend : p.1 + p.2.size = q.1) :
    next s.heap.mem p.1 = q.1 := by
  have hbounds := hsound.represents.bounds hq
  unfold headerSize at hbounds
  rw [(hsound.represents.header p hp).next_eq, hend]
  exact if_neg (by omega)

theorem Sound.opens {p : ℕ × Block} (hsound : Sound region s (before ++ [b] ++ after))
    (howner : b.owner ≠ none) (hp : p ∈ place Block.size region.start before)
    (hend : p.1 + p.2.size = region.start + extent Block.size before) (hfree : p.2.owner = none) :
    Opens s (region.start + extent Block.size before + headerSize)
      (region.start + extent Block.size before) := by
  have hmem : p ∈ place Block.size region.start (before ++ [b] ++ after) :=
    mem_place_middle.mpr (Or.inl hp)
  exact ⟨hsound.live_middle howner, rfl, _, hsound.wellFormed.chain, p.1, List.mem_map_of_mem hmem,
    (hsound.represents.header p hmem).isFree_iff.mpr hfree,
    hsound.next_eq hmem hsound.middle_mem.1 hend⟩

theorem Sound.closes {c : Block} (hsound : Sound region s (before ++ [b] ++ c :: after))
    (howner : b.owner ≠ none) (hfree : c.owner = none) :
    Closes s (region.start + extent Block.size before + headerSize)
      (region.start + extent Block.size before + b.size) := by
  have hmem : (region.start + extent Block.size before + b.size, c) ∈
      place Block.size region.start (before ++ [b] ++ c :: after) :=
    mem_place_middle.mpr (Or.inr (Or.inr (by simp)))
  have hbounds := hsound.represents.bounds hmem
  have hpos := region.start_pos
  dsimp only at hbounds
  have hnext := hsound.next_eq hsound.middle_mem.1 hmem rfl
  refine ⟨hsound.live_middle howner, by omega, ?_,
    (hsound.represents.header _ hmem).isFree_iff.mpr hfree⟩
  rwa [Nat.add_sub_cancel]

theorem Sound.closes_end (hsound : Sound region s (before ++ [b] ++ after))
    (hcloses : Closes s (region.start + extent Block.size before + headerSize) x) :
    x = region.start + extent Block.size before + b.size := by
  obtain ⟨-, hne, hnext, -⟩ := hcloses
  rw [Nat.add_sub_cancel, (hsound.represents.header _ hsound.middle_mem.1).next_eq, link] at hnext
  split at hnext
  · exact absurd hnext.symm hne
  · exact hnext.symm

theorem Sound.not_closes_same (hsound : Sound region s blocks)
    (hidle : ∀ ptr, op = .kfree ptr → ptr = 0) : ∀ ptr, op = .kfree ptr → ¬ Closes s ptr x := by
  intro ptr hop hcloses
  rw [hidle ptr hop] at hcloses
  exact hcloses.1 hsound.live_zero

/-- Replacing a stretch of blocks keeps the starts outside it. -/
theorem Starts.replace {middle middle' : List Block}
    (hx : Starts region (before ++ middle ++ after) x)
    (hextent : extent Block.size middle' = extent Block.size middle)
    (hmiddle : ∀ p ∈ place Block.size (region.start + extent Block.size before) middle, p.1 = x →
      ∃ q ∈ place Block.size (region.start + extent Block.size before) middle', q.1 = x) :
    Starts region (before ++ middle' ++ after) x := by
  obtain ⟨p, hp, hpx⟩ := hx
  rcases mem_place_middle.mp hp with hbefore | hin | hafter
  · exact ⟨p, mem_place_middle.mpr (Or.inl hbefore), hpx⟩
  · obtain ⟨q, hq, hqx⟩ := hmiddle p hin hpx
    exact ⟨q, mem_place_middle.mpr (Or.inr (Or.inl hq)), hqx⟩
  · rw [← hextent] at hafter
    exact ⟨p, mem_place_middle.mpr (Or.inr (Or.inr hafter)), hpx⟩

/-- Blocks only disappear into the one before them. -/
theorem Sound.starts_step (hsound : Sound region s blocks)
    (hblocks : Rearranges region op blocks blocks')
    (hopen : ∀ ptr, op = .kfree ptr → ¬ Closes s ptr x) (hx : Starts region blocks x) :
    Starts region blocks' x := by
  cases hblocks with
  | same => exact hx
  | @take before b after size hfits =>
      apply hx.replace
      · rw [extent_taken _ hfits.2]
        simp
      · simp only [place_cons, place_nil, List.mem_singleton, forall_eq]
        rintro rfl
        obtain ⟨q, hq, hqx, -⟩ := ((taken_owner (size + headerSize) size
          (region.start + extent Block.size before) b).2 size).mpr rfl
        exact ⟨q, hq, hqx⟩
  | release before b after howner =>
      have hkept (hx : Starts region (before ++ [b] ++ after) x) :
          Starts region (before ++ [⟨b.size, none⟩] ++ after) x := by
        apply hx.replace
        · simp
        · simp
      cases after with
      | nil => simpa [Block.absorb] using hkept hx
      | cons c rest =>
          -- A free block behind the freed one is absorbed: no block starts there then.
          by_cases hfree : c.owner = none
          · have hne : x ≠ region.start + extent Block.size before + b.size := by
              rintro rfl
              exact hopen _ rfl (hsound.closes howner hfree)
            have hpair : Starts region (before ++ [b, c] ++ rest) x := by simpa using hx
            rw [Block.absorb, if_pos hfree, List.append_cons]
            apply hpair.replace
            · simp
            · simp only [place_cons, place_nil, List.mem_cons, List.not_mem_nil, or_false,
                forall_eq_or_imp, forall_eq, exists_eq_left]
              exact ⟨id, fun hx => absurd hx.symm hne⟩
          · rw [Block.absorb, if_neg hfree]
            simpa using hkept hx

/-- Where the two blocks at a seam lie when a stretch of blocks is singled out. -/
theorem Seam.middle_cases {middle : List Block} (hx : Seam region (before ++ middle ++ after) x)
    (hpos : ∀ b ∈ before ++ middle ++ after, 0 < b.size) (hmiddle : 0 < extent Block.size middle) :
    ∃ p q : ℕ × Block, p.1 + p.2.size = x ∧ q.1 = x ∧ p.2.owner = none ∧ q.2.owner = none ∧
      ((p ∈ place Block.size region.start before ∧ q ∈ place Block.size region.start before) ∨
        (p ∈ place Block.size region.start before ∧
          q ∈ place Block.size (region.start + extent Block.size before) middle) ∨
        (p ∈ place Block.size (region.start + extent Block.size before) middle ∧
          q ∈ place Block.size (region.start + extent Block.size before) middle) ∨
        (p ∈ place Block.size (region.start + extent Block.size before) middle ∧
          q ∈ place Block.size
            (region.start + extent Block.size before + extent Block.size middle) after) ∨
        (p ∈ place Block.size
            (region.start + extent Block.size before + extent Block.size middle) after ∧
          q ∈ place Block.size
            (region.start + extent Block.size before + extent Block.size middle) after)) := by
  obtain ⟨p, hp, q, hq, hend, hstart, hfree⟩ := hx
  have hp' := hpos p.2 (snd_mem_of_mem_place hp)
  have hq' := hpos q.2 (snd_mem_of_mem_place hq)
  refine ⟨p, q, hend, hstart, hfree.1, hfree.2, ?_⟩
  rcases mem_place_middle.mp hp with hp | hp | hp
  all_goals have hpb := mem_place_bounds hp
  all_goals rcases mem_place_middle.mp hq with hq | hq | hq
  all_goals have hqb := mem_place_bounds hq
  · exact Or.inl ⟨hp, hq⟩
  · exact Or.inr (Or.inl ⟨hp, hq⟩)
  · omega
  · omega
  · exact Or.inr (Or.inr (Or.inl ⟨hp, hq⟩))
  · exact Or.inr (Or.inr (Or.inr (Or.inl ⟨hp, hq⟩)))
  · omega
  · omega
  · exact Or.inr (Or.inr (Or.inr (Or.inr ⟨hp, hq⟩)))

/-- The free block of a split is the one behind the total. -/
theorem taken_free {total n a : ℕ} {p : ℕ × Block} (hle : total ≤ b.size)
    (hp : p ∈ place Block.size a (b.taken total n)) (hfree : p.2.owner = none) :
    p.1 = a + total ∧ p.1 + p.2.size = a + b.size := by
  unfold Block.taken at hp
  split at hp
  · simp only [place_cons, place_nil, List.mem_cons, List.not_mem_nil, or_false] at hp
    rcases hp with rfl | rfl
    · cases hfree
    · exact ⟨rfl, by dsimp only; omega⟩
  · simp only [place_cons, place_nil, List.mem_singleton] at hp
    rw [hp] at hfree
    cases hfree

theorem Sound.seam_take {n total : ℕ} (hsound : Sound region s (before ++ [b] ++ after))
    (hfits : b.Fits total) (htotal : 0 < total)
    (hpos : ∀ c ∈ before ++ b.taken total n ++ after, 0 < c.size)
    (hx : Seam region (before ++ b.taken total n ++ after) x) :
    Seam region (before ++ [b] ++ after) x := by
  have hextent := extent_taken n hfits.2
  have hle := hfits.2
  obtain ⟨p, q, hend, hstart, hfree, hfree', hwhere⟩ := hx.middle_cases hpos (by omega)
  have hq' : q.2 ∈ before ++ b.taken total n ++ after → 0 < q.2.size := hpos q.2
  rw [hextent] at hwhere
  have hextentOld : extent Block.size [b] = b.size := by simp
  rcases hwhere with ⟨hp, hq⟩ | ⟨hp, hq⟩ | ⟨hp, hq⟩ | ⟨hp, hq⟩ | ⟨hp, hq⟩
  · exact ⟨p, mem_place_middle.mpr (Or.inl hp), q, mem_place_middle.mpr (Or.inl hq), hend, hstart,
      hfree, hfree'⟩
  · have hpb := mem_place_bounds hp
    have hqb := taken_free hle hq hfree'
    omega
  · have hpb := taken_free hle hp hfree
    have hqb := taken_free hle hq hfree'
    have := hq' (by simp [snd_mem_of_mem_place hq])
    omega
  · have hpb := taken_free hle hp hfree
    refine ⟨_, hsound.middle_mem.1, q, mem_place_middle.mpr (Or.inr (Or.inr ?_)),
      hpb.2.symm.trans hend, hstart, hfits.1, hfree'⟩
    rwa [hextentOld]
  · rw [← hextentOld] at hp hq
    exact ⟨p, mem_place_middle.mpr (Or.inr (Or.inr hp)), q,
      mem_place_middle.mpr (Or.inr (Or.inr hq)), hend, hstart, hfree, hfree'⟩

/-- A free block in place of a used one and what it absorbs makes no seam but the one
before it, unless there was one at its end. -/
theorem Sound.seam_release {c : Block} {absorbed : List Block}
    (hsound : Sound region s (before ++ b :: absorbed ++ after)) (howner : b.owner ≠ none)
    (hsize : c.size = b.size + extent Block.size absorbed)
    (hlast : ∀ q ∈ place Block.size (region.start + extent Block.size before + c.size) after,
      q.1 = region.start + extent Block.size before + c.size → q.2.owner = none →
        Seam region (before ++ b :: absorbed ++ after) q.1 ∧ b.size < c.size)
    (hx : Seam region (before ++ [c] ++ after) x) :
    (Seam region (before ++ b :: absorbed ++ after) x ∧
        x ≠ region.start + extent Block.size before + b.size) ∨
      Opens s (region.start + extent Block.size before + headerSize) x := by
  have hpos := hsound.represents.size_pos
  have hb := hpos b (by simp)
  have hpos' : ∀ d ∈ before ++ [c] ++ after, 0 < d.size := by
    intro d hd
    simp only [List.mem_append, List.mem_singleton] at hd
    rcases hd with (hd | rfl) | hd
    · exact hpos d (by simp [hd])
    · omega
    · exact hpos d (by simp [hd])
  have hextent : extent Block.size (b :: absorbed) = c.size := by rw [extent_cons, hsize]
  obtain ⟨p, q, hend, hstart, hpfree, hqfree, hwhere⟩ :=
    hx.middle_cases hpos' (by simp only [extent_cons, extent_nil]; omega)
  simp only [place_cons, place_nil, List.mem_singleton, extent_cons, extent_nil,
    Nat.add_zero] at hwhere
  -- Both blocks before, the new one second, the new one twice, the new one first, both after.
  rcases hwhere with ⟨hp, hq⟩ | ⟨hp, rfl⟩ | ⟨rfl, rfl⟩ | ⟨rfl, hq⟩ | ⟨hp, hq⟩
  · have hqb := mem_place_bounds hq
    have hq' := hpos q.2 (by simp [snd_mem_of_mem_place hq])
    exact Or.inl ⟨⟨p, mem_place_middle.mpr (Or.inl hp), q, mem_place_middle.mpr (Or.inl hq), hend,
      hstart, hpfree, hqfree⟩, by omega⟩
  · dsimp only at hstart
    rw [← hstart] at hend ⊢
    have hsplit : Sound region s (before ++ [b] ++ (absorbed ++ after)) := by simpa using hsound
    exact Or.inr (hsplit.opens howner hp hend hpfree)
  · dsimp only at hend hstart
    omega
  · dsimp only at hend
    obtain ⟨hseam, hless⟩ := hlast q hq (hstart.trans hend.symm) hqfree
    rw [hstart] at hseam
    exact Or.inl ⟨hseam, by omega⟩
  · have hpb := mem_place_bounds hp
    have hp' := hpos p.2 (by simp [snd_mem_of_mem_place hp])
    rw [← hextent] at hp hq
    exact Or.inl ⟨⟨p, mem_place_middle.mpr (Or.inr (Or.inr hp)), q,
      mem_place_middle.mpr (Or.inr (Or.inr hq)), hend, hstart, hpfree, hqfree⟩, by omega⟩

theorem Sound.seam_merge {c : Block} (hsound : Sound region s (before ++ [b] ++ c :: after))
    (howner : b.owner ≠ none) (hfree : c.owner = none)
    (hx : Seam region (before ++ [⟨b.size + c.size, none⟩] ++ after) x) :
    (Seam region (before ++ [b] ++ c :: after) x ∧
        x ≠ region.start + extent Block.size before + b.size) ∨
      Opens s (region.start + extent Block.size before + headerSize) x := by
  have hlist : before ++ [b] ++ c :: after = before ++ [b, c] ++ after := by simp
  have hc := hsound.represents.size_pos c (by simp)
  rw [hlist] at hsound ⊢
  refine hsound.seam_release howner (by simp) ?_ hx
  intro q hq hstart hqfree
  dsimp only at hstart
  refine ⟨⟨(region.start + extent Block.size before + b.size, c), ?_, q, ?_, ?_, rfl, hfree,
    hqfree⟩, by dsimp only; omega⟩
  · exact mem_place_middle.mpr (Or.inr (Or.inl (by simp)))
  · refine mem_place_middle.mpr (Or.inr (Or.inr ?_))
    simpa using hq
  · dsimp only
    omega

theorem Sound.seam_keep (hsound : Sound region s (before ++ [b] ++ after))
    (howner : b.owner ≠ none) (hused : ∀ c rest, after = c :: rest → c.owner ≠ none)
    (hx : Seam region (before ++ [⟨b.size, none⟩] ++ after) x) :
    (Seam region (before ++ [b] ++ after) x ∧
        x ≠ region.start + extent Block.size before + b.size) ∨
      Opens s (region.start + extent Block.size before + headerSize) x := by
  refine hsound.seam_release howner (by simp) ?_ hx
  intro q hq hstart hqfree
  -- A block at the end of `b` is the first behind it.
  cases after with
  | nil => simp at hq
  | cons c rest =>
      rw [place_cons, List.mem_cons] at hq
      rcases hq with rfl | hq
      · exact absurd hqfree (hused c rest rfl)
      · have hqb := mem_place_bounds hq
        have hc := hsound.represents.size_pos c (by simp)
        omega

/-- A seam after a step was there before and is not closed, or is opened. -/
theorem Sound.seam_step (hsound : Sound region s blocks) {m : Memory}
    (hrep : Represents m region blocks') (hblocks : Rearranges region op blocks blocks')
    (hx : Seam region blocks' x) :
    (Seam region blocks x ∧ ∀ ptr, op = .kfree ptr → ¬ Closes s ptr x) ∨
      ∃ ptr, op = .kfree ptr ∧ Opens s ptr x := by
  cases hblocks with
  | same _ hidle => exact Or.inl ⟨hx, hsound.not_closes_same hidle⟩
  | take before b after hfits =>
      refine Or.inl ⟨hsound.seam_take hfits ?_ hrep.size_pos hx, fun ptr hptr => by cases hptr⟩
      unfold headerSize
      omega
  | release before b after howner =>
      -- The freed block is the last one, or the one behind it is free, or in use.
      have hcases : (Seam region (before ++ [b] ++ after) x ∧
            x ≠ region.start + extent Block.size before + b.size) ∨
          Opens s (region.start + extent Block.size before + headerSize) x := by
        cases after with
        | nil =>
            apply hsound.seam_keep howner (fun c rest hnil => by cases hnil)
            simpa [Block.absorb] using hx
        | cons c rest =>
            by_cases hfree : c.owner = none
            · rw [Block.absorb, if_pos hfree, List.append_cons] at hx
              exact hsound.seam_merge howner hfree hx
            · rw [Block.absorb, if_neg hfree, List.append_cons] at hx
              refine hsound.seam_keep howner ?_ hx
              rintro d tail hcons
              rw [List.cons.injEq] at hcons
              rwa [← hcons.1]
      rcases hcases with ⟨hold, hne⟩ | hopens
      · refine Or.inl ⟨hold, ?_⟩
        rintro ptr hptr hcloses
        cases hptr
        exact hne (hsound.closes_end hcloses)
      · exact Or.inr ⟨_, rfl, hopens⟩

/-! ## Seams along a run -/

theorem Represents.chain {m : Memory} (hrep : Represents m region blocks) :
    Chain m region.start ((place Block.size region.start blocks).map Prod.fst) := by
  have hchain := (chain_of_headers region.start_pos hrep.stop_eq hrep.roomy hrep.header).1
  rwa [region.link_start] at hchain

/-- The memory determines the blocks up to the requests they were taken for. -/
theorem Represents.place_congr {m : Memory} {p : ℕ × Block} (hrep : Represents m region blocks)
    (hrep' : Represents m region blocks') (hp : p ∈ place Block.size region.start blocks) :
    ∃ q ∈ place Block.size region.start blocks', q.1 = p.1 ∧ q.2.size = p.2.size ∧
      (q.2.owner = none ↔ p.2.owner = none) := by
  have hmem : p.1 ∈ (place Block.size region.start blocks').map Prod.fst := by
    rw [hrep'.chain.unique hrep.chain]
    exact List.mem_map_of_mem hp
  obtain ⟨q, hq, haddr⟩ := List.mem_map.mp hmem
  have hheader := hrep.header p hp
  have hheader' := hrep'.header q hq
  rw [haddr] at hheader'
  exact ⟨q, hq, haddr, hheader'.size_eq.symm.trans hheader.size_eq,
    hheader'.isFree_iff.symm.trans hheader.isFree_iff⟩

theorem Seam.congr {m : Memory} (hx : Seam region blocks x) (hrep : Represents m region blocks)
    (hrep' : Represents m region blocks') : Seam region blocks' x := by
  obtain ⟨p, hp, q, hq, hend, hstart, hfree, hfree'⟩ := hx
  obtain ⟨p', hp', haddr, hsize, howner⟩ := hrep.place_congr hrep' hp
  obtain ⟨q', hq', haddr', -, howner'⟩ := hrep.place_congr hrep' hq
  exact ⟨p', hp', q', hq', by rw [haddr, hsize, hend], haddr'.trans hstart, howner.mpr hfree,
    howner'.mpr hfree'⟩

theorem Starts.congr {m : Memory} (hx : Starts region blocks x)
    (hrep : Represents m region blocks) (hrep' : Represents m region blocks') :
    Starts region blocks' x := by
  obtain ⟨p, hp, hpx⟩ := hx
  obtain ⟨q, hq, haddr, -⟩ := hrep.place_congr hrep' hp
  exact ⟨q, hq, haddr.trans hpx⟩

theorem LeavesSeam.cons {s'' : Usage} (hstep : AnswerableStep region s op s')
    (hleaves : LeavesSeam region s' ops s'' x) : LeavesSeam region s (op :: ops) s'' x := by
  obtain ⟨before, ptr, after, s₁, s₂, rfl, hbefore, hfree, hopens, hafter⟩ := hleaves
  exact ⟨op :: before, ptr, after, s₁, s₂, rfl, .cons hstep hbefore, hfree, hopens, hafter⟩

/-- A seam at the end of a run was left by it, or is as old as the run. -/
theorem run_seam (hstart : headerSize ≤ region.start)
    (hrun : Run (AnswerableStep region) s ops s') (hsound : Sound region s blocks)
    (hsound' : Sound region s' blocks') (hx : Seam region blocks' x) :
    LeavesSeam region s ops s' x ∨ Run (SeamStep region x) s ops s' ∧ Seam region blocks x := by
  induction hrun generalizing blocks with
  | nil s => exact Or.inr ⟨.nil s, hx.congr hsound'.represents hsound.represents⟩
  | cons hstep hrun ih =>
      obtain ⟨blocks₁, hsound₁⟩ := answerableStep_sound hstart hstep hsound
      rcases ih hsound₁ hsound' with hleaves | ⟨hkept, hseam⟩
      · exact Or.inl (hleaves.cons hstep)
      · obtain ⟨blocks₂, hrep₂, hblocks⟩ := step_rearranges hstart hstep hsound
        rcases hsound.seam_step hrep₂ hblocks (hseam.congr hsound₁.represents hrep₂) with
          ⟨hold, hopen⟩ | ⟨ptr, rfl, hopens⟩
        · exact Or.inr ⟨.cons ⟨hstep, hopen⟩ hkept, hold⟩
        · exact Or.inl ⟨[], ptr, _, _, _, rfl, .nil _, hstep, hopens, hkept⟩

theorem run_starts (hstart : headerSize ≤ region.start) (hrun : Run (SeamStep region x) s ops s')
    (hsound : Sound region s blocks) (hsound' : Sound region s' blocks')
    (hx : Starts region blocks x) : Starts region blocks' x := by
  induction hrun generalizing blocks with
  | nil s => exact hx.congr hsound.represents hsound'.represents
  | cons hstep hrun ih =>
      obtain ⟨blocks₁, hsound₁⟩ := answerableStep_sound hstart hstep.1 hsound
      obtain ⟨blocks₂, hrep₂, hblocks⟩ := step_rearranges hstart hstep.1 hsound
      apply ih hsound₁ hsound'
      exact (hsound.starts_step hblocks hstep.2 hx).congr hrep₂ hsound₁.represents

/-- The seam a `kfree` opens is the start of the freed block, and not of the heap. -/
theorem Sound.opens_starts {ptr : ℕ} (hsound : Sound region s blocks) (hopens : Opens s ptr x) :
    Starts region blocks x ∧ region.start < x ∧ ¬ Closes s ptr x := by
  obtain ⟨hlive, hptr, starts, hchain, a, ha, hfree, hnext⟩ := hopens
  obtain ⟨n, hn⟩ := Option.ne_none_iff_exists'.mp hlive
  obtain ⟨before, b, after, rfl, hptr', howner⟩ := hsound.exists_block hn
  have hx : x = region.start + extent Block.size before := by omega
  rw [hchain.unique hsound.wellFormed.chain] at ha
  obtain ⟨p, hp, rfl⟩ := List.mem_map.mp ha
  have hpos := region.start_pos
  have hbounds := hsound.represents.bounds hp
  have hroom := hsound.middle_mem.2
  unfold headerSize at hbounds hroom
  rw [(hsound.represents.header p hp).next_eq, link] at hnext
  have hend : p.1 + p.2.size = x := by
    split at hnext
    · omega
    · exact hnext
  refine ⟨⟨_, hsound.middle_mem.1, hx.symm⟩, by omega, ?_⟩
  intro hcloses
  rw [hptr'] at hcloses
  have := hsound.closes_end hcloses
  omega

theorem LeavesSeam.starts (hstart : headerSize ≤ region.start)
    (hleaves : LeavesSeam region s ops s' x) (hsound : Sound region s blocks)
    (hsound' : Sound region s' blocks') : Starts region blocks' x ∧ region.start < x := by
  obtain ⟨before, ptr, after, s₁, s₂, -, hbefore, hfree, hopens, hafter⟩ := hleaves
  obtain ⟨blocks₁, hsound₁⟩ := answerableRun_sound hstart hbefore hsound
  obtain ⟨blocks₂, hsound₂⟩ := answerableStep_sound hstart hfree hsound₁
  obtain ⟨hstarts, hlt, hopen⟩ := hsound₁.opens_starts hopens
  have hsame : ∀ q, Operation.kfree ptr = .kfree q → ¬ Closes s₁ q x := by
    intro q hq
    cases hq
    exact hopen
  exact ⟨run_starts hstart (.cons ⟨hfree, hsame⟩ hafter) hsound₁ hsound' hstarts, hlt⟩

/-! ## The heap after everything is freed -/

theorem Sound.satisfies_iff (hsound : Sound region s blocks) {size : ℕ} :
    Satisfies s.heap size ↔ ∃ b ∈ blocks, b.Fits ((size + headerSize) % 2 ^ 64) := by
  have hheap := hsound.heap_eq
  unfold Satisfies
  rcases hsound.represents.kmalloc_cases size with ⟨hnull, hnone⟩ |
    ⟨before, b, after, rfl, hfits, htake⟩
  · rw [← hheap] at hnull
    refine iff_of_false ?_ fun ⟨b, hb, hfits⟩ => hnone b hb hfits
    rintro ⟨ptr, heap', hreturn, hne⟩
    rw [hnull, Option.some.injEq, Prod.mk.injEq] at hreturn
    exact hne hreturn.1.symm
  · rw [← hheap] at htake
    refine iff_of_true ⟨_, _, htake, ?_⟩ ⟨b, by simp, hfits⟩
    unfold headerSize
    omega

theorem start_satisfies_iff (region : Region) (mem : Memory) (size : ℕ) :
    Satisfies (Usage.start region mem).heap size ↔
      (size + headerSize) % 2 ^ 64 ≤ region.total := by
  rw [(start_sound region mem).satisfies_iff]
  simp [Block.Fits]

theorem Sound.owner_eq_none (hsound : Sound region s blocks) (hfreed : ∀ ptr, s.live ptr = none) :
    ∀ b ∈ blocks, b.owner = none := by
  intro b hb
  obtain ⟨before, after, rfl⟩ := List.append_of_mem hb
  by_contra howner
  rw [List.append_cons] at hsound
  exact hsound.live_middle howner (hfreed _)

/-- Without a seam all of a free heap is one block. -/
theorem Sound.blocks_eq (hsound : Sound region s blocks) (hfreed : ∀ ptr, s.live ptr = none)
    (hseam : ∀ x, ¬ Seam region blocks x) : blocks = [⟨region.total, none⟩] := by
  have howner := hsound.owner_eq_none hfreed
  have hextent := hsound.represents.extent_eq
  have hheader := region.header_le
  cases blocks with
  | nil =>
      unfold headerSize at hheader
      rw [extent_nil] at hextent
      omega
  | cons b rest =>
      cases rest with
      | nil =>
          rw [extent_cons, extent_nil, Nat.add_zero] at hextent
          rw [← hextent, ← howner b List.mem_cons_self]
      | cons c rest =>
          refine absurd ?_ (hseam (region.start + b.size))
          exact ⟨(region.start, b), by simp, (region.start + b.size, c), by simp, rfl, rfl,
            howner b (by simp), howner c (by simp)⟩

/-- With a second block every block is smaller than the heap. -/
theorem Sound.size_lt_total (hsound : Sound region s blocks) (hx : Starts region blocks x)
    (hlt : region.start < x) (hb : b ∈ blocks) : b.size < region.total := by
  obtain ⟨p, hp, rfl⟩ := hx
  obtain ⟨before, after, rfl⟩ := List.append_of_mem hb
  rw [List.append_cons] at hsound hp
  have hq := hsound.represents.bounds hsound.middle_mem.1
  have hp' := hsound.represents.bounds hp
  have hsize := hsound.represents.size_pos p.2 (snd_mem_of_mem_place hp)
  unfold Region.stop at hq hp'
  dsimp only at hq
  rcases eq_or_disjoint_of_mem_place hp hsound.middle_mem.1 with rfl | hpq | hqp
  · dsimp only at hlt
    omega
  · dsimp only at hpq
    omega
  · dsimp only at hqp
    omega

/-- A run of answerable requests that freed everything leaves a heap for every request
the fresh heap had a block for, exactly when it closed every seam it opened. -/
theorem run_reusable_iff (hstart : headerSize ≤ region.start) {mem : Memory}
    (hrun : Run (AnswerableStep region) (.start region mem) ops s)
    (hfreed : ∀ ptr, s.live ptr = none) :
    (∀ size < 2 ^ 64, Satisfies (Usage.start region mem).heap size → Satisfies s.heap size) ↔
      ∀ x, ¬ LeavesSeam region (.start region mem) ops s x := by
  have hfresh := start_sound region mem
  obtain ⟨blocks, hsound⟩ := answerableRun_sound hstart hrun hfresh
  constructor
  · intro hreuse x hleaves
    obtain ⟨hstarts, hlt⟩ := hleaves.starts hstart hfresh hsound
    have hfits := region.fits
    have hheader := region.header_le
    have htotal : (region.total - headerSize + headerSize) % 2 ^ 64 = region.total := by omega
    have hlargest := hreuse (region.total - headerSize) (by omega)
      ((start_satisfies_iff region mem _).mpr htotal.le)
    obtain ⟨b, hb, -, hle⟩ := hsound.satisfies_iff.mp hlargest
    have hless := hsound.size_lt_total hstarts hlt hb
    omega
  · intro hclosed size hsize hsatisfies
    have hseam : ∀ x, ¬ Seam region blocks x := by
      intro x hx
      rcases run_seam hstart hrun hfresh hsound hx with hleaves | ⟨-, p, hp, q, hq, hend, hx, -⟩
      · exact hclosed x hleaves
      · simp only [place_cons, place_nil, List.mem_singleton] at hp hq
        have hheader := region.header_le
        unfold headerSize at hheader
        subst hp hq
        dsimp only at hend hx
        omega
    have hblocks := hsound.blocks_eq hfreed hseam
    rw [hblocks] at hsound
    rw [start_satisfies_iff] at hsatisfies
    exact hsound.satisfies_iff.mpr ⟨_, List.mem_singleton_self _, rfl, hsatisfies⟩

/-- A request that only one block fits takes this block. -/
theorem Sound.exists_kmalloc (hsound : Sound region s (before ++ [b] ++ after)) {size : ℕ}
    (hsize : size + 2 * headerSize < 2 ^ 64) (hfits : b.Fits (size + headerSize))
    (honly : ∀ c ∈ before ++ after, ¬ c.Fits (size + headerSize)) :
    ∃ s', AnswerableStep region s (.kmalloc size) s' ∧
      s'.live = Function.update s.live (region.start + extent Block.size before + headerSize)
        (some size) ∧
      Sound region s' (before ++ b.taken (size + headerSize) size ++ after) := by
  have hheap := hsound.heap_eq
  rcases hsound.represents.kmalloc_eq hsize with
    ⟨-, hnone⟩ | ⟨before', b', after', hblocks, hfits', htake⟩
  · exact absurd hfits (hnone b (by simp))
  have hsplit : before' = before ∧ b' = b ∧ after' = after := by
    rw [← List.append_cons, ← List.append_cons, List.append_eq_append_iff] at hblocks
    rcases hblocks with ⟨rest, rfl, hrest⟩ | ⟨rest, rfl, hrest⟩
    · cases rest with
      | nil => simpa [eq_comm] using hrest
      | cons c rest =>
          obtain ⟨rfl, rfl⟩ := List.cons.inj hrest
          exact absurd hfits' (honly b' (by simp))
    · cases rest with
      | nil => simpa [eq_comm] using hrest
      | cons c rest =>
          obtain ⟨rfl, rfl⟩ := List.cons.inj hrest
          exact absurd hfits' (honly b' (by simp))
  obtain ⟨rfl, rfl, rfl⟩ := hsplit
  rw [← hheap] at htake
  exact ⟨_, .kmalloc (by omega) htake (by unfold headerSize; omega), rfl,
    (hsound.take hsize hfits).1⟩

/-- An allocated block can be freed. -/
theorem Sound.exists_kfree (hsound : Sound region s (before ++ [b] ++ after)) {ptr : ℕ}
    (hptr : ptr = region.start + extent Block.size before + headerSize)
    (hlive : s.live ptr ≠ none) :
    ∃ s', AnswerableStep region s (.kfree ptr) s' ∧ s'.live = Function.update s.live ptr none ∧
      Sound region s' (before ++ Block.absorb ⟨b.size, none⟩ after) :=
  ⟨_, .kfree hlive, rfl, (hsound.kfree hptr).1⟩

/-- Two blocks that fill the heap are freed in the order of their addresses. -/
theorem exists_freed_in_order {first second ptr : ℕ} (hpos : 0 < second)
    (htotal : first + second + 2 * headerSize = kernelRegion.total)
    (hptr : ptr = kernelRegion.start + first + 2 * headerSize) : ∃ s,
    Run (AnswerableStep kernelRegion) (.start kernelRegion fun _ => 0)
      [.kmalloc first, .kmalloc second, .kfree 0xFFFF900000000018, .kfree ptr] s ∧
    (∀ q, s.live q = none) ∧
    Sound kernelRegion s [⟨first + headerSize, none⟩, ⟨second + headerSize, none⟩] := by
  have hsize : kernelRegion.total = 16777216 := rfl
  have haddrA : 0xFFFF900000000018 = kernelRegion.start + extent Block.size [] + headerSize := by
    decide
  have haddrB (owner : Option ℕ) :
      ptr = kernelRegion.start + extent Block.size [⟨first + headerSize, owner⟩] + headerSize := by
    rw [extent_cons, extent_nil]
    dsimp only
    omega
  have htaken : Block.taken (first + headerSize) first ⟨kernelRegion.total, none⟩ =
      [⟨first + headerSize, some first⟩, ⟨second + headerSize, none⟩] := by
    rw [Block.taken, if_pos (by dsimp only; omega)]
    simp only [List.cons.injEq, Block.mk.injEq, and_true, true_and]
    omega
  have hrest : Block.taken (second + headerSize) second ⟨second + headerSize, none⟩ =
      [⟨second + headerSize, some second⟩] := if_neg (by dsimp only; unfold headerSize; omega)
  have hstart : Sound kernelRegion (.start kernelRegion fun _ => 0)
      ([] ++ [⟨kernelRegion.total, none⟩] ++ []) := start_sound kernelRegion fun _ => 0
  have hne : ptr ≠ 0xFFFF900000000018 := by
    rw [hptr, haddrA, extent_nil]
    unfold headerSize
    omega
  -- Both requests are served.
  obtain ⟨s₁, hstep₁, hlive₁, hsound₁⟩ := hstart.exists_kmalloc
    (show first + 2 * headerSize < 2 ^ 64 by omega)
    ⟨rfl, show first + headerSize ≤ kernelRegion.total by omega⟩ (by simp)
  rw [← haddrA] at hlive₁
  rw [htaken] at hsound₁
  have hsound₁' : Sound kernelRegion s₁
      ([⟨first + headerSize, some first⟩] ++ [⟨second + headerSize, none⟩] ++ []) := hsound₁
  obtain ⟨s₂, hstep₂, hlive₂, hsound₂⟩ := hsound₁'.exists_kmalloc
    (show second + 2 * headerSize < 2 ^ 64 by omega) ⟨rfl, le_refl _⟩ (by simp [Block.Fits])
  rw [← haddrB, hlive₁] at hlive₂
  rw [hrest] at hsound₂
  -- Freeing from the front leaves each block behind a free one.
  have hsound₂' : Sound kernelRegion s₂ ([] ++ [⟨first + headerSize, some first⟩] ++
      [⟨second + headerSize, some second⟩]) := hsound₂
  have hliveA : s₂.live 0xFFFF900000000018 ≠ none := by
    rw [hlive₂, Function.update_of_ne hne.symm, Function.update_self]
    exact Option.some_ne_none _
  obtain ⟨s₃, hstep₃, hlive₃, hsound₃⟩ := hsound₂'.exists_kfree haddrA hliveA
  have hsound₃' : Sound kernelRegion s₃ ([⟨first + headerSize, none⟩] ++
      [⟨second + headerSize, some second⟩] ++ []) := hsound₃
  have hliveB : s₃.live ptr ≠ none := by
    rw [hlive₃, Function.update_of_ne hne, hlive₂, Function.update_self]
    exact Option.some_ne_none _
  obtain ⟨s₄, hstep₄, hlive₄, hsound₄⟩ := hsound₃'.exists_kfree (haddrB none) hliveB
  refine ⟨s₄, .cons hstep₁ (.cons hstep₂ (.cons hstep₃ (.cons hstep₄ (.nil _)))), ?_, hsound₄⟩
  intro q
  rw [hlive₄, hlive₃, hlive₂]
  simp only [Function.update_apply]
  split_ifs <;> rfl

/-- Two blocks that fill the heap, freed in the order of their addresses; when the first one
is taken and freed once more, the heap is as good as a fresh one. -/
theorem kernelRegion_reusable : ∃ s,
    Run (AnswerableStep kernelRegion) (.start kernelRegion fun _ => 0)
      [.kmalloc 16777068, .kmalloc 100, .kfree 0xFFFF900000000018, .kfree 0xFFFF900000FFFF9C,
        .kmalloc 16777068, .kfree 0xFFFF900000000018] s ∧
    Satisfies s.heap 16777192 ∧
    ∀ x, ¬ LeavesSeam kernelRegion (.start kernelRegion fun _ => 0)
      [.kmalloc 16777068, .kmalloc 100, .kfree 0xFFFF900000000018, .kfree 0xFFFF900000FFFF9C,
        .kmalloc 16777068, .kfree 0xFFFF900000000018] s x := by
  obtain ⟨s₄, hrun, hfreed, hsound₄⟩ := exists_freed_in_order
    (show 0 < 100 by decide) (show 16777068 + 100 + _ = _ by decide)
    (show 0xFFFF900000FFFF9C = _ by decide)
  have haddr : 0xFFFF900000000018 = kernelRegion.start + extent Block.size [] + headerSize := by
    decide
  have htaken : Block.taken (16777068 + headerSize) 16777068 ⟨16777092, none⟩ =
      [⟨16777092, some 16777068⟩] := by decide
  have hsound₄' : Sound kernelRegion s₄ ([] ++ [⟨16777092, none⟩] ++ [⟨124, none⟩]) := hsound₄
  obtain ⟨s₅, hstep₅, hlive₅, hsound₅⟩ := hsound₄'.exists_kmalloc
    (show 16777068 + 2 * headerSize < 2 ^ 64 by decide) ⟨rfl, by decide⟩
    (by simp [Block.Fits, headerSize])
  rw [← haddr] at hlive₅
  rw [htaken] at hsound₅
  obtain ⟨s₆, hstep₆, hlive₆, hsound₆⟩ :=
    hsound₅.exists_kfree haddr (by rw [hlive₅, Function.update_self]; exact Option.some_ne_none _)
  have hrun' := hrun.append (.cons hstep₅ (.cons hstep₆ (.nil _)))
  have hfreed' : ∀ q, s₆.live q = none := by
    intro q
    rw [hlive₆, hlive₅]
    simp only [Function.update_apply]
    split_ifs
    · rfl
    · exact hfreed q
  have hall : ∀ size < 2 ^ 64, Satisfies (Usage.start kernelRegion fun _ => 0).heap size →
      Satisfies s₆.heap size := by
    intro size _ hsatisfies
    rw [start_satisfies_iff] at hsatisfies
    exact hsound₆.satisfies_iff.mpr ⟨⟨16777216, none⟩, List.mem_singleton_self _, rfl, hsatisfies⟩
  refine ⟨s₆, hrun', hall 16777192 (by decide) ?_,
    (run_reusable_iff (by decide) hrun' hfreed').mp hall⟩
  rw [start_satisfies_iff]
  decide

/-- Two blocks that fill the heap, freed in the order of their addresses, stay two
blocks. -/
theorem freed_in_order_fragments : ∃ s ptr,
    Run (AnswerableStep kernelRegion) (.start kernelRegion fun _ => 0)
      [.kmalloc 100, .kmalloc 16777068, .kfree 0xFFFF900000000018, .kfree ptr] s ∧
    (∀ q, s.live q = none) ∧
    Satisfies (Usage.start kernelRegion fun _ => 0).heap 16777192 ∧
    ¬ Satisfies s.heap 16777192 := by
  obtain ⟨s, hrun, hfreed, hsound⟩ := exists_freed_in_order
    (show 0 < 16777068 by decide) (show 100 + 16777068 + _ = _ by decide) rfl
  refine ⟨s, _, hrun, hfreed, ?_, ?_⟩
  · rw [start_satisfies_iff]
    decide
  · rw [hsound.satisfies_iff]
    decide

end BadOS.Kernel.Kheap
