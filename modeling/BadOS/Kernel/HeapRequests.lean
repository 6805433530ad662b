import BadOS.Kernel.HeapRuns

/-! # Requests of every size

`kmalloc` adds the header to the request before it compares anything. A request
in the last 24 bytes of the range wraps around, and then every free block looks
large enough.
-/

namespace BadOS.Kernel.Kheap

open Tiling Execution

/-- `Step` with requests of every `size_t`. -/
inductive WideStep (region : Region) (s : Usage) : Operation → Usage → Prop
  | kmalloc {size ptr : ℕ} {heap : Kheap} (hsize : size < 2 ^ 64)
      (hreturn : s.heap.kmalloc size = some (ptr, heap)) :
      WideStep region s (.kmalloc size)
        ⟨heap, if ptr = 0 then s.live else Function.update s.live ptr (some size)⟩
  | other {op : Operation} {s' : Usage} (hother : ∀ size, op ≠ .kmalloc size)
      (hstep : Step region s op s') : WideStep region s op s'

/-- A block of the list is free. -/
def HasFree (heap : Kheap) : Prop :=
  ∃ starts, Chain heap.mem heap.freeList starts ∧ ∃ block ∈ starts, isFree heap.mem block ≠ 0

/-- The total of a request does not wrap around, or there is no block to hand out. -/
def Answerable (heap : Kheap) (size : ℕ) : Prop := size + headerSize < 2 ^ 64 ∨ ¬ HasFree heap

def Usage.Admits (s : Usage) (op : Operation) : Prop :=
  ∀ size, op = .kmalloc size → Answerable s.heap size

/-- A step whose request, if it is one, is answerable. -/
def AnswerableStep (region : Region) (s : Usage) (op : Operation) (s' : Usage) : Prop :=
  WideStep region s op s' ∧ s.Admits op

/-- What `kmalloc` owes its caller: `NULL` and an unchanged heap, or a payload in the
heap away from the live ones; and a finite list of blocks that tile the heap. -/
structure Served (region : Region) (s : Usage) (size ptr : ℕ) (heap : Kheap) : Prop where
  unchanged : ptr = 0 → heap = s.heap
  large_enough : ptr ≠ 0 → size ≤ capacity heap.mem ptr
  inside : ptr ≠ 0 → region.start ≤ ptr ∧ ptr + capacity heap.mem ptr ≤ region.stop
  apart : ptr ≠ 0 → ∀ q n, s.live q = some n →
    ptr + capacity heap.mem ptr ≤ q ∨ q + capacity s.heap.mem q ≤ ptr
  tiles : ∃ starts, Chain heap.mem heap.freeList starts ∧
    Tiles heap.mem region.stop region.start starts

variable {region : Region} {s s' : Usage} {blocks : List Block} {op : Operation}
variable {ops : List Operation} {size : ℕ}

theorem Sound.hasFree_iff (hsound : Sound region s blocks) :
    HasFree s.heap ↔ ∃ b ∈ blocks, b.owner = none :=
  hsound.exists_block_iff fun p hp => (hsound.represents.header p hp).isFree_iff

/-! ## Requests near the top of the range -/

/-- A block is smaller than the address space above the region's start. -/
theorem Represents.size_lt {m : Memory} {b : Block} (hrep : Represents m region blocks)
    (hb : b ∈ blocks) : b.size + region.start < 2 ^ 64 := by
  obtain ⟨before, after, rfl⟩ := List.append_of_mem hb
  have hextent := hrep.extent_eq
  rw [extent_append, extent_cons] at hextent
  have hfits := region.fits
  omega

/-- A total that leaves no room for a second header exceeds every block. -/
theorem Sound.kmalloc_top (hsound : Sound region s blocks) (hstart : headerSize ≤ region.start)
    (hlarge : 2 ^ 64 ≤ size + 2 * headerSize) (hsize : size + headerSize < 2 ^ 64) :
    s.heap.kmalloc size = some (0, s.heap) := by
  have hheap := hsound.heap_eq
  have htotal : (size + headerSize) % 2 ^ 64 = size + headerSize := Nat.mod_eq_of_lt hsize
  rcases hsound.represents.kmalloc_cases size with ⟨hnull, -⟩ | ⟨before, b, after, rfl, hfits, -⟩
  · rwa [← hheap] at hnull
  · have hlt := hsound.represents.size_lt (show b ∈ before ++ [b] ++ after by simp)
    have hle := hfits.2
    rw [htotal] at hle
    omega

/-- Without a free block there is nothing to return. -/
theorem Sound.kmalloc_full (hsound : Sound region s blocks) (hfull : ¬ HasFree s.heap) :
    s.heap.kmalloc size = some (0, s.heap) := by
  have hheap := hsound.heap_eq
  rcases hsound.represents.kmalloc_cases size with ⟨hnull, -⟩ | ⟨before, b, after, rfl, hfits, -⟩
  · rwa [← hheap] at hnull
  · exact absurd (hsound.hasFree_iff.mpr ⟨b, by simp, hfits.1⟩) hfull

/-- A total that wrapped around is smaller than any header, so the first free block
is taken for it. -/
theorem Sound.kmalloc_wrapped (hsound : Sound region s blocks) (hsize : size < 2 ^ 64)
    (hwrap : 2 ^ 64 ≤ size + headerSize) (hfree : HasFree s.heap) :
    ∃ ptr heap, s.heap.kmalloc size = some (ptr, heap) ∧ region.start < ptr := by
  have hheap := hsound.heap_eq
  rcases hsound.represents.kmalloc_cases size with ⟨-, hnone⟩ | ⟨before, b, after, -, -, htake⟩
  · obtain ⟨b, hb, howner⟩ := hsound.hasFree_iff.mp hfree
    have hroom := (hsound.represents.roomy b hb).1
    refine absurd ⟨howner, ?_⟩ (hnone b hb)
    unfold headerSize at *
    omega
  · rw [← hheap] at htake
    refine ⟨_, _, htake, ?_⟩
    unfold headerSize
    omega

/-- No payload holds a request whose total wraps around. -/
theorem not_served_of_wrap {ptr : ℕ} {heap : Kheap} (hwrap : 2 ^ 64 ≤ size + headerSize)
    (hptr : region.start < ptr) (hheader : headerSize ≤ region.start) :
    ¬ Served region s size ptr heap := by
  intro hserved
  have hne : ptr ≠ 0 := by omega
  have hlarge := hserved.large_enough hne
  have hinside := (hserved.inside hne).2
  have hstop := region.stop_lt
  omega

/-! ## Runs of answerable requests -/

theorem Sound.kmalloc_fresh {ptr : ℕ} {heap : Kheap} (hsound : Sound region s blocks)
    (hsize : size + 2 * headerSize < 2 ^ 64) (hreturn : s.heap.kmalloc size = some (ptr, heap))
    (hne : ptr ≠ 0) : s.live ptr = none := by
  have hheap := hsound.heap_eq
  rw [hheap] at hreturn
  rcases hsound.represents.kmalloc_eq hsize with ⟨hnull, -⟩ | ⟨before, b, after, rfl, hfits, htake⟩
  · rw [hnull, Option.some.injEq, Prod.mk.injEq] at hreturn
    exact absurd hreturn.1.symm hne
  · rw [htake, Option.some.injEq, Prod.mk.injEq] at hreturn
    rw [← hreturn.1]
    exact hsound.live_eq_none hfits.1

theorem Sound.served {ptr : ℕ} {heap : Kheap} (hsound : Sound region s blocks)
    (hsize : size + 2 * headerSize < 2 ^ 64)
    (hreturn : s.heap.kmalloc size = some (ptr, heap)) : Served region s size ptr heap := by
  obtain ⟨blocks', hsound', hkeeps⟩ := kmalloc_sound hsound hsize hreturn
  have hformed := hsound'.wellFormed
  refine ⟨?_, ?_, ?_, ?_, _, hformed.chain, hformed.tiles⟩
  · rintro rfl
    obtain ⟨ptr', heap', hreturn', hnull, -⟩ := hsound.kmalloc_null_iff hsize
    rw [hreturn, Option.some.injEq, Prod.mk.injEq] at hreturn'
    rw [hreturn'.2]
    exact hnull hreturn'.1.symm
  all_goals
    intro hne
    rw [if_neg hne] at hformed hkeeps
    have hself : Function.update s.live ptr (some size) ptr = some size :=
      Function.update_self _ _ _
  · exact hformed.large_enough ptr size hself
  · exact hformed.inside ptr size hself
  · intro q n hq
    obtain ⟨hlive, hkept⟩ := hkeeps q n hq
    have hother : ptr ≠ q := by
      rintro rfl
      rw [hsound.kmalloc_fresh hsize hreturn hne] at hq
      cases hq
    have hdisjoint := hformed.payloads_disjoint ptr q size n hself hlive hother
    unfold capacity at hdisjoint ⊢
    dsimp only at hkept hdisjoint
    rwa [hkept] at hdisjoint

/-- An answerable request is refused or leaves room for a second header. -/
theorem Sound.null_or_small (hsound : Sound region s blocks) (hstart : headerSize ≤ region.start)
    (hanswer : Answerable s.heap size) :
    s.heap.kmalloc size = some (0, s.heap) ∨ size + 2 * headerSize < 2 ^ 64 := by
  rcases hanswer with hfits | hfull
  · by_cases hsmall : size + 2 * headerSize < 2 ^ 64
    · exact Or.inr hsmall
    · exact Or.inl (hsound.kmalloc_top hstart (not_lt.mp hsmall) hfits)
  · exact Or.inl (hsound.kmalloc_full hfull)

/-- A request that is answerable is served, and leaves the heap sound. -/
theorem Sound.kmalloc_answerable (hsound : Sound region s blocks)
    (hstart : headerSize ≤ region.start) (hanswer : Answerable s.heap size) :
    ∃ ptr heap, s.heap.kmalloc size = some (ptr, heap) ∧ Served region s size ptr heap ∧
      ∃ blocks', Sound region
        ⟨heap, if ptr = 0 then s.live else Function.update s.live ptr (some size)⟩ blocks' := by
  rcases hsound.null_or_small hstart hanswer with hnull | hsmall
  · have hformed := hsound.wellFormed
    refine ⟨0, s.heap, hnull, ⟨fun _ => rfl, ?_, ?_, ?_, _, hformed.chain, hformed.tiles⟩,
      blocks, by rwa [if_pos rfl]⟩
    all_goals exact fun hne => absurd rfl hne
  · obtain ⟨ptr, heap, hreturn, -⟩ := hsound.kmalloc_null_iff hsmall
    obtain ⟨blocks', hsound', -⟩ := kmalloc_sound hsound hsmall hreturn
    exact ⟨ptr, heap, hreturn, hsound.served hsmall hreturn, blocks', hsound'⟩

theorem AnswerableStep.kmalloc {ptr : ℕ} {heap : Kheap} (hsize : size + headerSize < 2 ^ 64)
    (hreturn : s.heap.kmalloc size = some (ptr, heap)) (hne : ptr ≠ 0) :
    AnswerableStep region s (.kmalloc size) ⟨heap, Function.update s.live ptr (some size)⟩ := by
  have hstep : WideStep region s (.kmalloc size)
      ⟨heap, if ptr = 0 then s.live else Function.update s.live ptr (some size)⟩ :=
    .kmalloc (by omega) hreturn
  rw [if_neg hne] at hstep
  refine ⟨hstep, ?_⟩
  intro size' hsize'
  cases hsize'
  exact Or.inl hsize

theorem AnswerableStep.kfree {ptr : ℕ} (hlive : s.live ptr ≠ none) :
    AnswerableStep region s (.kfree ptr)
      ⟨s.heap.kfree ptr, Function.update s.live ptr none⟩ := by
  constructor
  · apply WideStep.other
    · intro size hsize
      cases hsize
    · exact .kfree (Or.inr hlive)
  · intro size hsize
    cases hsize

theorem answerableStep_sound (hstart : headerSize ≤ region.start)
    (hstep : AnswerableStep region s op s') (hsound : Sound region s blocks) :
    ∃ blocks', Sound region s' blocks' := by
  obtain ⟨hwide, hadmits⟩ := hstep
  cases hwide with
  | @kmalloc size ptr heap hsize hreturn =>
      obtain ⟨ptr', heap', hreturn', -, hsound'⟩ :=
        hsound.kmalloc_answerable hstart (hadmits size rfl)
      rw [hreturn, Option.some.injEq, Prod.mk.injEq] at hreturn'
      obtain ⟨rfl, rfl⟩ := hreturn'
      exact hsound'
  | other hother hstep =>
      obtain ⟨blocks', hsound', -⟩ := step_sound hstep hsound
      exact ⟨blocks', hsound'⟩

theorem answerableRun_sound (hstart : headerSize ≤ region.start)
    (hrun : Run (AnswerableStep region) s ops s') (hsound : Sound region s blocks) :
    ∃ blocks', Sound region s' blocks' :=
  hrun.invariant (fun s => ∃ blocks, Sound region s blocks) ⟨blocks, hsound⟩
    fun _ _ _ hstep ⟨_, hsound⟩ => answerableStep_sound hstart hstep hsound

/-- After any run of answerable requests, `kmalloc` serves exactly the requests that
are answerable. -/
theorem run_served_iff (hstart : headerSize ≤ region.start) {mem : Memory}
    (hrun : Run (AnswerableStep region) (.start region mem) ops s) (hsize : size < 2 ^ 64) :
    (∃ ptr heap, s.heap.kmalloc size = some (ptr, heap) ∧ Served region s size ptr heap) ↔
      size + headerSize < 2 ^ 64 ∨ ¬ HasFree s.heap := by
  obtain ⟨blocks, hsound⟩ := answerableRun_sound hstart hrun (start_sound region mem)
  constructor
  · rintro ⟨ptr, heap, hreturn, hserved⟩
    by_contra hnot
    obtain ⟨hwrap, hfree⟩ := not_or.mp hnot
    obtain ⟨ptr', heap', hreturn', hptr⟩ :=
      hsound.kmalloc_wrapped hsize (not_lt.mp hwrap) (not_not.mp hfree)
    rw [hreturn, Option.some.injEq, Prod.mk.injEq] at hreturn'
    obtain ⟨rfl, rfl⟩ := hreturn'
    exact not_served_of_wrap (not_lt.mp hwrap) hptr hstart hserved
  · intro hanswer
    obtain ⟨ptr, heap, hreturn, hserved, -⟩ := hsound.kmalloc_answerable hstart hanswer
    exact ⟨ptr, heap, hreturn, hserved⟩

theorem kernelRegion_served :
    ∃ s, Run (AnswerableStep kernelRegion) (.start kernelRegion fun _ => 0) [.kmalloc 100] s ∧
      ∃ ptr heap, s.heap.kmalloc 50 = some (ptr, heap) ∧ Served kernelRegion s 50 ptr heap := by
  have hreturn := start_kmalloc kernelRegion (fun _ => 0)
    (show 100 + 2 * headerSize < 2 ^ 64 by decide) (by decide)
  have hrun : Run (AnswerableStep kernelRegion) _ [.kmalloc 100] _ :=
    .cons (.kmalloc (by decide) hreturn (by decide)) (.nil _)
  exact ⟨_, hrun, (run_served_iff (by decide) hrun (by decide)).mpr (Or.inl (by decide))⟩

/-- A block split after 0 bytes is linked to itself. -/
theorem next_takeBlock_zero {m : Memory} {a : ℕ} (hsize : headerSize < Kheap.size m a)
    (ha : a < 2 ^ 64) : next (takeBlock m a 0) a = a := by
  have hself : Apart a a := Or.inl rfl
  have hsplit : (0 + headerSize) % 2 ^ 64 < Kheap.size m a := hsize
  have hnew : (a + 0) % 2 ^ 64 = a := Nat.mod_eq_of_lt ha
  unfold takeBlock splitBlock
  rw [if_pos hsplit, hnew]
  dsimp only
  rw [next_setIsFree hself, next_setNext _ ha]

/-- On the fresh heap the total of `2 ^ 64 - 24` is 0: the only block is split from
itself and its link leads back to it. -/
theorem kmalloc_wrapped_selfLinked :
    (∃ heap, (Usage.start kernelRegion fun _ => 0).heap.kmalloc (2 ^ 64 - 24) =
        some (0xFFFF900000000018, heap) ∧
      next heap.mem 0xFFFF900000000000 = 0xFFFF900000000000) ∧
    ¬ ∃ ptr heap, (Usage.start kernelRegion fun _ => 0).heap.kmalloc (2 ^ 64 - 24) =
        some (ptr, heap) ∧
      Served kernelRegion (.start kernelRegion fun _ => 0) (2 ^ 64 - 24) ptr heap := by
  have hsound := start_sound kernelRegion fun _ => 0
  have hheap : (Usage.start kernelRegion fun _ => 0).heap =
      ⟨(Usage.start kernelRegion fun _ => 0).heap.mem, kernelRegion.start⟩ := rfl
  have htotal : (2 ^ 64 - 24 + headerSize) % 2 ^ 64 = 0 := by decide
  have hcases := hsound.represents.kmalloc_cases (2 ^ 64 - 24)
  rw [htotal, ← hheap] at hcases
  rcases hcases with ⟨-, hnone⟩ | ⟨before, b, after, hblocks, -, htake⟩
  · exact absurd ⟨rfl, Nat.zero_le _⟩ (hnone _ List.mem_cons_self)
  · have hlength := congrArg List.length hblocks
    simp only [List.length_append, List.length_cons, List.length_nil] at hlength
    have hbefore : before = [] := List.eq_nil_of_length_eq_zero (by omega)
    rw [hbefore, extent_nil, Nat.add_zero] at htake
    refine ⟨⟨_, htake, ?_⟩, ?_⟩
    · have hsize := (hsound.represents.header (kernelRegion.start, ⟨kernelRegion.total, none⟩)
        List.mem_cons_self).size_eq
      exact next_takeBlock_zero (by rw [hsize]; decide) (by decide)
    · rintro ⟨ptr, heap, hreturn, hserved⟩
      rw [htake, Option.some.injEq, Prod.mk.injEq] at hreturn
      obtain ⟨rfl, rfl⟩ := hreturn
      exact not_served_of_wrap (by decide) (by decide) (by decide) hserved

end BadOS.Kernel.Kheap
