import BadOS.Kernel.DrawRuns

/-! # Drawing without a back buffer

`kmalloc` returns `NULL` when no block is large enough for the back buffer, and the call
draws as if it had one: it clears the buffer at 0, copies it to the framebuffer, unpacks
the frame into it and copies the rows.
-/

namespace BadOS.Kernel

/-- The operation writes through the back buffer. -/
def DrawOp.WritesBack : DrawOp → Prop
  | .clear count => count ≠ 0
  | .copy _ _ => False
  | .unpack _ _ => True

namespace Display

/-- The call writes nothing through the back buffer, and memory and heap are the same
whenever it stops. -/
structure Harmless (s : Display) (fb : LimineFramebuffer) (frame rcx rdx : ℕ) : Prop where
  noWrite : ∀ op ∈ drawOps fb true frame rcx rdx, ¬ op.WritesBack
  during : ∀ opened, openBackbuffer s fb = some opened →
    ∀ ops, ops <+: drawOps fb true frame rcx rdx →
      ops.foldl (exec fb.address opened.backbuffer) opened.mem = s.mem
  after : ∃ s', s.drawFrame frame rcx rdx = some s' ∧ s'.mem = s.mem ∧ s'.freeList = s.freeList

/-- The buffer is empty, and a visible row has no byte to unpack and nothing to copy that
is not in the framebuffer already. -/
def NothingToDraw (s : Display) (fb : LimineFramebuffer) (w h : ℤ) : Prop :=
  bufferSize fb = 0 ∧ ∀ y : ℕ, y < h → Visible fb h y → w < 8 ∧
    ∀ k < rowCount w, s.mem (pixelAddr fb.address (rowOffset fb w h y) + k) =
      s.mem (pixelAddr 0 (rowOffset fb w h y) + k)

variable {s : Display} {fb : LimineFramebuffer} {m : Memory} {w h : ℤ} {frame : ℕ}

/-! ## Operations that change nothing -/

/-- Operations keep memory at every point exactly when each of them keeps it. -/
theorem foldl_exec_eq_self_iff {vram backbuffer : ℕ} {ops : List DrawOp} :
    (∀ done, done <+: ops → done.foldl (exec vram backbuffer) m = m) ↔
      ∀ op ∈ ops, exec vram backbuffer m op = m := by
  induction ops with
  | nil =>
      refine iff_of_true (fun done hdone => ?_) fun op hop => absurd hop List.not_mem_nil
      rw [List.prefix_nil.mp hdone, List.foldl_nil]
  | cons op ops ih =>
      rw [List.forall_mem_cons, ← ih]
      constructor
      · intro hall
        have hop := hall [op] (List.prefix_append [op] ops)
        rw [List.foldl_cons, List.foldl_nil] at hop
        refine ⟨hop, fun done hdone => ?_⟩
        have hrest := hall (op :: done) (List.cons_prefix_cons.mpr ⟨rfl, hdone⟩)
        rwa [List.foldl_cons, hop] at hrest
      · rintro ⟨hop, hrest⟩ done hdone
        cases done with
        | nil => rfl
        | cons op' done =>
            obtain ⟨rfl, htail⟩ := List.cons_prefix_cons.mp hdone
            rw [List.foldl_cons, hop]
            exact hrest done htail

theorem bytesPerRow_pos_iff : (0 : ℤ) < bytesPerRow w ↔ 8 ≤ w := by
  rcases le_or_gt 0 w with hw | hw
  · rw [bytesPerRow_eq hw]
    omega
  · have := bytesPerRow_nonpos hw.le
    omega

theorem rowOps_harmless_iff {vram : ℕ} :
    (∀ op ∈ rowOps fb frame w h, ¬ op.WritesBack ∧ exec vram 0 m op = m) ↔
      ∀ y : ℕ, y < h → Visible fb h y → w < 8 ∧
        ∀ k < rowCount w, m (pixelAddr vram (rowOffset fb w h y) + k) =
          m (pixelAddr 0 (rowOffset fb w h y) + k) := by
  unfold rowOps
  simp only [List.mem_append, mem_unpackRows, mem_copyRows]
  constructor
  · intro hall y hy hvisible
    have hcopy := (hall _ (Or.inr ⟨y, hy, hvisible, rfl⟩)).2
    refine ⟨?_, Libc.fastMemcpy_eq_self_iff.mp hcopy⟩
    by_contra hw
    have hpos := bytesPerRow_pos_iff.mpr (not_lt.mp hw)
    exact (hall _ (Or.inl ⟨y, 0, hy, hvisible, hpos, rfl⟩)).1 trivial
  · rintro hrows op (⟨y, b, hy, hvisible, hb, -⟩ | ⟨y, hy, hvisible, rfl⟩)
    · have hpos := bytesPerRow_pos_iff.mp (lt_of_le_of_lt (Int.natCast_nonneg b) hb)
      exact absurd (hrows y hy hvisible).1 (not_lt.mpr hpos)
    · exact ⟨not_false, Libc.fastMemcpy_eq_self_iff.mpr (hrows y hy hvisible).2⟩

/-- The operations of a first call without a buffer. -/
theorem drawOps_harmless_iff (frame : ℕ) {rcx rdx : ℕ} :
    (∀ op ∈ drawOps fb true frame rcx rdx, ¬ op.WritesBack ∧ exec fb.address 0 s.mem op = s.mem) ↔
      NothingToDraw s fb (CInt.toI32 rcx) (CInt.toI32 rdx) := by
  unfold NothingToDraw drawOps
  rw [if_pos rfl, List.forall_mem_append, rowOps_harmless_iff]
  refine and_congr_left fun _ => ?_
  unfold openOps
  simp only [List.forall_mem_cons, List.not_mem_nil, false_imp_iff, implies_true, and_true]
  constructor
  · rintro ⟨⟨hclear, -⟩, -⟩
    exact not_not.mp hclear
  · intro hsize
    rw [hsize]
    refine ⟨⟨not_not.mpr rfl, rfl⟩, not_false, ?_⟩
    exact Libc.fastMemcpy_eq_self_iff.mpr fun k hk => absurd hk (Nat.not_lt_zero k)

/-! ## The call -/

/-- A failed `kmalloc` leaves a heap that its blocks tile as it is. -/
theorem openBackbuffer_of_null {region : Kheap.Region} {blocks : List Kheap.Block} {heap : Kheap}
    (hheap : Kheap.Represents s.mem region blocks) (hfree : s.freeList = region.start)
    (hclosed : s.backbuffer = 0)
    (hnull : Kheap.kmalloc ⟨s.mem, s.freeList⟩ (bufferSize fb) = some (0, heap)) :
    openBackbuffer s fb = some { s with backbuffer := 0, backbufferSize := bufferSize fb } := by
  have hsame : heap = ⟨s.mem, s.freeList⟩ := by
    rw [hfree] at hnull ⊢
    rcases hheap.kmalloc_cases (bufferSize fb) with ⟨hreturn, -⟩ | ⟨before, b, after, -, -, htake⟩
    · rw [hreturn, Option.some.injEq, Prod.mk.injEq] at hnull
      exact hnull.2.symm
    · rw [htake, Option.some.injEq, Prod.mk.injEq] at hnull
      have hzero := hnull.1
      unfold Kheap.headerSize at hzero
      omega
  rw [openBackbuffer, if_pos hclosed, hnull, Option.map_some, hsame]

/-- When `kmalloc` fails, the first call is harmless exactly when it has nothing to draw. -/
theorem harmless_iff {region : Kheap.Region} {blocks : List Kheap.Block} {heap : Kheap}
    (hheap : Kheap.Represents s.mem region blocks) (hfree : s.freeList = region.start)
    (hframebuffer : s.framebuffer = some fb) (hclosed : s.backbuffer = 0)
    (hnull : Kheap.kmalloc ⟨s.mem, s.freeList⟩ (bufferSize fb) = some (0, heap))
    (frame rcx rdx : ℕ) :
    Harmless s fb frame rcx rdx ↔ NothingToDraw s fb (CInt.toI32 rcx) (CInt.toI32 rdx) := by
  have hopen := openBackbuffer_of_null hheap hfree hclosed hnull
  rw [← drawOps_harmless_iff frame]
  constructor
  · rintro ⟨hwrite, hduring, -⟩ op hop
    have hkept := hduring { s with backbuffer := 0, backbufferSize := bufferSize fb } hopen
    exact ⟨hwrite op hop, foldl_exec_eq_self_iff.mp hkept op hop⟩
  · intro hall
    have hduring := foldl_exec_eq_self_iff.mpr fun op hop => (hall op hop).2
    have hreturn : s.drawFrame frame rcx rdx = some
        { s with
          mem := (drawOps fb true frame rcx rdx).foldl (exec fb.address 0) s.mem
          backbuffer := 0
          backbufferSize := bufferSize fb } := by
      rw [drawFrame, hframebuffer]
      dsimp only
      rw [hopen, Option.map_some, decide_eq_true hclosed]
      dsimp only
      rw [hframebuffer]
    refine ⟨fun op hop => (hall op hop).1, fun opened hopened => ?_, ?_⟩
    · rw [hopen, Option.some.injEq] at hopened
      rw [← hopened]
      exact hduring
    · exact ⟨_, hreturn, hduring _ (List.prefix_refl _), rfl⟩

/-- 3840 by 2160 pixels: more than the heap holds. -/
def uhd : LimineFramebuffer := ⟨0xFFFF8000FD000000, 3840, 2160, 15360⟩

/-- The first call on a fresh heap finds no block for the buffer. -/
theorem uhd_null (mem : Memory) :
    Kheap.kmalloc (Kheap.Usage.start Kheap.kernelRegion mem).heap (bufferSize uhd) =
      some (0, (Kheap.Usage.start Kheap.kernelRegion mem).heap) := by
  rcases (Kheap.kheapInitialize_represents Kheap.kernelRegion mem).kmalloc_cases (bufferSize uhd)
    with ⟨hnull, -⟩ | ⟨before, b, after, hblocks, hfits, -⟩
  · exact hnull
  · have hb : b ∈ [(⟨Kheap.kernelRegion.total, none⟩ : Kheap.Block)] := by
      rw [hblocks]
      simp
    rw [List.mem_singleton.mp hb] at hfits
    exact absurd hfits.2 (by decide)

theorem uhd_not_harmless :
    ¬ Harmless (start uhd (Kheap.Usage.start Kheap.kernelRegion fun _ => 1).heap) uhd
      0x400000 640 480 := by
  rw [harmless_iff (Kheap.kheapInitialize_represents Kheap.kernelRegion fun _ => 1) rfl rfl rfl
    (uhd_null fun _ => 1)]
  exact fun hnothing => absurd hnothing.1 (by decide)

/-- The call starts by clearing the first 33177600 bytes of memory. -/
theorem uhd_clears_null :
    Kheap.kmalloc (Kheap.Usage.start Kheap.kernelRegion fun _ => 1).heap (bufferSize uhd) =
        some (0, (Kheap.Usage.start Kheap.kernelRegion fun _ => 1).heap) ∧
      (start uhd (Kheap.Usage.start Kheap.kernelRegion fun _ => 1).heap).mem 0 = 1 ∧
      exec uhd.address 0 (start uhd (Kheap.Usage.start Kheap.kernelRegion fun _ => 1).heap).mem
        (.clear 33177600) 0 = 0 ∧
      ¬ Harmless (start uhd (Kheap.Usage.start Kheap.kernelRegion fun _ => 1).heap) uhd
        0x400000 640 480 := by
  have hclear : .clear (bufferSize uhd) ∈ drawOps uhd true 0x400000 640 480 := by
    unfold drawOps
    exact List.mem_append_left _ List.mem_cons_self
  refine ⟨uhd_null fun _ => 1, start_mem uhd (fun _ => 1) (by decide), ?_, fun hharmless => ?_⟩
  · rw [exec, Libc.memset_eq_fill, Memory.fill_inside (by decide) (by decide)]
    decide +kernel
  · exact hharmless.noWrite _ hclear (show bufferSize uhd ≠ 0 by decide)

end Display

end BadOS.Kernel
