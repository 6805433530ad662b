import BadOS.Kernel.FrameLog

/-! # The log of allocations and the bitmap

Every granted frame was free to begin with and is marked in the bitmap, so the
allocator never grants it again.
-/

namespace BadOS.Kernel

namespace Machine

/-- The log of `m` against the bitmap, which was `p₀` before the first grant. -/
structure Ledger (p₀ : Pmm) (m : Machine) : Prop where
  maxBlocks_eq : m.pmm.maxBlocks = p₀.maxBlocks
  used : ∀ c, Pmm.IsInt c → p₀.isUsed c = true → m.pmm.isUsed c = true
  marked : ∀ g ∈ m.granted, g.2 ≠ 0 → ∃ i < p₀.maxBlocks, g.2 = 4096 * i ∧
    p₀.isUsed (CInt.toI32 i) = false ∧ m.pmm.isUsed (CInt.toI32 i) = true
  nodup : (∀ g ∈ m.granted, g.2 ≠ 0) → (m.granted.map Prod.snd).Nodup

variable {p₀ : Pmm} {m m' : Machine}

theorem Ledger.refl (hgranted : m.granted = []) : Ledger m.pmm m := by
  refine ⟨rfl, fun _ _ h => h, ?_, ?_⟩ <;> simp [hgranted]

/-- An allocation grants a frame that was free, or 0. -/
theorem Ledger.alloc (hmax : p₀.maxBlocks ≤ 2 ^ 40) (hledger : Ledger p₀ m) {role : FrameRole}
    (hpmm : m'.pmm = m.pmm.pmmAllocBlock.2)
    (hgranted : m'.granted = (role, m.pmm.pmmAllocBlock.1) :: m.granted) : Ledger p₀ m' := by
  rcases m.pmm.pmmAllocBlock_cases with ⟨i, hi, hfree, -, halloc⟩ | ⟨-, halloc⟩
  · rw [hledger.maxBlocks_eq] at hi
    have haddr : Pmm.blockAddr i = 4096 * i := by
      unfold Pmm.blockAddr blockSize
      omega
    have hbit := Pmm.isInt_toI32 i
    rw [halloc] at hpmm hgranted
    dsimp only at hpmm hgranted
    rw [haddr] at hgranted
    have hkept : ∀ c, Pmm.IsInt c → m.pmm.isUsed c = true → m'.pmm.isUsed c = true := by
      intro c hc hused
      rw [hpmm, Pmm.isUsed_markUsed hbit hc, hused, Bool.or_true]
    -- Bits are only set, so a block free now was free at the start.
    have hunused : p₀.isUsed (CInt.toI32 i) = false := by
      rw [← Bool.not_eq_true]
      intro hused
      exact absurd (hledger.used _ hbit hused) (by rw [hfree]; decide)
    refine ⟨?_, fun c hc hused => hkept c hc (hledger.used c hc hused), ?_, ?_⟩
    · rw [hpmm, Pmm.markUsed_maxBlocks, hledger.maxBlocks_eq]
    · intro g hg hne
      rw [hgranted] at hg
      rcases List.mem_cons.mp hg with rfl | hold
      · refine ⟨i, hi, rfl, hunused, ?_⟩
        rw [hpmm, Pmm.isUsed_markUsed hbit hbit, decide_eq_true ⟨rfl, rfl⟩, Bool.true_or]
      · obtain ⟨j, hj, haddr', hfree', hused⟩ := hledger.marked g hold hne
        exact ⟨j, hj, haddr', hfree', hkept _ (Pmm.isInt_toI32 j) hused⟩
    · intro hne
      rw [hgranted] at hne ⊢
      rw [List.map_cons, List.nodup_cons]
      refine ⟨?_, hledger.nodup fun g hg => hne g (List.mem_cons_of_mem _ hg)⟩
      intro hmem
      obtain ⟨g, hg, heq⟩ := List.mem_map.mp hmem
      obtain ⟨j, -, haddr', -, hused⟩ := hledger.marked g hg (hne g (List.mem_cons_of_mem _ hg))
      obtain rfl : i = j := by
        dsimp only at heq
        omega
      exact absurd (hfree.symm.trans hused) (by decide)
  · rw [halloc] at hpmm hgranted
    dsimp only at hpmm hgranted
    refine ⟨by rw [hpmm, hledger.maxBlocks_eq], fun c hc hused => ?_, ?_, ?_⟩
    · rw [hpmm]
      exact hledger.used c hc hused
    · intro g hg hne
      rw [hgranted] at hg
      rw [hpmm]
      rcases List.mem_cons.mp hg with rfl | hold
      · exact absurd rfl hne
      · exact hledger.marked g hold hne
    · intro hne
      rw [hgranted] at hne
      exact absurd rfl (hne _ List.mem_cons_self)

/-- The ledger holds after any allocations. -/
theorem Ledger.allocs (hmax : p₀.maxBlocks ≤ 2 ^ 40) (hledger : Ledger p₀ m)
    (hallocs : Allocs m m') : Ledger p₀ m' := by
  induction hallocs with
  | refl hpmm hgranted =>
      obtain ⟨hblocks, hused, hmarked, hnodup⟩ := hledger
      rw [← hpmm] at hblocks hused hmarked
      rw [← hgranted] at hmarked hnodup
      exact ⟨hblocks, hused, hmarked, hnodup⟩
  | alloc role hallocs hpmm hgranted ih => exact ih.alloc hmax hpmm hgranted

/-! ## Supply -/

/-- No allocation has failed. -/
def NeverNull (m : Machine) : Prop := ∀ g ∈ m.granted, g.2 ≠ 0

theorem NeverNull.of_allocs (hallocs : Allocs m m') (hnull : m'.NeverNull) : m.NeverNull :=
  fun g hg => hnull g (hallocs.granted.subset hg)

/-- The blocks below `start` are in use, the others are free. -/
structure FreeFrom (m : Machine) (start : ℕ) : Prop where
  pos : 0 < start
  maxBlocks : m.pmm.maxBlocks < 2 ^ 31
  used : ∀ i < m.pmm.maxBlocks, m.pmm.isUsed (i : ℤ) = decide (i < start)

theorem FreeFrom.alloc {start : ℕ} {role : FrameRole} (hfree : FreeFrom m start)
    (hroom : start < m.pmm.maxBlocks) (hpmm : m'.pmm = m.pmm.pmmAllocBlock.2)
    (hgranted : m'.granted = (role, m.pmm.pmmAllocBlock.1) :: m.granted)
    (hnull : m.NeverNull) : FreeFrom m' (start + 1) ∧ m'.NeverNull ∧
      m'.pmm.maxBlocks = m.pmm.maxBlocks := by
  have hbound := hfree.maxBlocks
  have hcast : ∀ i < m.pmm.maxBlocks, CInt.toI32 i = i :=
    fun i hi => CInt.toI32_natCast (by omega)
  rcases m.pmm.pmmAllocBlock_cases with ⟨i, hi, hunused, hlowest, halloc⟩ | ⟨hall, -⟩
  · have hlow : ¬ i < start := by
      rw [hcast i hi, hfree.used i hi] at hunused
      exact of_decide_eq_false hunused
    -- The lowest free block is the first one of the free end.
    have hfirst : i = start := by
      by_contra hne
      have hused := hlowest start (by omega)
      rw [hcast start hroom, hfree.used start hroom] at hused
      exact absurd (of_decide_eq_true hused) (lt_irrefl _)
    subst hfirst
    rw [halloc, hcast i hi] at hpmm
    rw [halloc] at hgranted
    dsimp only at hpmm hgranted
    have hmax : m'.pmm.maxBlocks = m.pmm.maxBlocks := by rw [hpmm, Pmm.markUsed_maxBlocks]
    refine ⟨⟨Nat.succ_pos i, by omega, fun j hj => ?_⟩, ?_, hmax⟩
    · rw [hmax] at hj
      rw [hpmm, Pmm.isUsed_markUsed (Pmm.isInt_natCast (by omega)) (Pmm.isInt_natCast (by omega)),
        hfree.used j hj]
      simp only [Pmm.sameBit_natCast]
      by_cases hij : j = i
      · simp [hij]
      · rw [decide_eq_false hij, Bool.false_or, decide_eq_decide]
        omega
    · intro g hg
      rw [hgranted] at hg
      rcases List.mem_cons.mp hg with rfl | hold
      · have hpos := hfree.pos
        dsimp only
        unfold Pmm.blockAddr blockSize
        omega
      · exact hnull g hold
  · have hused := hall start hroom
    rw [hcast start hroom, hfree.used start hroom] at hused
    exact absurd (of_decide_eq_true hused) (lt_irrefl _)

/-- As long as the log fits into the free blocks no allocation fails. -/
theorem FreeFrom.allocs {start : ℕ} (hfree : FreeFrom m start) (hnull : m.NeverNull)
    (hallocs : Allocs m m')
    (hroom : start + m'.granted.length ≤ m.pmm.maxBlocks + m.granted.length) :
    m'.NeverNull := by
  have hall : m'.NeverNull ∧ m'.pmm.maxBlocks = m.pmm.maxBlocks ∧
      ∃ start', FreeFrom m' start' ∧
        start' + m.granted.length = start + m'.granted.length := by
    induction hallocs with
    | refl hpmm hgranted =>
        obtain ⟨hpos, hmax, hused⟩ := hfree
        unfold NeverNull at hnull ⊢
        rw [hgranted, hpmm]
        rw [← hpmm] at hmax hused
        exact ⟨hnull, rfl, start, ⟨hpos, hmax, hused⟩, rfl⟩
    | alloc role hallocs hpmm hgranted ih =>
        have hlength := congrArg List.length hgranted
        rw [List.length_cons] at hlength
        obtain ⟨hnull', hmax, start', hfree', hstart⟩ := ih (by omega)
        obtain ⟨hnext, hnull'', hmax'⟩ :=
          hfree'.alloc (by omega) hpmm hgranted hnull'
        exact ⟨hnull'', hmax'.trans hmax, start' + 1, hnext, by omega⟩
  exact hall.1

/-! ## Number of allocations -/

theorem ensureTable_length (m : Machine) (role : FrameRole) (table k : ℕ) :
    (m.ensureTable role table k).granted.length ≤ m.granted.length + 1 := by
  by_cases h : entry m.mem table k &&& 1 = 0
  · rw [ensureTable_of_absent h]
    exact le_refl _
  · rw [ensureTable_of_present h]
    exact Nat.le_succ _

theorem vmmMapPage_length (m : Machine) (phys virt flags : ℕ) :
    (m.vmmMapPage phys virt flags).granted.length ≤ m.granted.length + 3 := by
  obtain ⟨pdpt, pd, mem, hstages⟩ := vmmMapPage_stages m phys virt flags
  have hfirst := ensureTable_length m .pdpt m.getActivePageDir (index virt 39)
  have hsecond := (ensureTable_length _ .pd pdpt (index virt 30)).trans (Nat.succ_le_succ hfirst)
  have hthird := (ensureTable_length _ .pt pd (index virt 21)).trans (Nat.succ_le_succ hsecond)
  rw [hstages]
  exact hthird

end Machine

end BadOS.Kernel
