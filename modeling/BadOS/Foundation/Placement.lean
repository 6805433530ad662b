import Mathlib.Tactic

/-! # Placed blocks

Blocks that were placed beforehand are written one after the other: the output is
padded up to the place of the next block. If the places ascend, every block ends up
where it was placed.
-/

namespace Placement

variable {α : Type*} (pad : α)

/-- Pad the output up to a position that it has not passed. -/
def padTo (out : List α) (target : ℕ) : List α :=
  out ++ List.replicate (target - out.length) pad

/-- Write the blocks, each with the place it was given. -/
def emit (out : List α) (blocks : List (ℕ × List α)) : List α :=
  blocks.foldl (fun out block => padTo pad out block.1 ++ block.2) out

/-- From `pos` on the blocks follow one another. -/
def Ascending : ℕ → List (ℕ × List α) → Prop
  | _, [] => True
  | pos, block :: blocks => pos ≤ block.1 ∧ Ascending (block.1 + block.2.length) blocks

variable {pad} {pos : ℕ} {out : List α} {block : ℕ × List α} {blocks : List (ℕ × List α)}

theorem Ascending.le_of_mem (h : Ascending pos blocks) (hblock : block ∈ blocks) :
    pos ≤ block.1 := by
  induction blocks generalizing pos with
  | nil => cases hblock
  | cons first blocks ih =>
      rcases List.mem_cons.mp hblock with rfl | hblock
      · exact h.1
      · exact h.1.trans ((Nat.le_add_right _ _).trans (ih h.2 hblock))

theorem Ascending.pairwise (h : Ascending pos blocks) :
    blocks.Pairwise fun block later => block.1 + block.2.length ≤ later.1 := by
  induction blocks generalizing pos with
  | nil => exact List.Pairwise.nil
  | cons first blocks ih =>
      exact List.pairwise_cons.mpr ⟨fun later hlater => h.2.le_of_mem hlater, ih h.2⟩

theorem length_padTo (pad : α) {target : ℕ} (h : out.length ≤ target) :
    (padTo pad out target).length = target := by
  rw [padTo, List.length_append, List.length_replicate, Nat.add_sub_cancel' h]

/-- What was written stays in front. -/
theorem emit_eq_append (pad : α) (out : List α) (blocks : List (ℕ × List α)) :
    ∃ rest, emit pad out blocks = out ++ rest := by
  induction blocks generalizing out with
  | nil => exact ⟨[], (List.append_nil out).symm⟩
  | cons first blocks ih =>
      obtain ⟨rest, hrest⟩ := ih (padTo pad out first.1 ++ first.2)
      refine ⟨List.replicate (first.1 - out.length) pad ++ first.2 ++ rest, ?_⟩
      rw [emit, List.foldl_cons]
      rw [emit] at hrest
      rw [hrest, padTo]
      simp only [List.append_assoc]

/-- Every block is found where it was placed. -/
theorem emit_block (h : Ascending out.length blocks) (hblock : block ∈ blocks) :
    ((emit pad out blocks).drop block.1).take block.2.length = block.2 := by
  induction blocks generalizing out with
  | nil => cases hblock
  | cons first blocks ih =>
      have hpad := length_padTo pad h.1
      have hnext : Ascending (padTo pad out first.1 ++ first.2).length blocks := by
        rw [List.length_append, hpad]
        exact h.2
      rcases List.mem_cons.mp hblock with rfl | hblock
      · obtain ⟨rest, hrest⟩ := emit_eq_append pad (padTo pad out block.1 ++ block.2) blocks
        rw [emit, List.foldl_cons]
        rw [emit] at hrest
        rw [hrest, List.append_assoc, List.drop_left' hpad, List.take_left]
      · exact ih hnext hblock

/-- Disjoint ranges below a bound are together no longer than the bound. -/
theorem sum_le_of_disjoint {ranges : List (ℕ × ℕ)} {bound : ℕ}
    (hdisjoint : ranges.Pairwise fun r r' => r.1 + r.2 ≤ r'.1 ∨ r'.1 + r'.2 ≤ r.1)
    (hbound : ∀ r ∈ ranges, r.1 + r.2 ≤ bound) : (ranges.map Prod.snd).sum ≤ bound := by
  have hcover : ∃ covered : Finset ℕ, covered.card = (ranges.map Prod.snd).sum ∧
      ∀ x ∈ covered, x < bound ∧ ∃ r ∈ ranges, r.1 ≤ x ∧ x < r.1 + r.2 := by
    induction ranges with
    | nil => exact ⟨∅, rfl, fun x hx => absurd hx (Finset.notMem_empty x)⟩
    | cons r ranges ih =>
        rw [List.pairwise_cons] at hdisjoint
        obtain ⟨covered, hcard, hcovered⟩ :=
          ih hdisjoint.2 fun r' hr' => hbound r' (List.mem_cons_of_mem r hr')
        have hle := hbound r List.mem_cons_self
        have hapart : Disjoint (Finset.Ico r.1 (r.1 + r.2)) covered := by
          refine Finset.disjoint_left.mpr fun x hx hx' => ?_
          obtain ⟨-, r', hr', hlo, hhi⟩ := hcovered x hx'
          have := hdisjoint.1 r' hr'
          rw [Finset.mem_Ico] at hx
          omega
        refine ⟨Finset.Ico r.1 (r.1 + r.2) ∪ covered, ?_, fun x hx => ?_⟩
        · rw [Finset.card_union_of_disjoint hapart, Nat.card_Ico, hcard, List.map_cons,
            List.sum_cons, Nat.add_sub_cancel_left]
        · rcases Finset.mem_union.mp hx with hx | hx
          · rw [Finset.mem_Ico] at hx
            exact ⟨by omega, r, List.mem_cons_self, hx⟩
          · obtain ⟨hlt, r', hr', hin⟩ := hcovered x hx
            exact ⟨hlt, r', List.mem_cons_of_mem r hr', hin⟩
  obtain ⟨covered, hcard, hcovered⟩ := hcover
  have hsub : covered ⊆ Finset.range bound :=
    fun x hx => Finset.mem_range.mpr (hcovered x hx).1
  rw [← hcard, ← Finset.card_range bound]
  exact Finset.card_le_card hsub

end Placement
