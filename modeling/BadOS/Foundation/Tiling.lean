import Mathlib.Tactic

/-! # Blocks laid one after another

A list of blocks with sizes, placed from a start address without gaps. Blocks
placed at different positions do not overlap, and replacing a stretch of blocks
by one of the same extent leaves the others where they were.
-/

namespace Tiling

variable {β : Type*} (size : β → ℕ)

/-- The length of the range a list of blocks covers. -/
def extent (blocks : List β) : ℕ := (blocks.map size).sum

/-- Each block with its start address. -/
def place (a : ℕ) : List β → List (ℕ × β)
  | [] => []
  | b :: rest => (a, b) :: place (a + size b) rest

@[simp] theorem extent_nil : extent size [] = 0 := rfl

@[simp] theorem extent_cons (b : β) (rest : List β) :
    extent size (b :: rest) = size b + extent size rest := by
  simp [extent]

@[simp] theorem extent_append (left right : List β) :
    extent size (left ++ right) = extent size left + extent size right := by
  simp [extent]

@[simp] theorem place_nil (a : ℕ) : place size a [] = [] := rfl

@[simp] theorem place_cons (a : ℕ) (b : β) (rest : List β) :
    place size a (b :: rest) = (a, b) :: place size (a + size b) rest := rfl

theorem place_append (a : ℕ) (left right : List β) :
    place size a (left ++ right) =
      place size a left ++ place size (a + extent size left) right := by
  induction left generalizing a with
  | nil => simp
  | cons b rest ih => simp [ih, Nat.add_assoc]

variable {size} {a : ℕ} {blocks : List β} {p q : ℕ × β}

theorem snd_mem_of_mem_place (hp : p ∈ place size a blocks) : p.2 ∈ blocks := by
  induction blocks generalizing a with
  | nil => simp at hp
  | cons b rest ih =>
      rw [place_cons, List.mem_cons] at hp
      rcases hp with rfl | hp
      · exact List.mem_cons_self
      · exact List.mem_cons_of_mem _ (ih hp)

theorem mem_place_bounds (hp : p ∈ place size a blocks) :
    a ≤ p.1 ∧ p.1 + size p.2 ≤ a + extent size blocks := by
  induction blocks generalizing a with
  | nil => simp at hp
  | cons b rest ih =>
      rw [place_cons, List.mem_cons] at hp
      rw [extent_cons]
      rcases hp with rfl | hp
      · simp only
        omega
      · have := ih hp
        omega

/-- A placed block splits the list into what lies before and after it. -/
theorem exists_split_of_mem_place (hp : p ∈ place size a blocks) :
    ∃ before after, blocks = before ++ p.2 :: after ∧ p.1 = a + extent size before := by
  induction blocks generalizing a with
  | nil => simp at hp
  | cons b rest ih =>
      rw [place_cons, List.mem_cons] at hp
      rcases hp with rfl | hp
      · exact ⟨[], rest, rfl, rfl⟩
      · obtain ⟨before, after, hrest, haddr⟩ := ih hp
        refine ⟨b :: before, after, by rw [hrest, List.cons_append], ?_⟩
        rw [haddr, extent_cons, Nat.add_assoc]

/-- Placed blocks lie in increasing order and do not overlap. -/
theorem place_pairwise (size : β → ℕ) (a : ℕ) (blocks : List β) :
    (place size a blocks).Pairwise (fun p q => p.1 + size p.2 ≤ q.1) := by
  induction blocks generalizing a with
  | nil => exact List.Pairwise.nil
  | cons b rest ih =>
      rw [place_cons, List.pairwise_cons]
      exact ⟨fun q hq => (mem_place_bounds hq).1, ih _⟩

theorem eq_or_disjoint_of_mem_place (hp : p ∈ place size a blocks)
    (hq : q ∈ place size a blocks) :
    p = q ∨ p.1 + size p.2 ≤ q.1 ∨ q.1 + size q.2 ≤ p.1 := by
  have hpair := place_pairwise size a blocks
  rw [List.pairwise_iff_getElem] at hpair
  obtain ⟨i, hi, rfl⟩ := List.getElem_of_mem hp
  obtain ⟨j, hj, rfl⟩ := List.getElem_of_mem hq
  rcases Nat.lt_trichotomy i j with hlt | rfl | hgt
  · exact Or.inr (Or.inl (hpair i j hi hj hlt))
  · exact Or.inl rfl
  · exact Or.inr (Or.inr (hpair j i hj hi hgt))

/-- Blocks of positive size are determined by their address. -/
theorem eq_of_mem_place (hpos : ∀ b ∈ blocks, 0 < size b) (hp : p ∈ place size a blocks)
    (hq : q ∈ place size a blocks) (haddr : p.1 = q.1) : p = q := by
  have hsizeP := hpos p.2 (snd_mem_of_mem_place hp)
  have hsizeQ := hpos q.2 (snd_mem_of_mem_place hq)
  rcases eq_or_disjoint_of_mem_place hp hq with heq | hpq | hqp
  · exact heq
  · omega
  · omega

/-- Blocks of positive size are at most as many as the bytes they cover. -/
theorem length_le_extent (hpos : ∀ b ∈ blocks, 0 < size b) :
    blocks.length ≤ extent size blocks := by
  induction blocks with
  | nil => simp
  | cons b rest ih =>
      have hb := hpos b List.mem_cons_self
      have hrest := ih (fun c hc => hpos c (List.mem_cons_of_mem _ hc))
      rw [List.length_cons, extent_cons]
      omega

/-- Membership in a placement with a stretch of blocks in the middle. -/
theorem mem_place_middle {before middle after : List β} :
    p ∈ place size a (before ++ middle ++ after) ↔
      p ∈ place size a before ∨ p ∈ place size (a + extent size before) middle ∨
        p ∈ place size (a + extent size before + extent size middle) after := by
  simp only [place_append, extent_append, List.mem_append, Nat.add_assoc, or_assoc]

/-- A block stands where the blocks before it end. -/
theorem mem_place_split (b : β) (before after : List β) :
    (a + extent size before, b) ∈ place size a (before ++ [b] ++ after) :=
  mem_place_middle.mpr (Or.inr (Or.inl (by simp)))

end Tiling
