import Mathlib.Tactic

/-! # Radix trees in a store of tables

Tables live in frames; an entry may refer to the frame of a child table. From a
root frame a path of indices leads to a table. As long as no table is reached by
two paths, writing one entry affects only the paths through it.
-/

namespace RadixTree

variable {F I E : Type*} (child : E → Option F)

/-- The frame a path leads to. -/
def node (store : F → I → E) : F → List I → Option F
  | f, [] => some f
  | f, i :: rest => (child (store f i)).bind fun g => node store g rest

/-- The entry with index `i` of the table at the end of `path`, when it refers
to a frame. -/
def lookup (store : F → I → E) (root : F) (path : List I) (i : I) : Option E :=
  (node child store root path).bind fun f =>
    if (child (store f i)).isSome then some (store f i) else none

/-- No frame is reached by two paths of the set. -/
def IsTree (store : F → I → E) (root : F) (paths : Set (List I)) : Prop :=
  ∀ p ∈ paths, ∀ q ∈ paths, ∀ f, node child store root p = some f →
    node child store root q = some f → p = q

/-- A set of paths closed under dropping the last index. -/
def PrefixClosed (paths : Set (List I)) : Prop := ∀ p i, p ++ [i] ∈ paths → p ∈ paths

section Stores

variable [DecidableEq F] [DecidableEq I]

def setEntry (store : F → I → E) (f : F) (i : I) (e : E) : F → I → E :=
  fun g j => if g = f ∧ j = i then e else store g j

/-- Every entry of one table set to `e`. -/
def clear (store : F → I → E) (f : F) (e : E) : F → I → E :=
  fun g j => if g = f then e else store g j

end Stores

variable {child} {store store' : F → I → E} {root f g n : F} {p q : List I} {i j : I} {e e₀ : E}
variable {paths : Set (List I)}

@[simp] theorem node_nil (root : F) : node child store root [] = some root := rfl

theorem node_append (root : F) (p q : List I) :
    node child store root (p ++ q) =
      (node child store root p).bind fun f => node child store f q := by
  induction p generalizing root with
  | nil => rfl
  | cons i rest ih =>
      rw [List.cons_append, node, node]
      cases child (store root i) with
      | none => rfl
      | some g => exact ih g

theorem node_concat (root : F) (p : List I) (i : I) :
    node child store root (p ++ [i]) =
      (node child store root p).bind fun f => child (store f i) := by
  rw [node_append]
  congr 1
  funext f
  rw [node]
  cases child (store f i) <;> rfl

/-- A path that leads to a frame has its initial parts do so. -/
theorem node_ne_none_of_prefix (hpre : p <+: q) (hnode : node child store root q ≠ none) :
    node child store root p ≠ none := by
  obtain ⟨rest, rfl⟩ := hpre
  rw [node_append] at hnode
  intro hnone
  rw [hnone] at hnode
  exact hnode rfl

/-- Paths whose entries refer to the same frames lead to the same frame. -/
theorem node_congr (hpaths : PrefixClosed paths) (hq : q ∈ paths)
    (hsame : ∀ r j, r ++ [j] ∈ paths → r ++ [j] <+: q → ∀ f, node child store root r = some f →
      child (store' f j) = child (store f j)) :
    node child store' root q = node child store root q := by
  induction q using List.reverseRecOn with
  | nil => rfl
  | append_singleton r j ih =>
      have hr := ih (hpaths r j hq) fun r' j' hmem hpre =>
        hsame r' j' hmem (hpre.trans (List.prefix_append r [j]))
      rw [node_concat, node_concat, hr]
      cases hnode : node child store root r with
      | none => rfl
      | some f => exact hsame r j hq (List.prefix_refl _) f hnode

section Updates

variable [DecidableEq F] [DecidableEq I]

/-- Writing an entry changes only the paths through it. -/
theorem IsTree.node_setEntry (htree : IsTree child store root paths)
    (hpaths : PrefixClosed paths) (hp : p ∈ paths) (hnode : node child store root p = some f)
    (hq : q ∈ paths) (hpre : ¬ p ++ [i] <+: q) :
    node child (setEntry store f i e) root q = node child store root q := by
  apply node_congr hpaths hq
  intro r j hr hrq g hg
  unfold setEntry
  rw [if_neg]
  rintro ⟨rfl, rfl⟩
  have heq := htree r (hpaths r j hr) p hp g hg hnode
  rw [heq] at hrq
  exact hpre hrq

/-- Linking a cleared fresh table at an absent entry adds one path. -/
theorem IsTree.node_link (htree : IsTree child store root paths) (hpaths : PrefixClosed paths)
    (hp : p ++ [i] ∈ paths) (hnode : node child store root p = some f)
    (habsent : child (store f i) = none)
    (hfresh : ∀ q ∈ paths, node child store root q ≠ some n) (he : child e = some n)
    (he₀ : child e₀ = none) (hq : q ∈ paths) :
    node child (setEntry (clear store n e₀) f i e) root q =
      if q = p ++ [i] then some n else node child store root q := by
  have hfn : f ≠ n := fun heq => hfresh p (hpaths p i hp) (heq ▸ hnode)
  induction q using List.reverseRecOn with
  | nil => rw [if_neg (by simp), node_nil, node_nil]
  | append_singleton r j ih =>
      have hr := hpaths r j hq
      rw [node_concat, ih hr, node_concat]
      by_cases hlinked : r = p ++ [i]
      · -- Below the new entry there was nothing, and the new table is empty.
        have hne : r ++ [j] ≠ p ++ [i] := by
          intro heq
          have := congrArg List.length heq
          simp [hlinked] at this
        rw [if_pos hlinked, if_neg hne, hlinked, node_concat, hnode]
        simp only [Option.bind_some, habsent, Option.bind_none, setEntry, clear]
        rw [if_neg (fun h => hfn h.1.symm), if_pos True.intro, he₀]
      · rw [if_neg hlinked]
        cases hg : node child store root r with
        | none =>
            have hne : r ++ [j] ≠ p ++ [i] := by
              intro heq
              obtain ⟨rfl, -⟩ := List.append_inj' heq rfl
              exact nomatch hnode.symm.trans hg
            rw [if_neg hne, Option.bind_none, Option.bind_none]
        | some g =>
            have hgn : g ≠ n := fun heq => hfresh r hr (heq ▸ hg)
            simp only [Option.bind_some, setEntry, clear, if_neg hgn]
            by_cases hentry : r ++ [j] = p ++ [i]
            · obtain ⟨rfl, hj⟩ := List.append_inj' hentry rfl
              have hgf : g = f := Option.some_injective _ (hg.symm.trans hnode)
              rw [if_pos hentry, if_pos ⟨hgf, by simpa using hj⟩, he]
            · rw [if_neg hentry, if_neg]
              rintro ⟨rfl, rfl⟩
              have := htree r hr p (hpaths p j hp) g hg hnode
              exact hentry (by rw [this])

/-- Linking a fresh table leaves a tree. -/
theorem IsTree.link (htree : IsTree child store root paths) (hpaths : PrefixClosed paths)
    (hp : p ++ [i] ∈ paths) (hnode : node child store root p = some f)
    (habsent : child (store f i) = none)
    (hfresh : ∀ q ∈ paths, node child store root q ≠ some n) (he : child e = some n)
    (he₀ : child e₀ = none) :
    IsTree child (setEntry (clear store n e₀) f i e) root paths := by
  intro q hq r hr g hqg hrg
  rw [htree.node_link hpaths hp hnode habsent hfresh he he₀ hq] at hqg
  rw [htree.node_link hpaths hp hnode habsent hfresh he he₀ hr] at hrg
  split at hqg
  next hqlink =>
    obtain rfl := Option.some_injective _ hqg
    split at hrg
    next hrlink => rw [hqlink, hrlink]
    next => exact absurd hrg (hfresh r hr)
  next =>
    split at hrg
    next =>
      obtain rfl := Option.some_injective _ hrg
      exact absurd hqg (hfresh q hq)
    next => exact htree q hq r hr g hqg hrg

/-- Linking a fresh table changes no lookup, the entry itself apart. -/
theorem IsTree.lookup_link (htree : IsTree child store root paths) (hpaths : PrefixClosed paths)
    (hp : p ++ [i] ∈ paths) (hnode : node child store root p = some f)
    (habsent : child (store f i) = none)
    (hfresh : ∀ q ∈ paths, node child store root q ≠ some n) (he : child e = some n)
    (he₀ : child e₀ = none) (hq : q ∈ paths) (hqp : q ≠ p) :
    lookup child (setEntry (clear store n e₀) f i e) root q j = lookup child store root q j := by
  have hfn : f ≠ n := fun heq => hfresh p (hpaths p i hp) (heq ▸ hnode)
  unfold lookup
  rw [htree.node_link hpaths hp hnode habsent hfresh he he₀ hq]
  by_cases hlink : q = p ++ [i]
  · have hnone : node child store root q = none := by
      rw [hlink, node_concat, hnode, Option.bind_some, habsent]
    rw [if_pos hlink, hnone, Option.bind_some, Option.bind_none]
    have hentry : setEntry (clear store n e₀) f i e n j = e₀ := by
      simp only [setEntry, clear]
      rw [if_neg (fun h => hfn h.1.symm), if_pos True.intro]
    rw [hentry, he₀]
    rfl
  · rw [if_neg hlink]
    cases hg : node child store root q with
    | none => rfl
    | some g =>
        have hgn : g ≠ n := fun heq => hfresh q hq (heq ▸ hg)
        have hgf : g ≠ f := by
          rintro rfl
          exact hqp (htree q hq p (hpaths p i hp) g hg hnode)
        have hentry : setEntry (clear store n e₀) f i e g j = store g j := by
          simp only [setEntry, clear]
          rw [if_neg (fun h => hgf h.1), if_neg hgn]
        simp only [Option.bind_some, hentry]

/-- Writing an entry no path of the set goes through leaves a tree. -/
theorem IsTree.setEntry (htree : IsTree child store root paths) (hpaths : PrefixClosed paths)
    (hp : p ∈ paths) (hnode : node child store root p = some f)
    (hleaf : ∀ q ∈ paths, ¬ p ++ [i] <+: q) :
    IsTree child (setEntry store f i e) root paths := by
  intro q hq r hr g hqg hrg
  rw [htree.node_setEntry hpaths hp hnode hq (hleaf q hq)] at hqg
  rw [htree.node_setEntry hpaths hp hnode hr (hleaf r hr)] at hrg
  exact htree q hq r hr g hqg hrg

/-- Writing such an entry changes its own lookup and no other. -/
theorem IsTree.lookup_setEntry (htree : IsTree child store root paths)
    (hpaths : PrefixClosed paths) (hp : p ∈ paths) (hnode : node child store root p = some f)
    (hleaf : ∀ q ∈ paths, ¬ p ++ [i] <+: q) (he : (child e).isSome) (hq : q ∈ paths) :
    lookup child (RadixTree.setEntry store f i e) root q j =
      if q = p ∧ j = i then some e else lookup child store root q j := by
  unfold lookup
  rw [htree.node_setEntry hpaths hp hnode hq (hleaf q hq)]
  cases hg : node child store root q with
  | none =>
      have hne : ¬ (q = p ∧ j = i) := by
        rintro ⟨rfl, -⟩
        exact nomatch hnode.symm.trans hg
      rw [if_neg hne, Option.bind_none, Option.bind_none]
  | some g =>
      by_cases hsame : q = p ∧ j = i
      · obtain ⟨rfl, rfl⟩ := hsame
        obtain rfl := Option.some_injective _ (hg.symm.trans hnode)
        simp [RadixTree.setEntry, he]
      · have hentry : RadixTree.setEntry store f i e g j = store g j := by
          unfold RadixTree.setEntry
          rw [if_neg]
          rintro ⟨rfl, rfl⟩
          exact hsame ⟨htree q hq p hp g hg hnode, rfl⟩
        simp only [if_neg hsame, Option.bind_some, hentry]

end Updates

section Chains

variable [DecidableEq I] {chain : List (I × F)}

variable (child) in
/-- Tables of which each refers to the next at one index, and the last to none. -/
def Chain (store : F → I → E) : F → List (I × F) → Prop
  | f, [] => ∀ i, child (store f i) = none
  | f, (i, g) :: rest =>
      (∀ j, child (store f j) = if j = i then some g else none) ∧ Chain store g rest

theorem Chain.node_cons (hchain : Chain child store f chain)
    (hnode : node child store f (i :: p) = some g) :
    ∃ h rest, chain = (i, h) :: rest ∧ Chain child store h rest ∧
      node child store h p = some g := by
  rw [node] at hnode
  cases chain with
  | nil =>
      rw [hchain i] at hnode
      cases hnode
  | cons step rest =>
      rw [hchain.1 i] at hnode
      split at hnode
      next hi => exact ⟨step.2, rest, by rw [hi], hchain.2, hnode⟩
      next => cases hnode

/-- The paths of a chain are its initial parts. -/
theorem Chain.node_mem (hchain : Chain child store f chain)
    (hnode : node child store f p = some g) :
    (p, g) ∈ chain.inits.map fun part => (part.map Prod.fst, (part.map Prod.snd).getLastD f) := by
  induction p generalizing f chain with
  | nil =>
      obtain rfl := Option.some_injective _ hnode
      exact List.mem_map.mpr ⟨[], by simp, rfl⟩
  | cons i p ih =>
      obtain ⟨h, rest, rfl, hrest, hnode⟩ := hchain.node_cons hnode
      obtain ⟨part, hpart, heq⟩ := List.mem_map.mp (ih hrest hnode)
      obtain ⟨rfl, rfl⟩ := Prod.mk.inj heq
      refine List.mem_map.mpr ⟨(i, h) :: part, ?_, ?_⟩
      · rw [List.mem_inits] at hpart ⊢
        exact (List.prefix_cons_inj (i, h)).mpr hpart
      · rw [List.map_cons, List.map_cons, List.getLastD_cons]

theorem Chain.mem_of_node (hchain : Chain child store f chain)
    (hnode : node child store f p = some g) : g ∈ f :: chain.map Prod.snd := by
  obtain ⟨part, hpart, heq⟩ := List.mem_map.mp (hchain.node_mem hnode)
  obtain ⟨-, rfl⟩ := Prod.mk.inj heq
  have hsub := ((List.mem_inits _ _).mp hpart).map Prod.snd
  exact List.cons_subset_cons f hsub.subset List.getLastD_mem_cons

/-- A chain of distinct tables is a tree. -/
theorem Chain.isTree (hchain : Chain child store f chain)
    (hnodup : (f :: chain.map Prod.snd).Nodup) : IsTree child store f paths := by
  rintro p - q - g hp hq
  induction p generalizing f chain q with
  | nil =>
      obtain rfl := Option.some_injective _ hp
      cases q with
      | nil => rfl
      | cons j q =>
          obtain ⟨h, rest, rfl, hrest, hq⟩ := hchain.node_cons hq
          exact absurd (hrest.mem_of_node hq) (List.nodup_cons.mp hnodup).1
  | cons i p ih =>
      obtain ⟨h, rest, rfl, hrest, hp⟩ := hchain.node_cons hp
      obtain ⟨hnot, hnodup⟩ := List.nodup_cons.mp hnodup
      cases q with
      | nil =>
          obtain rfl := Option.some_injective _ hq
          exact absurd (hrest.mem_of_node hp) hnot
      | cons j q =>
          obtain ⟨h', rest', heq, -, hq⟩ := hchain.node_cons hq
          obtain ⟨hstep, rfl⟩ := List.cons.inj heq
          obtain ⟨rfl, rfl⟩ := Prod.mk.inj hstep
          rw [ih hrest hnodup q hp hq]

end Chains

end RadixTree
