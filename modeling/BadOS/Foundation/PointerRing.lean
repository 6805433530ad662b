import Mathlib.Tactic

/-! # Rings of pointers

A ring is a cycle of successors. From each of its members it is a list without
repetition, and from another member the list is rotated.
-/

namespace PointerRing

variable {α : Type*} {next next' : α → α} {a b new start : α} {l l₁ l₂ : List α}

/-- Following `next` from `a` passes through `l` and then comes to `b`. -/
def Path (next : α → α) : α → List α → α → Prop
  | a, [], b => a = b
  | a, x :: l, b => a = x ∧ Path next (next x) l b

theorem path_append :
    Path next a (l₁ ++ l₂) b ↔ ∃ c, Path next a l₁ c ∧ Path next c l₂ b := by
  induction l₁ generalizing a with
  | nil => simp [Path]
  | cons x l₁ ih =>
      simp only [List.cons_append, Path, ih]
      constructor
      · rintro ⟨rfl, c, hfirst, hlast⟩
        exact ⟨c, ⟨rfl, hfirst⟩, hlast⟩
      · rintro ⟨c, ⟨rfl, hfirst⟩, hlast⟩
        exact ⟨rfl, c, hfirst, hlast⟩

theorem Path.congr (hpath : Path next a l b) (hsame : ∀ x ∈ l, next' x = next x) :
    Path next' a l b := by
  induction l generalizing a with
  | nil => exact hpath
  | cons x l ih =>
      refine ⟨hpath.1, ?_⟩
      rw [hsame x List.mem_cons_self]
      exact ih hpath.2 fun y hy => hsame y (List.mem_cons_of_mem x hy)

/-- The members of a path are the iterates of `next`. -/
theorem Path.getElem?_eq (hpath : Path next a l b) {i : ℕ} (hi : i < l.length) :
    l[i]? = some (next^[i] a) := by
  induction l generalizing a i with
  | nil => exact absurd hi (Nat.not_lt_zero i)
  | cons x l ih =>
      obtain ⟨rfl, htail⟩ := hpath
      cases i with
      | zero => rfl
      | succ i =>
          rw [List.getElem?_cons_succ, Function.iterate_succ_apply]
          exact ih htail (Nat.lt_of_succ_lt_succ hi)

theorem Path.iterate_length (hpath : Path next a l b) : next^[l.length] a = b := by
  induction l generalizing a with
  | nil => exact hpath
  | cons x l ih =>
      obtain ⟨rfl, htail⟩ := hpath
      rw [List.length_cons, Function.iterate_succ_apply]
      exact ih htail

/-- From `start` the ring is the list `l`. -/
structure IsRing (next : α → α) (start : α) (l : List α) : Prop where
  path : Path next start l start
  nodup : l.Nodup
  mem : start ∈ l

theorem isRing_singleton (hself : next a = a) : IsRing next a [a] :=
  ⟨⟨rfl, hself⟩, List.nodup_singleton a, List.mem_singleton_self a⟩

theorem IsRing.exists_eq_cons (hring : IsRing next start l) : ∃ tail, l = start :: tail := by
  have hmem := hring.mem
  have hpath := hring.path
  cases l with
  | nil => cases hmem
  | cons x l => exact ⟨l, by rw [hpath.1]⟩

/-- The ring from another member. -/
theorem IsRing.of_mem (hring : IsRing next start l) (ha : a ∈ l) :
    ∃ l', IsRing next a l' ∧ l'.Perm l := by
  obtain ⟨s, t, rfl⟩ := List.append_of_mem ha
  obtain ⟨c, hfirst, hlast⟩ := path_append.mp hring.path
  obtain rfl : c = a := hlast.1
  have hperm : ((c :: t) ++ s).Perm (s ++ c :: t) := List.perm_append_comm
  refine ⟨(c :: t) ++ s, ⟨path_append.mpr ⟨start, hlast, hfirst⟩, ?_, ?_⟩, hperm⟩
  · exact hperm.nodup_iff.mpr hring.nodup
  · exact List.mem_append_left s List.mem_cons_self

theorem IsRing.next_mem (hring : IsRing next start l) (ha : a ∈ l) : next a ∈ l := by
  obtain ⟨l', hring', hperm⟩ := hring.of_mem ha
  obtain ⟨tail, rfl⟩ := hring'.exists_eq_cons
  apply hperm.subset
  obtain ⟨-, htail⟩ := hring'.path
  cases tail with
  | nil => exact List.mem_singleton.mpr htail
  | cons x tail => exact List.mem_cons_of_mem a (List.mem_cons.mpr (Or.inl htail.1))

/-- Every member comes back to itself after a whole turn. -/
theorem IsRing.iterate_length (hring : IsRing next start l) (ha : a ∈ l) :
    next^[l.length] a = a := by
  obtain ⟨l', hring', hperm⟩ := hring.of_mem ha
  rw [← hperm.length_eq]
  exact hring'.path.iterate_length

theorem IsRing.next_injective (hring : IsRing next start l) (ha : a ∈ l) (hb : b ∈ l)
    (hnext : next a = next b) : a = b := by
  obtain ⟨n, hn⟩ : ∃ n, l.length = n + 1 :=
    Nat.exists_eq_succ_of_ne_zero (Nat.ne_of_gt (List.length_pos_of_mem ha))
  have hturn := hring.iterate_length ha
  have hturn' := hring.iterate_length hb
  rw [hn, Function.iterate_succ_apply] at hturn hturn'
  rw [← hturn, hnext, hturn']

/-- Each member is reached exactly once in a turn that begins after `start`. -/
theorem IsRing.existsUnique_iterate (hring : IsRing next start l) (ha : a ∈ l) :
    ∃! k, k < l.length ∧ next^[k + 1] start = a := by
  obtain ⟨l', hring', hperm⟩ := hring.of_mem (hring.next_mem hring.mem)
  obtain ⟨k, hk, hget⟩ := List.getElem_of_mem (hperm.symm.subset ha)
  have hvisit : ∀ i < l'.length, l'[i]? = some (next^[i + 1] start) := fun i hi =>
    hring'.path.getElem?_eq hi
  rw [← hperm.length_eq]
  refine ⟨k, ⟨hk, ?_⟩, fun i ⟨hi, hsame⟩ => ?_⟩
  · have hthis := hvisit k hk
    rw [List.getElem?_eq_getElem hk, hget] at hthis
    exact (Option.some_injective _ hthis).symm
  · have hthis := hvisit i hi
    rw [hsame, ← hget, List.getElem?_eq_getElem hi] at hthis
    exact hring'.nodup.getElem_inj_iff.mp (Option.some_injective _ hthis)

/-- Linking a new member after `start`. -/
theorem IsRing.insert {tail : List α} (hring : IsRing next start (start :: tail))
    (hfresh : new ∉ start :: tail) (hstart : next' start = new) (hnew : next' new = next start)
    (hother : ∀ x ∈ tail, next' x = next x) : IsRing next' start (start :: new :: tail) := by
  refine ⟨⟨rfl, hstart, ?_⟩, ?_, List.mem_cons_self⟩
  · rw [hnew]
    exact hring.path.2.congr hother
  · obtain ⟨hstart', htail⟩ := List.nodup_cons.mp hring.nodup
    rw [List.mem_cons, not_or] at hfresh
    refine List.nodup_cons.mpr ⟨?_, List.nodup_cons.mpr ⟨hfresh.2, htail⟩⟩
    rw [List.mem_cons, not_or]
    exact ⟨Ne.symm hfresh.1, hstart'⟩

theorem IsRing.congr (hring : IsRing next start l) (hsame : ∀ x ∈ l, next' x = next x) :
    IsRing next' start l := ⟨hring.path.congr hsame, hring.nodup, hring.mem⟩

end PointerRing
