import Mathlib.Tactic

/-! # Run-length codes

A run is a value with a repetition count. A list of runs denotes the list of
values it expands to; runs of length zero denote nothing.
-/

namespace RunLength

variable {α : Type*}

/-- The sequence a list of runs denotes. -/
def expand (runs : List (α × ℕ)) : List α :=
  runs.flatMap (fun run => List.replicate run.2 run.1)

@[simp] theorem expand_nil : expand ([] : List (α × ℕ)) = [] := rfl

@[simp] theorem expand_cons (run : α × ℕ) (runs : List (α × ℕ)) :
    expand (run :: runs) = List.replicate run.2 run.1 ++ expand runs := by
  simp [expand]

theorem expand_append (left right : List (α × ℕ)) :
    expand (left ++ right) = expand left ++ expand right := by
  simp [expand]

/-- Positive runs denote the empty sequence only when there are none. -/
theorem eq_nil_of_expand_eq_nil {runs : List (α × ℕ)} (hpos : ∀ run ∈ runs, 0 < run.2)
    (hempty : expand runs = []) : runs = [] := by
  cases runs with
  | nil => rfl
  | cons run rest =>
      have hlen := hpos run List.mem_cons_self
      rw [expand_cons, List.append_eq_nil_iff, List.replicate_eq_nil_iff] at hempty
      omega

/-- Positive runs are at most as many as the values they denote. -/
theorem length_le_length_expand {runs : List (α × ℕ)} (hpos : ∀ run ∈ runs, 0 < run.2) :
    runs.length ≤ (expand runs).length := by
  induction runs with
  | nil => simp
  | cons run rest ih =>
      have hlen := hpos run List.mem_cons_self
      have hrest := ih (fun r hr => hpos r (List.mem_cons_of_mem _ hr))
      simp only [List.length_cons, expand_cons, List.length_append, List.length_replicate]
      omega

theorem length_expand (runs : List (α × ℕ)) : (expand runs).length = (runs.map Prod.snd).sum := by
  induction runs with
  | nil => rfl
  | cons run rest ih => simp [ih]

/-! ## The fewest runs

Extending the last run as long as it is of the same value and below the cap uses no
more runs than any other list of runs under the cap.
-/

section Greedy

variable [DecidableEq α] (cap : ℕ)

/-- The number of runs and the last of them when one more value is encoded. -/
def push (s : ℕ × Option (α × ℕ)) (a : α) : ℕ × Option (α × ℕ) :=
  match s.2 with
  | none => (s.1 + 1, some (a, 1))
  | some (b, n) => if b = a ∧ n < cap then (s.1, some (b, n + 1)) else (s.1 + 1, some (a, 1))

/-- The runs that encoding `values` takes. -/
def greedy (values : List α) : ℕ × Option (α × ℕ) := values.foldl (push cap) (0, none)

/-- The last run is under the cap. -/
def Capped (s : ℕ × Option (α × ℕ)) : Prop := ∀ run, s.2 = some run → run.2 ≤ cap

variable {cap} {s : ℕ × Option (α × ℕ)} {a b : α} {k n m : ℕ}

theorem push_extend (hlt : n < cap) : push cap (m, some (a, n)) a = (m, some (a, n + 1)) :=
  if_pos ⟨rfl, hlt⟩

theorem push_fresh (hother : ¬ (b = a ∧ n < cap)) :
    push cap (m, some (b, n)) a = (m + 1, some (a, 1)) := if_neg hother

/-- Values that fit into the last run extend it. -/
theorem foldl_push_extend (hfit : n + k ≤ cap) :
    (List.replicate k a).foldl (push cap) (m, some (a, n)) = (m, some (a, n + k)) := by
  induction k generalizing n with
  | zero => rfl
  | succ k ih =>
      rw [List.replicate_succ, List.foldl_cons, push_extend (by omega), ih (by omega)]
      congr 3
      omega

/-- A value that starts a run leaves room for the rest of a run under the cap. -/
theorem foldl_push_fresh (hfit : k + 1 ≤ cap) (hfresh : push cap s a = (s.1 + 1, some (a, 1))) :
    (List.replicate (k + 1) a).foldl (push cap) s = (s.1 + 1, some (a, k + 1)) := by
  rw [List.replicate_succ, List.foldl_cons, hfresh, foldl_push_extend (by omega), Nat.add_comm 1]

/-- A run under the cap costs at most one run more. -/
theorem foldl_push_le (hcapped : Capped cap s) (hk : k ≤ cap) :
    ((List.replicate k a).foldl (push cap) s).1 ≤ s.1 + 1 ∧
      Capped cap ((List.replicate k a).foldl (push cap) s) := by
  cases k with
  | zero => exact ⟨Nat.le_succ _, hcapped⟩
  | succ k =>
      have fresh (hfresh : push cap s a = (s.1 + 1, some (a, 1))) :
          ((List.replicate (k + 1) a).foldl (push cap) s).1 ≤ s.1 + 1 ∧
            Capped cap ((List.replicate (k + 1) a).foldl (push cap) s) := by
        rw [foldl_push_fresh hk hfresh]
        refine ⟨le_refl _, ?_⟩
        rintro run hrun
        cases hrun
        exact hk
      obtain ⟨m, last⟩ := s
      cases last with
      | none => exact fresh rfl
      | some run =>
          obtain ⟨b, n⟩ := run
          have hn : n ≤ cap := hcapped (b, n) rfl
          by_cases hsame : b = a ∧ n < cap
          · obtain ⟨rfl, hlt⟩ := hsame
            by_cases hfit : n + (k + 1) ≤ cap
            · rw [foldl_push_extend hfit]
              refine ⟨Nat.le_succ _, ?_⟩
              rintro run hrun
              cases hrun
              exact hfit
            · -- The last run is filled up, and what is left starts another.
              obtain ⟨j, hj⟩ : ∃ j, k + 1 = (cap - n) + (j + 1) := ⟨n + k - cap, by omega⟩
              have hfull : push cap (m, some (b, n + (cap - n))) b = (m + 1, some (b, 1)) :=
                push_fresh (by omega)
              rw [hj, List.replicate_add, List.foldl_append, foldl_push_extend (by omega),
                foldl_push_fresh (by omega) hfull]
              refine ⟨le_refl _, ?_⟩
              rintro run hrun
              cases hrun
              dsimp only
              omega
          · exact fresh (push_fresh hsame)

theorem foldl_push_expand_le {runs : List (α × ℕ)} (hcap : ∀ run ∈ runs, run.2 ≤ cap)
    (hcapped : Capped cap s) : ((expand runs).foldl (push cap) s).1 ≤ s.1 + runs.length := by
  induction runs generalizing s with
  | nil => exact le_refl _
  | cons run rest ih =>
      obtain ⟨hle, hcapped'⟩ := foldl_push_le (a := run.1) hcapped (hcap run List.mem_cons_self)
      have hrest := ih (fun r hr => hcap r (List.mem_cons_of_mem _ hr)) hcapped'
      rw [expand_cons, List.foldl_append, List.length_cons]
      omega

/-- No list of runs under the cap is shorter. -/
theorem greedy_le_length {runs : List (α × ℕ)} (hcap : ∀ run ∈ runs, run.2 ≤ cap) :
    (greedy cap (expand runs)).1 ≤ runs.length := by
  have hle := foldl_push_expand_le (s := (0, none)) hcap (fun run hrun => by cases hrun)
  rwa [Nat.zero_add] at hle

end Greedy

end RunLength
