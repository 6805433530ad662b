import Mathlib.Tactic

/-! # Counted loops

`times n f a` is the value after `for (i = 0; i < n; i++) a = f(i, a)`, and
`countdown n f a` the value after `for (i = n; i != 0; i--) a = f(i, a)`. A loop
proof supplies an invariant indexed by the number of completed iterations, or of
those left.
-/

namespace Loop

variable {α β : Type*}

def times : ℕ → (ℕ → α → α) → α → α
  | 0, _, a => a
  | n + 1, f, a => f n (times n f a)

@[simp] theorem times_zero (f : ℕ → α → α) (a : α) : times 0 f a = a := rfl

theorem times_succ (n : ℕ) (f : ℕ → α → α) (a : α) :
    times (n + 1) f a = f n (times n f a) := rfl

/-- The invariant rule: `inv i` holds after `i` iterations. -/
theorem times_invariant (inv : ℕ → α → Prop) (f : ℕ → α → α) (n : ℕ) (a : α)
    (hinit : inv 0 a) (hstep : ∀ i < n, ∀ b, inv i b → inv (i + 1) (f i b)) :
    inv n (times n f a) := by
  induction n with
  | zero => exact hinit
  | succ n ih =>
      have hprev := ih (fun i hi => hstep i (by omega))
      exact hstep n (by omega) _ hprev

/-- The rule for two loops: `rel i` relates their values after `i` iterations. -/
theorem times_related {γ : Type*} (rel : ℕ → α → γ → Prop) (f : ℕ → α → α) (g : ℕ → γ → γ) (n : ℕ)
    (a : α) (c : γ) (hinit : rel 0 a c)
    (hstep : ∀ i < n, ∀ b d, rel i b d → rel (i + 1) (f i b) (g i d)) :
    rel n (times n f a) (times n g c) := by
  induction n with
  | zero => exact hinit
  | succ n ih =>
      have hprev := ih (fun i hi => hstep i (by omega))
      exact hstep n (by omega) _ _ hprev

/-- Only the values of the index that occur matter. -/
theorem times_congr {n : ℕ} {f g : ℕ → α → α} (hfg : ∀ i < n, f i = g i) (a : α) :
    times n f a = times n g a := by
  induction n with
  | zero => rfl
  | succ n ih =>
      rw [times_succ, times_succ, ih fun i hi => hfg i (by omega), hfg n (Nat.lt_succ_self n)]

def countdown : ℕ → (ℕ → α → α) → α → α
  | 0, _, a => a
  | n + 1, f, a => countdown n f (f (n + 1) a)

theorem countdown_succ (n : ℕ) (f : ℕ → α → α) (a : α) :
    countdown (n + 1) f a = countdown n f (f (n + 1) a) := rfl

theorem countdown_congr {n : ℕ} {f g : ℕ → α → α} (hfg : ∀ i < n, f (i + 1) = g (i + 1)) (a : α) :
    countdown n f a = countdown n g a := by
  induction n generalizing a with
  | zero => rfl
  | succ n ih =>
      rw [countdown_succ, countdown_succ, hfg n (Nat.lt_succ_self n)]
      exact ih (fun i hi => hfg i (by omega)) _

/-- The invariant rule downwards: `inv i` holds when `i` iterations are left. -/
theorem countdown_invariant (inv : ℕ → α → Prop) (f : ℕ → α → α) (n : ℕ) (a : α)
    (hinit : inv n a) (hstep : ∀ i < n, ∀ b, inv (i + 1) b → inv i (f (i + 1) b)) :
    inv 0 (countdown n f a) := by
  induction n generalizing a with
  | zero => exact hinit
  | succ n ih =>
      rw [countdown_succ]
      exact ih _ (hstep n (Nat.lt_succ_self n) a hinit) fun i hi => hstep i (by omega)

end Loop
