import BadOS.Foundation.ByteMemory

/-! # Stacks of quadwords

A stack grows downwards in a byte-addressed memory. What was pushed is found
above the stack pointer, the last word first.
-/

namespace WordStack

/-- The memory and the stack pointer after a push. -/
def push (stack : Memory × ℕ) (v : ℕ) : Memory × ℕ :=
  (stack.1.store (stack.2 - 8) 8 v, stack.2 - 8)

def pushAll (stack : Memory × ℕ) (values : List ℕ) : Memory × ℕ := values.foldl push stack

/-- The `n` words from the stack pointer up. -/
def words (mem : Memory) (rsp : ℕ) : ℕ → List ℕ
  | 0 => []
  | n + 1 => mem.load rsp 8 :: words mem (rsp + 8) n

variable {mem mem' : Memory} {rsp v n x : ℕ} {values : List ℕ}

theorem words_length : (words mem rsp n).length = n := by
  induction n generalizing rsp with
  | zero => rfl
  | succ n ih => rw [words, List.length_cons, ih]

theorem words_congr (h : ∀ x, rsp ≤ x → x < rsp + 8 * n → mem' x = mem x) :
    words mem' rsp n = words mem rsp n := by
  induction n generalizing rsp with
  | zero => rfl
  | succ n ih =>
      have hhead : mem'.load rsp 8 = mem.load rsp 8 :=
        Memory.load_congr fun i hi => h _ (by omega) (by omega)
      rw [words, words, hhead, ih fun x hlo hhi => h x (by omega) (by omega)]

theorem words_append (mem : Memory) (rsp n k : ℕ) :
    words mem rsp (n + k) = words mem rsp n ++ words mem (rsp + 8 * n) k := by
  induction n generalizing rsp with
  | zero =>
      rw [Nat.zero_add]
      rfl
  | succ n ih =>
      rw [Nat.add_right_comm, words, words, ih, List.cons_append,
        show rsp + 8 + 8 * n = rsp + 8 * (n + 1) by omega]

theorem words_getElem? {i : ℕ} (hi : i < n) :
    (words mem rsp n)[i]? = some (mem.load (rsp + 8 * i) 8) := by
  induction n generalizing rsp i with
  | zero => exact absurd hi (Nat.not_lt_zero i)
  | succ n ih =>
      cases i with
      | zero => rfl
      | succ i =>
          rw [words, List.getElem?_cons_succ, ih (Nat.lt_of_succ_lt_succ hi),
            show rsp + 8 * (i + 1) = rsp + 8 + 8 * i by omega]

/-- Storing a word of the stack. -/
theorem words_store {i : ℕ} (hv : v < 2 ^ 64) (hi : i < n) :
    words (mem.store (rsp + 8 * i) 8 v) rsp n = (words mem rsp n).set i v := by
  induction n generalizing rsp i with
  | zero => exact absurd hi (Nat.not_lt_zero i)
  | succ n ih =>
      cases i with
      | zero =>
          rw [Nat.mul_zero, Nat.add_zero, words, words, List.set_cons_zero, Memory.load_store hv,
            words_congr fun x hlo _ => Memory.store_outside (by omega)]
      | succ i =>
          rw [words, words, List.set_cons_succ, Memory.load_store_of_disjoint (by omega),
            show rsp + 8 * (i + 1) = rsp + 8 + 8 * i by omega, ih (by omega)]

theorem pushAll_append (stack : Memory × ℕ) (values more : List ℕ) :
    pushAll stack (values ++ more) = pushAll (pushAll stack values) more :=
  List.foldl_append

theorem pushAll_pointer (values : List ℕ) (mem : Memory) (rsp : ℕ) :
    (pushAll (mem, rsp) values).2 = rsp - 8 * values.length := by
  induction values generalizing mem rsp with
  | nil => rfl
  | cons v values ih =>
      have hnext := ih (mem.store (rsp - 8) 8 v) (rsp - 8)
      unfold pushAll at hnext ⊢
      rw [List.foldl_cons, List.length_cons, push, hnext]
      omega

/-- Pushing changes only the words pushed. -/
theorem pushAll_outside (hroom : 8 * values.length ≤ rsp)
    (hx : x < rsp - 8 * values.length ∨ rsp ≤ x) : (pushAll (mem, rsp) values).1 x = mem x := by
  induction values generalizing mem rsp with
  | nil => rfl
  | cons v values ih =>
      rw [List.length_cons] at hroom hx
      have hnext := @ih (mem.store (rsp - 8) 8 v) (rsp - 8) (by omega) (by omega)
      unfold pushAll at hnext ⊢
      rw [List.foldl_cons, push, hnext]
      exact Memory.store_outside (by omega)

/-- The words pushed are on the stack, the last one first. -/
theorem words_pushAll (hvalues : ∀ v ∈ values, v < 2 ^ 64) (hroom : 8 * values.length ≤ rsp) :
    words (pushAll (mem, rsp) values).1 (rsp - 8 * values.length) (values.length + n) =
      values.reverse ++ words mem rsp n := by
  induction values generalizing mem rsp n with
  | nil =>
      rw [List.length_nil, Nat.zero_add]
      rfl
  | cons v values ih =>
      rw [List.length_cons] at hroom ⊢
      have hnext := @ih (mem.store (rsp - 8) 8 v) (rsp - 8) (n + 1)
        (fun v' hv' => hvalues v' (List.mem_cons_of_mem v hv')) (by omega)
      have htop : words (mem.store (rsp - 8) 8 v) (rsp - 8) (n + 1) = v :: words mem rsp n := by
        rw [words, Memory.load_store (hvalues v List.mem_cons_self), Nat.sub_add_cancel (by omega),
          words_congr fun x hlo _ => Memory.store_outside (by omega)]
      rw [htop] at hnext
      unfold pushAll at hnext ⊢
      rw [List.foldl_cons, push, List.reverse_cons, List.append_assoc, List.singleton_append,
        show rsp - 8 * (values.length + 1) = rsp - 8 - 8 * values.length by omega,
        show values.length + 1 + n = values.length + (n + 1) by omega, hnext]

end WordStack
