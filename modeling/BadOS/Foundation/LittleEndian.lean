import BadOS.Foundation.ByteMemory

/-! # Little-endian records

A record is a list of bytes, put together from encoded numbers. A memory that
holds the record at an address gives the numbers back.
-/

namespace Memory

/-- The low `n` bytes of `v`. -/
def encode (n v : ℕ) : List UInt8 := (List.range n).map fun i => UInt8.ofNat (v / 256 ^ i)

/-- The bytes from address 0 on, and zeros behind them. -/
def ofList (bytes : List UInt8) : Memory := fun x => bytes.getD x 0

/-- The bytes stand at `a`. -/
def Holds (m : Memory) (a : ℕ) (bytes : List UInt8) : Prop :=
  ∀ i (hi : i < bytes.length), m (a + i) = bytes[i]

/-- The bytes from `a` on, zeros behind them, and `m` below. -/
def extend (m : Memory) (a : ℕ) (bytes : List UInt8) : Memory :=
  fun x => if x < a then m x else bytes.getD (x - a) 0

variable {m : Memory} {a d k n v : ℕ} {l l₁ l₂ : List UInt8}

@[simp] theorem length_encode : (encode n v).length = n := by
  simp [encode]

/-- Two neighbouring numbers are one. -/
theorem load_add (m : Memory) (a n k : ℕ) :
    m.load a (n + k) = m.load a n + 256 ^ n * m.load (a + n) k := by
  induction n generalizing a with
  | zero => simp [load]
  | succ n ih =>
      rw [Nat.add_right_comm, load, load, ih, Nat.add_assoc a 1 n, Nat.add_comm 1 n, pow_succ]
      ring

/-! ## Parts of a list -/

theorem load_take (h : a + k ≤ n) : (ofList (l.take n)).load a k = (ofList l).load a k := by
  refine load_congr fun i hi => ?_
  unfold ofList
  rw [List.getD_eq_getElem?_getD, List.getD_eq_getElem?_getD,
    List.getElem?_take_of_lt (by omega)]

/-! ## Memories that hold a list -/

theorem holds_append :
    m.Holds a (l₁ ++ l₂) ↔ m.Holds a l₁ ∧ m.Holds (a + l₁.length) l₂ := by
  constructor
  · intro h
    refine ⟨fun i hi => ?_, fun i hi => ?_⟩
    · rw [h i (List.length_append ▸ Nat.lt_add_right _ hi), List.getElem_append_left hi]
    · have hlast := h (l₁.length + i) (List.length_append ▸ Nat.add_lt_add_left hi _)
      rw [List.getElem_append_right (Nat.le_add_right _ _)] at hlast
      simpa only [Nat.add_assoc, Nat.add_sub_cancel_left] using hlast
  · rintro ⟨hfirst, hlast⟩ i hi
    rw [List.getElem_append]
    split
    next h => exact hfirst i h
    next h =>
      have hrest := hlast (i - l₁.length) (by rw [List.length_append] at hi; omega)
      rwa [Nat.add_assoc, Nat.add_sub_cancel' (Nat.le_of_not_lt h)] at hrest

theorem Holds.load_encode_mod (h : m.Holds a (encode n v)) : m.load a n = v % 256 ^ n := by
  refine load_eq_of_bytes fun i hi => ?_
  rw [h i (length_encode.symm ▸ hi)]
  simp [encode]

theorem Holds.load_encode (h : m.Holds a (encode n v)) (hv : v < 256 ^ n) : m.load a n = v :=
  h.load_encode_mod.trans (Nat.mod_eq_of_lt hv)

theorem Holds.bytes_eq (h : m.Holds a l) : m.bytes a l.length = l := by
  refine List.ext_getElem (by simp [bytes]) fun i hi hi' => ?_
  simp [bytes, h i hi']

theorem holds_ofList (l : List UInt8) : (ofList l).Holds 0 l := by
  intro i hi
  rw [Nat.zero_add, ofList, List.getD_eq_getElem?_getD, List.getElem?_eq_getElem hi]
  rfl

theorem extend_below {x : ℕ} (hx : x < a) : m.extend a l x = m x := if_pos hx

theorem holds_extend (m : Memory) (a : ℕ) (l : List UInt8) : (m.extend a l).Holds a l := by
  intro i hi
  rw [extend, if_neg (by omega), Nat.add_sub_cancel_left, List.getD_eq_getElem?_getD,
    List.getElem?_eq_getElem hi]
  rfl

/-- A table of records of one size. -/
theorem Holds.flatMap {α : Type*} {f : α → List UInt8} {table : List α}
    (h : m.Holds a (table.flatMap f)) (hf : ∀ x ∈ table, (f x).length = k) {i : ℕ}
    (hi : i < table.length) : m.Holds (a + k * i) (f table[i]) := by
  induction table generalizing a i with
  | nil => exact absurd hi (Nat.not_lt_zero i)
  | cons x table ih =>
      rw [List.flatMap_cons, holds_append, hf x List.mem_cons_self] at h
      cases i with
      | zero => exact h.1
      | succ i =>
          have hnext := ih h.2 (fun y hy => hf y (List.mem_cons_of_mem x hy))
            (Nat.lt_of_succ_lt_succ hi)
          rwa [Nat.add_assoc, Nat.add_comm k, ← Nat.mul_succ] at hnext

end Memory
