import BadOS.Foundation.ByteMemory

/-! # NUL-terminated strings

A string in memory ends at the first NUL. Two strings are told apart by the first bytes
that differ, and the NUL behind the shorter one is smaller than any character.
-/

/-- A string in a 64-bit memory. -/
structure CString (m : Memory) where
  addr : ℕ
  chars : List UInt8
  isString : m.IsString addr chars
  inMemory : addr + chars.length < 2 ^ 64

namespace Memory

variable {m m' : Memory} {a n : ℕ} {s t : List UInt8}

/-! ## Strings in a memory -/

theorem IsString.noNul (hs : m.IsString a s) : 0 ∉ s := by
  induction s generalizing a with
  | nil => exact List.not_mem_nil
  | cons c s ih => exact List.not_mem_cons_of_ne_of_not_mem hs.2.1.symm (ih hs.2.2)

theorem isString_unique (hs : m.IsString a s) (ht : m.IsString a t) : s = t := by
  induction s generalizing a t with
  | nil =>
      cases t with
      | nil => rfl
      | cons d t => exact absurd (ht.1.symm.trans hs) ht.2.1
  | cons c s ih =>
      cases t with
      | nil => exact absurd (hs.1.symm.trans ht) hs.2.1
      | cons d t => rw [← hs.1, ← ht.1, ih hs.2.2 ht.2.2]

/-- A string ends at the next NUL at the latest. -/
theorem exists_isString (hnul : m (a + n) = 0) : ∃ s, m.IsString a s ∧ s.length ≤ n := by
  induction n generalizing a with
  | zero => exact ⟨[], hnul, le_rfl⟩
  | succ n ih =>
      by_cases ha : m a = 0
      · exact ⟨[], ha, Nat.zero_le _⟩
      · obtain ⟨s, hs, hlength⟩ := ih (a := a + 1) (by rwa [Nat.add_assoc, Nat.add_comm 1])
        exact ⟨m a :: s, ⟨rfl, ha, hs⟩, Nat.succ_le_succ hlength⟩

/-- A string that starts with these characters goes on behind them. -/
theorem isString_iff_begins (hbytes : m.bytes a s.length = s) (hnul : 0 ∉ s) :
    m.IsString a t ↔ s <+: t ∧ m.IsString (a + s.length) (t.drop s.length) := by
  induction s generalizing a t with
  | nil => simp
  | cons c s ih =>
      rw [List.length_cons, bytes_succ, List.cons.injEq] at hbytes
      rw [List.mem_cons, not_or] at hnul
      cases t with
      | nil =>
          refine iff_of_false (fun hzero => hnul.1 ?_) fun h => List.cons_ne_nil c s
            (List.prefix_nil.mp h.1)
          exact (hbytes.1.symm.trans hzero).symm
      | cons d t =>
          rw [IsString, ih hbytes.2 hnul.2, hbytes.1, List.cons_prefix_cons,
            List.length_cons, List.drop_succ_cons, Nat.add_assoc, Nat.add_comm 1, and_assoc]
          refine and_congr_right fun heq => ?_
          rw [and_iff_right (heq ▸ Ne.symm hnul.1)]

/-- The characters, none of them NUL, and a NUL behind them. -/
theorem isString_iff : m.IsString a s ↔
    m.bytes a s.length = s ∧ 0 ∉ s ∧ m (a + s.length) = 0 := by
  constructor
  · intro hs
    have hend := (isString_iff_begins hs.bytes_eq hs.noNul).mp hs
    rw [List.drop_length] at hend
    exact ⟨hs.bytes_eq, hs.noNul, hend.2⟩
  · rintro ⟨hbytes, hnul, hend⟩
    rw [isString_iff_begins hbytes hnul, List.drop_length]
    exact ⟨List.prefix_rfl, hend⟩

theorem bytes_congr_at {b : ℕ} (h : ∀ i < n, m (a + i) = m' (b + i)) :
    m.bytes a n = m'.bytes b n :=
  List.map_congr_left fun i hi => h i (List.mem_range.mp hi)

/-- A string is a string wherever its bytes are, with the NUL. -/
theorem IsString.congr_at {b : ℕ} (hs : m.IsString a s)
    (h : ∀ i ≤ s.length, m' (b + i) = m (a + i)) : m'.IsString b s := by
  obtain ⟨hbytes, hnul, hend⟩ := isString_iff.mp hs
  refine isString_iff.mpr ⟨?_, hnul, (h _ le_rfl).trans hend⟩
  exact (bytes_congr_at fun i hi => h i hi.le).trans hbytes

end Memory

/-! ## Three-way comparisons -/

/-- The sign of `order a b` says how `a` compares with `b`. -/
structure ThreeWay {α : Type*} (order : α → α → ℤ) : Prop where
  antisymm : ∀ a b, (order b a).sign = -(order a b).sign
  le_trans : ∀ a b c, order a b ≤ 0 → order b c ≤ 0 → order a c ≤ 0
  sign_trans : ∀ a b c, (order a b).sign = (order b c).sign →
    (order a c).sign = (order a b).sign

theorem ThreeWay.of_le_trans {α : Type*} {order : α → α → ℤ}
    (hanti : ∀ a b, (order b a).sign = -(order a b).sign)
    (htrans : ∀ a b c, order a b ≤ 0 → order b c ≤ 0 → order a c ≤ 0) : ThreeWay order := by
  have hge : ∀ a b, 0 ≤ order a b ↔ order b a ≤ 0 := by
    intro a b
    rw [← Int.sign_nonneg_iff, hanti b a, neg_nonneg, Int.sign_nonpos_iff]
  refine ⟨hanti, htrans, fun a b c hsame => ?_⟩
  have hab := hge a b
  have hbc := hge b c
  have hac := hge a c
  have hforward := htrans a b c
  have hbackward := htrans c b a
  rcases lt_trichotomy (order a b) 0 with hneg | hzero | hpos
  · rw [Int.sign_eq_neg_one_iff_neg.mpr hneg] at hsame ⊢
    have hnext := Int.sign_eq_neg_one_iff_neg.mp hsame.symm
    have hclosed := htrans b c a
    rw [Int.sign_eq_neg_one_iff_neg]
    omega
  · rw [hzero, Int.sign_zero] at hsame ⊢
    have hnext := Int.sign_eq_zero_iff_zero.mp hsame.symm
    rw [Int.sign_eq_zero_iff_zero]
    omega
  · rw [Int.sign_eq_one_iff_pos.mpr hpos] at hsame ⊢
    have hnext := Int.sign_eq_one_iff_pos.mp hsame.symm
    have hclosed := htrans a c b
    rw [Int.sign_eq_one_iff_pos]
    omega

namespace ByteString

/-! ## Comparing -/

/-- The difference of the first bytes that differ. -/
def difference : List UInt8 → List UInt8 → ℤ
  | [], [] => 0
  | [], d :: _ => -d.toNat
  | c :: _, [] => c.toNat
  | c :: s, d :: t => if c = d then difference s t else c.toNat - d.toNat

variable {s t : List UInt8}

theorem difference_comm (s t : List UInt8) : difference t s = -difference s t := by
  induction s generalizing t with
  | nil =>
      cases t with
      | nil => rfl
      | cons d t => exact (neg_neg _).symm
  | cons c s ih =>
      cases t with
      | nil => rfl
      | cons d t =>
          rw [difference, difference]
          by_cases heq : c = d
          · rw [if_pos heq, if_pos heq.symm, ih]
          · rw [if_neg heq, if_neg (Ne.symm heq), neg_sub]

/-- The sign of the difference is the lexicographic order of unsigned bytes. -/
theorem difference_neg_iff (ht : 0 ∉ t) : difference s t < 0 ↔ s < t := by
  induction s generalizing t with
  | nil =>
      cases t with
      | nil => exact iff_of_false (lt_irrefl 0) (List.lt_irrefl [])
      | cons d t =>
          have hd : d ≠ 0 := fun h => ht (h ▸ List.mem_cons_self)
          have hpos : 0 < d.toNat := UInt8.pos_iff_ne_zero.mpr hd
          refine iff_of_true ?_ (List.nil_lt_cons d t)
          rw [difference]
          omega
  | cons c s ih =>
      cases t with
      | nil =>
          refine iff_of_false ?_ (List.not_lt_nil _)
          rw [difference]
          omega
      | cons d t =>
          rw [difference, List.cons_lt_cons_iff]
          by_cases heq : c = d
          · rw [if_pos heq, ih fun h => ht (List.mem_cons_of_mem _ h), heq]
            simp
          · rw [if_neg heq, UInt8.lt_iff_toNat_lt]
            simp only [heq, false_and, or_false]
            omega

theorem difference_pos_iff (hs : 0 ∉ s) : 0 < difference s t ↔ t < s := by
  rw [← difference_neg_iff hs, difference_comm s t, neg_lt_zero]

theorem difference_eq_zero_iff (hs : 0 ∉ s) (ht : 0 ∉ t) : difference s t = 0 ↔ s = t := by
  constructor
  · intro hzero
    have hle : s ≤ t := List.not_lt.mp fun h => by
      have := (difference_pos_iff hs).mpr h
      omega
    have hge : t ≤ s := List.not_lt.mp fun h => by
      have := (difference_neg_iff ht).mpr h
      omega
    exact List.le_antisymm hle hge
  · rintro rfl
    have := difference_comm s s
    omega

theorem difference_threeWay {α : Type*} {chars : α → List UInt8} (hchars : ∀ a, 0 ∉ chars a) :
    ThreeWay fun a b => difference (chars a) (chars b) := by
  have hle : ∀ a b, difference (chars a) (chars b) ≤ 0 ↔ chars a ≤ chars b := by
    intro a b
    rw [← not_lt, difference_pos_iff (hchars a), List.not_lt]
  refine .of_le_trans (fun a b => ?_) fun a b c hab hbc => ?_
  · rw [difference_comm (chars a), Int.sign_neg]
  · rw [hle] at hab hbc ⊢
    exact List.le_trans hab hbc

end ByteString
