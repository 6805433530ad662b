import BadOS.Libc.String

/-! # Comparing strings

`strcmp` tests characters, which are signed, and subtracts unsigned bytes; `memcmp`
compares unsigned bytes. Both stop at the first bytes that differ, the NULs included.
-/

namespace BadOS.Libc

/-! ## The calls -/

/-- A `char` is signed. -/
def char (m : Memory) (p : ℕ) : ℤ := (m p).toInt8.toInt

/-- What `strcmp` returns, and the addresses it reads through either pointer. -/
structure Comparison where
  order : ℤ
  reads1 : List ℕ
  reads2 : List ℕ

/-- At most `fuel` rounds of the loop of `strcmp`; `*str2` is read only behind a
`*str1` that is not NUL, and both are read again for the result. -/
def strcmpRounds (m : Memory) : ℕ → ℕ → ℕ → Option Comparison
  | 0, _, _ => none
  | fuel + 1, str1, str2 =>
      let order : ℤ := CInt.toU8 (char m str1) - CInt.toU8 (char m str2)
      if char m str1 ≠ 0 then
        if char m str1 = char m str2 then
          (strcmpRounds m fuel ((str1 + 1) % 2 ^ 64) ((str2 + 1) % 2 ^ 64)).map fun c =>
            ⟨c.order, str1 :: str1 :: c.reads1, str2 :: c.reads2⟩
        else some ⟨order, [str1, str1, str1], [str2, str2]⟩
      else some ⟨order, [str1, str1], [str2]⟩

/-- A whole call of `strcmp`. -/
def strcmpCall (m : Memory) (str1 str2 : ℕ) : Option Comparison :=
  strcmpRounds m (2 ^ 64) str1 str2

/-- The rounds of `memcmp` from `i` on, `left` of them. -/
def memcmpLoop (m : Memory) (a b : ℕ) : ℕ → ℕ → ℤ
  | 0, _ => 0
  | left + 1, i =>
      if m ((a + i) % 2 ^ 64) < m ((b + i) % 2 ^ 64) then -1
      else if m ((a + i) % 2 ^ 64) > m ((b + i) % 2 ^ 64) then 1
      else memcmpLoop m a b left ((i + 1) % 2 ^ 64)

def memcmp (m : Memory) (aptr bptr size : ℕ) : ℤ := memcmpLoop m aptr bptr size 0

/-- `c` compares the strings: its sign is that of the lexicographic order and of
`memcmp` up to the end of the shorter one, and it has read neither behind its NUL. -/
structure Compares {m : Memory} (a b : CString m) (c : Comparison) : Prop where
  zero_iff : c.order = 0 ↔ a.chars = b.chars
  neg_iff : c.order < 0 ↔ a.chars < b.chars
  pos_iff : 0 < c.order ↔ b.chars < a.chars
  memcmp_sign : ∃ lenA lenB, strlen m a.addr = some lenA ∧ strlen m b.addr = some lenB ∧
    c.order.sign = (memcmp m a.addr b.addr (min lenA lenB + 1)).sign
  reads1 : ∀ x ∈ c.reads1, a.addr ≤ x ∧ x ≤ a.addr + a.chars.length
  reads2 : ∀ x ∈ c.reads2, b.addr ≤ x ∧ x ≤ b.addr + b.chars.length

variable {m : Memory} {p q str1 str2 i fuel : ℕ} {s t : List UInt8} {c : Comparison}

/-! ## Signed characters -/

theorem char_eq_bmod (m : Memory) (p : ℕ) : char m p = Int.bmod (m p).toNat 256 := by
  unfold char
  rw [← Int8.toInt_toBitVec, UInt8.toBitVec_toInt8, BitVec.toInt_eq_toNat_bmod]
  rfl

/-- Converted to `unsigned char`, a character is its byte. -/
theorem toU8_char (m : Memory) (p : ℕ) : CInt.toU8 (char m p) = (m p).toNat := by
  have hbyte := (m p).toNat_lt
  have hmod : Int.bmod (m p).toNat 256 % 256 = (m p).toNat % 256 := Int.bmod_emod
  rw [char_eq_bmod]
  unfold CInt.toU8
  omega

theorem char_inj : char m p = char m q ↔ m p = m q := by
  constructor
  · intro heq
    rw [← UInt8.toNat_inj, ← toU8_char, ← toU8_char, heq]
  · intro heq
    unfold char
    rw [heq]

theorem char_eq_zero_iff : char m p = 0 ↔ m p = 0 := by
  constructor
  · intro hzero
    rw [← UInt8.toNat_inj, ← toU8_char, hzero]
    decide +kernel
  · intro hzero
    unfold char
    rw [hzero]
    rfl

/-! ## The rounds of `strcmp` -/

/-- Without the addresses it is the loop on bytes. -/
theorem strcmpRounds_order (m : Memory) (fuel str1 str2 : ℕ) :
    (strcmpRounds m fuel str1 str2).map Comparison.order = strcmpLoop m fuel str1 str2 := by
  induction fuel generalizing str1 str2 with
  | zero => rfl
  | succ fuel ih =>
      unfold strcmpRounds strcmpLoop
      simp only [ne_eq, char_eq_zero_iff, char_inj, toU8_char]
      by_cases hnul : m str1 = 0
      · rw [if_neg (not_not.mpr hnul), if_neg fun h => h.1 hnul]
        rfl
      · rw [if_pos hnul]
        by_cases heq : m str1 = m str2
        · rw [if_pos heq, if_pos ⟨hnul, heq⟩, ← ih, Option.map_map]
          rfl
        · rw [if_neg heq, if_neg fun h => heq h.2]
          rfl

theorem strcmpCall_order (m : Memory) (str1 str2 : ℕ) :
    (strcmpCall m str1 str2).map Comparison.order = strcmp m str1 str2 :=
  strcmpRounds_order m (2 ^ 64) str1 str2

/-- Neither pointer passes the NUL of its string. -/
theorem strcmpRounds_reads (hs : m.IsString str1 s) (ht : m.IsString str2 t)
    (hsrange : str1 + s.length < 2 ^ 64) (htrange : str2 + t.length < 2 ^ 64)
    (hcall : strcmpRounds m fuel str1 str2 = some c) :
    (∀ x ∈ c.reads1, str1 ≤ x ∧ x ≤ str1 + s.length) ∧
      ∀ x ∈ c.reads2, str2 ≤ x ∧ x ≤ str2 + t.length := by
  induction fuel generalizing str1 str2 s t c with
  | zero => cases hcall
  | succ fuel ih =>
      unfold strcmpRounds at hcall
      simp only [ne_eq, char_eq_zero_iff, char_inj] at hcall
      split at hcall
      next hne =>
        split at hcall
        next heq =>
          obtain ⟨rest, hrest, rfl⟩ := Option.map_eq_some_iff.mp hcall
          cases s with
          | nil => exact absurd hs hne
          | cons d s =>
              cases t with
              | nil => exact absurd (heq.trans ht) hne
              | cons e t =>
                  rw [List.length_cons] at hsrange htrange ⊢
                  rw [List.length_cons]
                  have hnext1 : (str1 + 1) % 2 ^ 64 = str1 + 1 := Nat.mod_eq_of_lt (by omega)
                  have hnext2 : (str2 + 1) % 2 ^ 64 = str2 + 1 := Nat.mod_eq_of_lt (by omega)
                  rw [hnext1, hnext2] at hrest
                  obtain ⟨hreads1, hreads2⟩ := ih hs.2.2 ht.2.2 (by omega) (by omega) hrest
                  simp only [List.forall_mem_cons]
                  refine ⟨⟨by omega, by omega, fun x hx => ?_⟩, by omega, fun x hx => ?_⟩
                  · have := hreads1 x hx
                    omega
                  · have := hreads2 x hx
                    omega
        next =>
          obtain rfl := Option.some.inj hcall
          simp
      next =>
        obtain rfl := Option.some.inj hcall
        simp

/-! ## The rounds of `memcmp` -/

/-- Bytes that differ decide. -/
theorem memcmpLoop_of_ne {a b left : ℕ} (ha : a + i < 2 ^ 64) (hb : b + i < 2 ^ 64)
    (hne : m (a + i) ≠ m (b + i)) : memcmpLoop m a b (left + 1) i =
      (((m (a + i)).toNat : ℤ) - (m (b + i)).toNat).sign := by
  rw [memcmpLoop, Nat.mod_eq_of_lt ha, Nat.mod_eq_of_lt hb]
  by_cases hlt : m (a + i) < m (b + i)
  · rw [if_pos hlt, eq_comm, Int.sign_eq_neg_one_iff_neg]
    have := UInt8.lt_iff_toNat_lt.mp hlt
    omega
  · have hgt : m (b + i) < m (a + i) := UInt8.lt_of_le_of_ne (UInt8.not_lt.mp hlt) (Ne.symm hne)
    rw [if_neg hlt, if_pos hgt, eq_comm, Int.sign_eq_one_iff_pos]
    have := UInt8.lt_iff_toNat_lt.mp hgt
    omega

/-- Bytes that agree do not. -/
theorem memcmpLoop_of_eq {a b left : ℕ} (ha : a + i < 2 ^ 64) (hb : b + i < 2 ^ 64)
    (hi : i + 1 < 2 ^ 64) (heq : m (a + i) = m (b + i)) :
    memcmpLoop m a b (left + 1) i = memcmpLoop m a b left (i + 1) := by
  have hlt : ¬ m (b + i) < m (b + i) := UInt8.lt_irrefl _
  rw [memcmpLoop, Nat.mod_eq_of_lt ha, Nat.mod_eq_of_lt hb, Nat.mod_eq_of_lt hi, heq, if_neg hlt,
    if_neg hlt]

/-- Up to the end of the shorter string `memcmp` has the sign of the difference. -/
theorem memcmpLoop_eq {a b : ℕ} (hs : m.IsString (a + i) s) (ht : m.IsString (b + i) t)
    (hsrange : a + i + s.length < 2 ^ 64) (htrange : b + i + t.length < 2 ^ 64) :
    memcmpLoop m a b (min s.length t.length + 1) i = (ByteString.difference s t).sign := by
  induction s generalizing i t with
  | nil =>
      have hnul : m (a + i) = 0 := hs
      cases t with
      | nil =>
          have hnul' : m (b + i) = 0 := ht
          have ha : (a + i) % 2 ^ 64 = a + i := Nat.mod_eq_of_lt hsrange
          have hb : (b + i) % 2 ^ 64 = b + i := Nat.mod_eq_of_lt htrange
          rw [memcmpLoop, ha, hb, hnul, hnul']
          rfl
      | cons d t =>
          obtain ⟨hd, hne, -⟩ := ht
          rw [memcmpLoop_of_ne (by omega) (by omega) (by rw [hnul, hd]; exact hne.symm), hnul, hd,
            ByteString.difference]
          simp
  | cons c s ih =>
      obtain ⟨hc, hne, hrest⟩ := hs
      rw [List.length_cons] at hsrange
      cases t with
      | nil =>
          have hnul : m (b + i) = 0 := ht
          rw [memcmpLoop_of_ne (by omega) (by omega) (by rw [hnul, hc]; exact hne), hnul, hc,
            ByteString.difference]
          simp
      | cons d t =>
          obtain ⟨hd, -, hrest'⟩ := ht
          rw [List.length_cons] at htrange
          rw [ByteString.difference]
          by_cases heq : c = d
          · rw [List.length_cons, List.length_cons, Nat.succ_min_succ,
              memcmpLoop_of_eq (by omega) (by omega) (by omega) (by rw [hc, hd, heq]), if_pos heq]
            exact ih hrest hrest' (by omega) (by omega)
          · rw [memcmpLoop_of_ne (by omega) (by omega) (by rw [hc, hd]; exact heq), hc, hd,
              if_neg heq]

/-! ## Whole calls -/

theorem strcmpCall_eq (a b : CString m) : ∃ c, strcmpCall m a.addr b.addr = some c ∧
    c.order = ByteString.difference a.chars b.chars := by
  have hresult := strcmp_eq a.isString b.isString a.inMemory b.inMemory
  exact Option.map_eq_some_iff.mp ((strcmpCall_order m a.addr b.addr).trans hresult)

theorem Compares.of_call {a b : CString m} (hcall : strcmpCall m a.addr b.addr = some c)
    (horder : c.order = ByteString.difference a.chars b.chars) : Compares a b c := by
  obtain ⟨hreads1, hreads2⟩ :=
    strcmpRounds_reads a.isString b.isString a.inMemory b.inMemory hcall
  refine ⟨?_, ?_, ?_, ?_, hreads1, hreads2⟩
  · rw [horder, ByteString.difference_eq_zero_iff a.isString.noNul b.isString.noNul]
  · rw [horder, ByteString.difference_neg_iff b.isString.noNul]
  · rw [horder, ByteString.difference_pos_iff a.isString.noNul]
  · refine ⟨_, _, strlen_eq a.isString a.inMemory, strlen_eq b.isString b.inMemory, ?_⟩
    have hsign : memcmp m a.addr b.addr (min a.chars.length b.chars.length + 1) =
        (ByteString.difference a.chars b.chars).sign :=
      memcmpLoop_eq (i := 0) a.isString b.isString a.inMemory b.inMemory
    rw [horder, hsign, Int.sign_sign]

/-- `strcmp` returns for all strings; it is the lexicographic order of their unsigned
bytes, and so antisymmetric and transitive in sign. -/
theorem strcmp_lexicographic (m : Memory) : ∃ compare : CString m → CString m → Comparison,
    (∀ a b, strcmpCall m a.addr b.addr = some (compare a b) ∧ Compares a b (compare a b)) ∧
      ThreeWay fun a b => (compare a b).order := by
  choose compare hcall horder using strcmpCall_eq (m := m)
  refine ⟨compare, fun a b => ⟨hcall a b, .of_call (hcall a b) (horder a b)⟩, ?_⟩
  simp only [horder]
  exact ByteString.difference_threeWay fun a => a.isString.noNul

/-- 0xC8 is a negative character and comes behind "a" all the same. -/
example : (strcmpCall (fun x => if x = 16 then 0xC8 else if x = 32 then 97 else 0) 16 32).map
    Comparison.order = some 103 := by decide +kernel

end BadOS.Libc
