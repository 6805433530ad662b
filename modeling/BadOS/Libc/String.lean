import BadOS.Foundation.CInt
import BadOS.Foundation.Strings

/-! # Memory functions of the C library

Each loop of the source, and the block operation it amounts to.
-/

namespace BadOS.Libc

def memset (m : Memory) (buf : ℕ) (value : ℤ) (size : ℕ) : Memory :=
  Loop.times size (fun i m => Function.update m (buf + i) (UInt8.ofNat (CInt.toU8 value))) m

def memcpy (m : Memory) (dst src size : ℕ) : Memory :=
  Loop.times size (fun i m => Function.update m (dst + i) (m (src + i))) m

/-- `rep movsq`, then the bytes left over. -/
def fastMemcpy (m : Memory) (dest src count : ℕ) : Memory :=
  let qwords := count / 8
  let bytes := count % 8
  let m := Loop.times qwords
    (fun i m => m.store (dest + 8 * i) 8 (m.load (src + 8 * i) 8)) m
  Loop.times bytes
    (fun i m => Function.update m (dest + 8 * qwords + i) (m (src + 8 * qwords + i))) m

/-- At most `fuel` rounds of the loop; `none` when it has not ended by then. -/
def strlenLoop (m : Memory) (str : ℕ) : ℕ → ℕ → Option ℕ
  | 0, _ => none
  | fuel + 1, len =>
      if m ((str + len) % 2 ^ 64) ≠ 0 then strlenLoop m str fuel ((len + 1) % 2 ^ 64)
      else some len

/-- A loop that visits more bytes than there are addresses never ends. -/
def strlen (m : Memory) (str : ℕ) : Option ℕ := strlenLoop m str (2 ^ 64) 0

def strcmpLoop (m : Memory) : ℕ → ℕ → ℕ → Option ℤ
  | 0, _, _ => none
  | fuel + 1, str1, str2 =>
      if m str1 ≠ 0 ∧ m str1 = m str2 then
        strcmpLoop m fuel ((str1 + 1) % 2 ^ 64) ((str2 + 1) % 2 ^ 64)
      else some ((m str1).toNat - (m str2).toNat)

def strcmp (m : Memory) (str1 str2 : ℕ) : Option ℤ := strcmpLoop m (2 ^ 64) str1 str2

variable {m : Memory} {dst src size : ℕ}

theorem memset_eq_fill (m : Memory) (buf : ℕ) (value : ℤ) (size : ℕ) :
    memset m buf value size = m.fill buf size (UInt8.ofNat (CInt.toU8 value)) := by
  unfold memset
  induction size with
  | zero => rw [Loop.times_zero, Memory.fill_zero_length]
  | succ n ih => rw [Loop.times_succ, ih, Memory.update_fill]

theorem memset_zero (m : Memory) (buf size : ℕ) : memset m buf 0 size = m.fill buf size 0 := by
  have hzero : CInt.toU8 0 = 0 := CInt.toU8_natCast (by decide)
  rw [memset_eq_fill, hzero]
  rfl

/-- The ranges of a copy do not overlap. -/
def Disjoint (dst src size : ℕ) : Prop := dst + size ≤ src ∨ src + size ≤ dst

theorem memcpy_eq_blit (hdisjoint : Disjoint dst src size) :
    memcpy m dst src size = m.blit dst m src size := by
  unfold Disjoint at hdisjoint
  exact Memory.times_copy (by omega)

/-- The quadwords of `fast_memcpy`, all before the bytes left over. -/
theorem times_qwords (hdisjoint : Disjoint dst src size) {n : ℕ} (hn : 8 * n ≤ size) :
    Loop.times n (fun i m => m.store (dst + 8 * i) 8 (m.load (src + 8 * i) 8)) m =
      m.blit dst m src (8 * n) := by
  unfold Disjoint at hdisjoint
  induction n with
  | zero => exact Memory.blit_zero_length.symm
  | succ n ih =>
      have hsrc : (m.blit dst m src (8 * n)).load (src + 8 * n) 8 = m.load (src + 8 * n) 8 :=
        Memory.load_congr fun i hi => Memory.blit_outside (by omega)
      rw [Loop.times_succ, ih (by omega), hsrc, Memory.store_load, Memory.blit_blit, Nat.mul_succ]

theorem fastMemcpy_eq_blit (hdisjoint : Disjoint dst src size) :
    fastMemcpy m dst src size = m.blit dst m src size := by
  have hqwords := times_qwords (m := m) hdisjoint (show 8 * (size / 8) ≤ size by omega)
  have htail : Disjoint (dst + 8 * (size / 8)) (src + 8 * (size / 8)) (size % 8) := by
    unfold Disjoint at hdisjoint ⊢
    omega
  have hbytes := memcpy_eq_blit (m := m.blit dst m src (8 * (size / 8))) htail
  unfold memcpy at hbytes
  unfold fastMemcpy
  dsimp only
  rw [hqwords, hbytes]
  have hsource : (m.blit dst m src (8 * (size / 8))).blit (dst + 8 * (size / 8))
      (m.blit dst m src (8 * (size / 8))) (src + 8 * (size / 8)) (size % 8) =
      (m.blit dst m src (8 * (size / 8))).blit (dst + 8 * (size / 8)) m (src + 8 * (size / 8))
        (size % 8) := by
    apply Memory.blit_congr
    intro i hi
    unfold Disjoint at hdisjoint
    exact Memory.blit_outside (by omega)
  rw [hsource, Memory.blit_blit]
  congr 1
  omega

/-- The copy changes nothing exactly when the bytes were there already, even if the
ranges overlap. -/
theorem fastMemcpy_eq_self_iff :
    fastMemcpy m dst src size = m ↔ ∀ k < size, m (dst + k) = m (src + k) := by
  have hqwords : Monotone fun i => dst + 8 * i := fun i j hij => by dsimp only; omega
  have htail : Monotone fun i => dst + 8 * (size / 8) + i := fun i j hij => by dsimp only; omega
  have hqword : ∀ i (m : Memory) x, x < dst + 8 * i ∨ dst + 8 * (i + 1) ≤ x →
      m.store (dst + 8 * i) 8 (m.load (src + 8 * i) 8) x = m x :=
    fun i m x hx => Memory.store_outside (by omega)
  have hbyte : ∀ i (m : Memory) x,
      x < dst + 8 * (size / 8) + i ∨ dst + 8 * (size / 8) + (i + 1) ≤ x →
      Function.update m (dst + 8 * (size / 8) + i) (m (src + 8 * (size / 8) + i)) x = m x :=
    fun i m x hx => Function.update_of_ne (by omega) _ _
  unfold fastMemcpy
  dsimp only
  rw [Memory.comp_eq_self_iff (g := fun m => Loop.times (size % 8) _ m)
      (W := fun x => dst + 8 * (size / 8) ≤ x)
      (fun x hx => Memory.times_outside hqwords hqword (Or.inr hx))
      (fun m' x hx => Memory.times_outside htail hbyte (Or.inl (not_le.mp hx))),
    Memory.times_eq_self_iff hqwords hqword, Memory.times_eq_self_iff htail hbyte]
  simp only [Memory.store_load, Memory.blit_eq_self_iff, Function.update_eq_self_iff]
  constructor
  · rintro ⟨hq, hb⟩ k hk
    by_cases hlt : k < 8 * (size / 8)
    · have := hq (k / 8) (by omega) (k % 8) (by omega)
      rwa [show dst + 8 * (k / 8) + k % 8 = dst + k by omega,
        show src + 8 * (k / 8) + k % 8 = src + k by omega] at this
    · have := hb (k - 8 * (size / 8)) (by omega)
      rw [show dst + 8 * (size / 8) + (k - 8 * (size / 8)) = dst + k by omega,
        show src + 8 * (size / 8) + (k - 8 * (size / 8)) = src + k by omega] at this
      exact this.symm
  · intro hsame
    constructor
    · intro i hi k hk
      rw [show dst + 8 * i + k = dst + (8 * i + k) by omega,
        show src + 8 * i + k = src + (8 * i + k) by omega]
      exact hsame (8 * i + k) (by omega)
    · intro i hi
      rw [show dst + 8 * (size / 8) + i = dst + (8 * (size / 8) + i) by omega,
        show src + 8 * (size / 8) + i = src + (8 * (size / 8) + i) by omega]
      exact (hsame (8 * (size / 8) + i) (by omega)).symm

/-! ## Strings -/

theorem strlenLoop_eq {str len fuel : ℕ} {s : List UInt8} (hs : m.IsString (str + len) s)
    (hrange : str + len + s.length < 2 ^ 64) (hfuel : s.length < fuel) :
    strlenLoop m str fuel len = some (len + s.length) := by
  induction s generalizing len fuel with
  | nil =>
      obtain ⟨fuel, rfl⟩ := Nat.exists_eq_add_of_lt hfuel
      have haddr : (str + len) % 2 ^ 64 = str + len := Nat.mod_eq_of_lt (by simpa using hrange)
      have hnul : m (str + len) = 0 := hs
      rw [strlenLoop, haddr, if_neg (not_not.mpr hnul)]
      rfl
  | cons c s ih =>
      obtain ⟨fuel, rfl⟩ : ∃ n, fuel = n + 1 := ⟨fuel - 1, by omega⟩
      obtain ⟨hc, hne, hrest⟩ := hs
      rw [List.length_cons] at hrange hfuel
      have haddr : (str + len) % 2 ^ 64 = str + len := Nat.mod_eq_of_lt (by omega)
      have hnext : (len + 1) % 2 ^ 64 = len + 1 := Nat.mod_eq_of_lt (by omega)
      rw [strlenLoop, haddr, if_pos (hc ▸ hne), hnext,
        ih (by rwa [Nat.add_assoc] at hrest) (by omega) (by omega), List.length_cons]
      congr 1
      omega

theorem strlen_eq {str : ℕ} {s : List UInt8} (hs : m.IsString str s)
    (hrange : str + s.length < 2 ^ 64) : strlen m str = some s.length := by
  have hloop : strlenLoop m str (2 ^ 64) 0 = some (0 + s.length) :=
    strlenLoop_eq hs (by omega) (by omega)
  rwa [Nat.zero_add] at hloop

theorem strcmpLoop_eq {str1 str2 fuel : ℕ} {s t : List UInt8} (hs : m.IsString str1 s)
    (ht : m.IsString str2 t) (hsrange : str1 + s.length < 2 ^ 64)
    (htrange : str2 + t.length < 2 ^ 64) (hfuel : s.length < fuel) :
    strcmpLoop m fuel str1 str2 = some (ByteString.difference s t) := by
  induction s generalizing str1 str2 fuel t with
  | nil =>
      obtain ⟨fuel, rfl⟩ : ∃ n, fuel = n + 1 := ⟨fuel - 1, by omega⟩
      have hnul : m str1 = 0 := hs
      rw [strcmpLoop, if_neg (by simp [hnul]), hnul]
      cases t with
      | nil =>
          have hnul' : m str2 = 0 := ht
          rw [hnul']
          rfl
      | cons d t =>
          rw [ht.1, ByteString.difference]
          simp
  | cons c s ih =>
      obtain ⟨fuel, rfl⟩ : ∃ n, fuel = n + 1 := ⟨fuel - 1, by omega⟩
      obtain ⟨hc, hne, hrest⟩ := hs
      rw [List.length_cons] at hsrange hfuel
      have hnext1 : (str1 + 1) % 2 ^ 64 = str1 + 1 := Nat.mod_eq_of_lt (by omega)
      cases t with
      | nil =>
          have hnul : m str2 = 0 := ht
          rw [strcmpLoop, hc, hnul, if_neg (fun h => hne h.2), ByteString.difference]
          simp
      | cons d t =>
          obtain ⟨hd, -, hrest'⟩ := ht
          rw [List.length_cons] at htrange
          have hnext2 : (str2 + 1) % 2 ^ 64 = str2 + 1 := Nat.mod_eq_of_lt (by omega)
          rw [strcmpLoop, hc, hd, ByteString.difference]
          by_cases heq : c = d
          · rw [if_pos ⟨hne, heq⟩, if_pos heq, hnext1, hnext2]
            exact ih hrest hrest' (by omega) (by omega) (by omega)
          · rw [if_neg (fun h => heq h.2), if_neg heq]

/-- `strcmp` ends, with the difference of the first bytes that differ. -/
theorem strcmp_eq {str1 str2 : ℕ} {s t : List UInt8} (hs : m.IsString str1 s)
    (ht : m.IsString str2 t) (hsrange : str1 + s.length < 2 ^ 64)
    (htrange : str2 + t.length < 2 ^ 64) :
    strcmp m str1 str2 = some (ByteString.difference s t) :=
  strcmpLoop_eq hs ht hsrange htrange (by omega)

theorem strcmp_eq_zero_iff {str1 str2 : ℕ} {s t : List UInt8} (hs : m.IsString str1 s)
    (ht : m.IsString str2 t) (hsrange : str1 + s.length < 2 ^ 64)
    (htrange : str2 + t.length < 2 ^ 64) :
    ∃ order, strcmp m str1 str2 = some order ∧ (order = 0 ↔ s = t) :=
  ⟨_, strcmp_eq hs ht hsrange htrange, ByteString.difference_eq_zero_iff hs.noNul ht.noNul⟩

end BadOS.Libc
