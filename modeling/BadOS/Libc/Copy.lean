import BadOS.Libc.String

/-! # Calls of the copy functions

`fast_memcpy` lets the string instruction and the loop behind it advance its
pointers and returns the one to the destination. `memmove` copies in the direction in
which no byte of the source is overwritten before it is read.
-/

namespace BadOS.Libc

/-- The memory and the pointers to the destination and the source. -/
structure CopyState where
  mem : Memory
  dest : ℕ
  src : ℕ

/-- Copy a unit of `width` bytes and advance both pointers. -/
def CopyState.advance (width : ℕ) (s : CopyState) : CopyState where
  mem := s.mem.store s.dest width (s.mem.load s.src width)
  dest := (s.dest + width) % 2 ^ 64
  src := (s.src + width) % 2 ^ 64

/-- `rep movsq`. -/
def repMovsq (qwords : ℕ) (s : CopyState) : CopyState :=
  Loop.times qwords (fun _ => CopyState.advance 8) s

/-- The loop over the bytes left over, on copies of the pointers. -/
def copyBytes (bytes : ℕ) (s : CopyState) : CopyState :=
  Loop.times bytes (fun _ => CopyState.advance 1) s

/-- A whole call of `fast_memcpy`: the pointer returned, and the memory. -/
def fastMemcpyCall (m : Memory) (dest src count : ℕ) : ℕ × Memory :=
  let qwords := count / 8
  let bytes := count % 8
  let s := repMovsq qwords ⟨m, dest, src⟩
  let tail := copyBytes bytes s
  (s.dest, tail.mem)

/-- A whole call of `memcpy`. -/
def memcpyCall (m : Memory) (dstptr srcptr size : ℕ) : ℕ × Memory :=
  (dstptr, memcpy m dstptr srcptr size)

variable {m : Memory} {dest src count width n : ℕ}

/-- As long as the units are inside the memory, the pointers are those of a counted loop. -/
theorem times_advance (hdest : dest + width * n ≤ 2 ^ 64) (hsrc : src + width * n ≤ 2 ^ 64)
    (hwidth : 0 < width) :
    Loop.times n (fun _ => CopyState.advance width) ⟨m, dest % 2 ^ 64, src % 2 ^ 64⟩ =
      ⟨Loop.times n
          (fun i m => m.store (dest + width * i) width (m.load (src + width * i) width)) m,
        (dest + width * n) % 2 ^ 64, (src + width * n) % 2 ^ 64⟩ := by
  induction n with
  | zero => rfl
  | succ n ih =>
      rw [Nat.mul_succ, ← Nat.add_assoc] at hdest hsrc
      have hdestLt : (dest + width * n) % 2 ^ 64 = dest + width * n := Nat.mod_eq_of_lt (by omega)
      have hsrcLt : (src + width * n) % 2 ^ 64 = src + width * n := Nat.mod_eq_of_lt (by omega)
      rw [Loop.times_succ, Loop.times_succ, ih (by omega) (by omega), CopyState.advance]
      dsimp only
      rw [hdestLt, hsrcLt, Nat.mul_succ, Nat.add_assoc, Nat.add_assoc]

/-- A unit of one byte. -/
theorem store_one (m : Memory) (a b : ℕ) :
    m.store a 1 (m.load b 1) = Function.update m a (m b) := by
  rw [Memory.store_load]
  funext x
  by_cases hx : x = a
  · rw [hx, Function.update_self, Memory.blit, if_pos (by omega), Nat.sub_self, Nat.add_zero]
  · rw [Function.update_of_ne hx, Memory.blit_outside (by omega)]

/-- The ranges are in the 64-bit memory. -/
structure InMemory (dest src count : ℕ) : Prop where
  dest_lt : dest < 2 ^ 64
  src_lt : src < 2 ^ 64
  dest_le : dest + count ≤ 2 ^ 64
  src_le : src + count ≤ 2 ^ 64

theorem fastMemcpyCall_eq (hmemory : InMemory dest src count) :
    fastMemcpyCall m dest src count =
      ((dest + 8 * (count / 8)) % 2 ^ 64, fastMemcpy m dest src count) := by
  obtain ⟨hdest, hsrc, hdestLe, hsrcLe⟩ := hmemory
  have hqwords := @times_advance m dest src 8 (count / 8) (by omega) (by omega) (by decide)
  rw [Nat.mod_eq_of_lt hdest, Nat.mod_eq_of_lt hsrc] at hqwords
  unfold fastMemcpyCall repMovsq copyBytes fastMemcpy
  dsimp only
  rw [hqwords, times_advance (by omega) (by omega) (by decide)]
  simp only [store_one, Nat.one_mul]

/-- `fast_memcpy` leaves the same memory as `memcpy`, and returns the same pointer only
if it copies no quadword. -/
theorem fastMemcpyCall_eq_iff (hmemory : InMemory dest src count)
    (hdisjoint : Disjoint dest src count) :
    (fastMemcpyCall m dest src count).2 = (memcpyCall m dest src count).2 ∧
      (fastMemcpyCall m dest src count = memcpyCall m dest src count ↔ count < 8) := by
  have hmem : fastMemcpy m dest src count = memcpy m dest src count :=
    (fastMemcpy_eq_blit hdisjoint).trans (memcpy_eq_blit hdisjoint).symm
  obtain ⟨hdest, hsrc, hdestLe, hsrcLe⟩ := hmemory
  rw [fastMemcpyCall_eq ⟨hdest, hsrc, hdestLe, hsrcLe⟩, memcpyCall, hmem, Prod.mk.injEq,
    and_iff_left rfl]
  refine ⟨rfl, ?_⟩
  unfold Disjoint at hdisjoint
  omega

/-- After eight bytes `fast_memcpy` returns the end of the destination. -/
theorem fastMemcpyCall_eight : InMemory 16 32 8 ∧ Disjoint 16 32 8 ∧
    (fastMemcpyCall (fun _ => 1) 16 32 8).1 = 24 ∧ (memcpyCall (fun _ => 1) 16 32 8).1 = 16 :=
  ⟨⟨by decide, by decide, by decide, by decide⟩, Or.inl (by decide), rfl, rfl⟩

theorem fastMemcpyCall_seven :
    fastMemcpyCall (fun _ => 1) 16 32 7 = memcpyCall (fun _ => 1) 16 32 7 :=
  (fastMemcpyCall_eq_iff ⟨by decide, by decide, by decide, by decide⟩ (Or.inl (by decide))).2.mpr
    (by decide)

/-! ## Overlapping ranges -/

/-- `dst[i] = src[i]`. -/
def copyAt (dst src i : ℕ) (m : Memory) : Memory :=
  Function.update m ((dst + i) % 2 ^ 64) (m ((src + i) % 2 ^ 64))

/-- A whole call of `memmove`. -/
def memmove (m : Memory) (dstptr srcptr size : ℕ) : ℕ × Memory :=
  if dstptr < srcptr then
    (dstptr, Loop.times size (fun i => copyAt dstptr srcptr i) m)
  else
    (dstptr, Loop.countdown size (fun i => copyAt dstptr srcptr (i - 1)) m)

theorem copyAt_eq (hmemory : InMemory dest src count) (hn : n < count) :
    copyAt dest src n = fun m => Function.update m (dest + n) (m (src + n)) := by
  obtain ⟨-, -, hdestLe, hsrcLe⟩ := hmemory
  have hdest : (dest + n) % 2 ^ 64 = dest + n := Nat.mod_eq_of_lt (by omega)
  have hsrc : (src + n) % 2 ^ 64 = src + n := Nat.mod_eq_of_lt (by omega)
  unfold copyAt
  rw [hdest, hsrc]

/-- In either direction the bytes copied are those before the call. -/
theorem memmove_eq_blit (hmemory : InMemory dest src count) :
    memmove m dest src count = (dest, m.blit dest m src count) := by
  unfold memmove
  split
  next hbelow =>
    rw [Loop.times_congr fun i hi => copyAt_eq hmemory hi, Memory.times_copy (by omega)]
  next habove =>
    have hrounds : Loop.countdown count (fun i => copyAt dest src (i - 1)) m =
        Loop.countdown count
          (fun i m => Function.update m (dest + (i - 1)) (m (src + (i - 1)))) m :=
      Loop.countdown_congr (fun i hi => copyAt_eq hmemory hi) m
    rw [hrounds, Memory.countdown_copy (by omega)]

/-- However the ranges overlap, the destination gets the bytes of the source before the
call, and the rest of the memory stays as it is. -/
theorem memmove_moves (hmemory : InMemory dest src count) :
    (∀ i < count, (memmove m dest src count).2 (dest + i) = m (src + i)) ∧
      ∀ x, x < dest ∨ dest + count ≤ x → (memmove m dest src count).2 x = m x := by
  rw [memmove_eq_blit hmemory]
  exact ⟨fun i hi => Memory.blit_inside hi, fun x hx => Memory.blit_outside hx⟩

theorem memmove_twoUp :
    (∀ i < 5, (memmove (fun x => UInt8.ofNat x) 18 16 5).2 (18 + i) = UInt8.ofNat (16 + i)) ∧
      ∀ x, x < 18 ∨ 23 ≤ x → (memmove (fun x => UInt8.ofNat x) 18 16 5).2 x = UInt8.ofNat x :=
  memmove_moves ⟨by decide, by decide, by decide, by decide⟩

end BadOS.Libc
