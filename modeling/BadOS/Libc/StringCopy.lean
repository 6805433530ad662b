import BadOS.Libc.String

/-! # Copying a string

The loop of `strcpy` ends at the NUL of the source and does not copy it. Behind the
characters the destination is as it was, so the string read from it is the source only
if there was a NUL already.
-/

namespace BadOS.Libc

/-- At most `fuel` rounds of the loop; `none` when it has not ended by then. -/
def strcpyLoop : ℕ → Memory → ℕ → ℕ → Option Memory
  | 0, _, _, _ => none
  | fuel + 1, m, dest, src =>
      if m src ≠ 0 then
        strcpyLoop fuel (Function.update m dest (m src)) ((dest + 1) % 2 ^ 64) ((src + 1) % 2 ^ 64)
      else some m

/-- The pointer returned, and the memory. The loop writes no NUL, so it never ends when
it has passed every address. -/
def strcpy (m : Memory) (dest src : ℕ) : Option (ℕ × Memory) :=
  (strcpyLoop (2 ^ 64) m dest src).map fun m' => (dest, m')

/-- A call that returns `p` and leaves the memory `m'` has made a copy of `src` at `dest`. -/
structure IsCopy {m : Memory} (dest : ℕ) (src : CString m) (p : ℕ) (m' : Memory) : Prop where
  isString : m'.IsString dest src.chars
  strcmp_eq : strcmp m' dest src.addr = some 0
  strlen_eq : ∃ len, strlen m' dest = some len ∧ strlen m' src.addr = some len
  past : ∀ x, dest + src.chars.length < x → m' x = m x
  returned : p = dest

variable {m : Memory} {dest src fuel : ℕ} {s t : List UInt8}

theorem strcpyLoop_eq (hs : m.IsString src s) (hsrc : src + s.length < 2 ^ 64)
    (hdest : dest + s.length < 2 ^ 64) (hdisjoint : Disjoint dest src (s.length + 1))
    (hfuel : s.length < fuel) :
    strcpyLoop fuel m dest src = some (m.blit dest m src s.length) := by
  obtain ⟨fuel, rfl⟩ : ∃ n, fuel = n + 1 := ⟨fuel - 1, by omega⟩
  induction s generalizing m dest src fuel with
  | nil =>
      have hnul : m src = 0 := hs
      rw [strcpyLoop, if_neg (not_not.mpr hnul), List.length_nil, Memory.blit_zero_length]
  | cons c s ih =>
      obtain ⟨hc, hne, hrest⟩ := hs
      unfold Disjoint at hdisjoint
      rw [List.length_cons] at hsrc hdest hdisjoint hfuel ⊢
      obtain ⟨fuel, rfl⟩ : ∃ n, fuel = n + 1 := ⟨fuel - 1, by omega⟩
      -- The byte just written is not one of those still to be read.
      have hunread : ∀ i ≤ s.length,
          Function.update m dest (m src) (src + 1 + i) = m (src + 1 + i) :=
        fun i hi => Function.update_of_ne (by omega) _ _
      have hroom : dest + 1 + s.length < 2 ^ 64 := by omega
      have hapart : Disjoint (dest + 1) (src + 1) (s.length + 1) := by
        unfold Disjoint
        omega
      have hloop := ih (hrest.congr_at hunread) (by omega) hroom hapart fuel (by omega)
      have hnextDest : (dest + 1) % 2 ^ 64 = dest + 1 := Nat.mod_eq_of_lt (by omega)
      have hnextSrc : (src + 1) % 2 ^ 64 = src + 1 := Nat.mod_eq_of_lt (by omega)
      rw [strcpyLoop, if_pos (hc ▸ hne), hnextDest, hnextSrc, hloop,
        Memory.blit_congr fun i hi => hunread i hi.le, Memory.blit_update_of_outside (by omega),
        Memory.update_blit_front]

/-- `strcpy` ends, and has copied the characters. -/
theorem strcpy_eq (src : CString m) (hroom : dest + src.chars.length < 2 ^ 64)
    (hdisjoint : Disjoint dest src.addr (src.chars.length + 1)) :
    strcpy m dest src.addr = some (dest, m.blit dest m src.addr src.chars.length) := by
  have hlength := src.inMemory
  rw [strcpy, strcpyLoop_eq src.isString hlength hroom hdisjoint (by omega), Option.map_some]

/-- What is read from the destination afterwards: the source, followed by what the
destination held from there on. -/
theorem isString_blit_iff (src : CString m) :
    (m.blit dest m src.addr src.chars.length).IsString dest t ↔
      src.chars <+: t ∧ m.IsString (dest + src.chars.length) (t.drop src.chars.length) := by
  have hbytes : (m.blit dest m src.addr src.chars.length).bytes dest src.chars.length =
      src.chars := by
    rw [← Memory.bytes_congr_at (m := m) (a := src.addr) fun i hi => (Memory.blit_inside hi).symm]
    exact src.isString.bytes_eq
  have hbehind : ∀ i, m.blit dest m src.addr src.chars.length (dest + src.chars.length + i) =
      m (dest + src.chars.length + i) := fun i => Memory.blit_outside (by omega)
  rw [Memory.isString_iff_begins hbytes src.isString.noNul]
  refine and_congr_right fun _ => ⟨fun h => ?_, fun h => ?_⟩
  · exact h.congr_at fun i _ => (hbehind i).symm
  · exact h.congr_at fun i _ => hbehind i

/-- `strcpy` makes a copy exactly if the destination had a NUL in the right place. -/
theorem strcpy_isCopy_iff (src : CString m) (hroom : dest + src.chars.length < 2 ^ 64)
    (hdisjoint : Disjoint dest src.addr (src.chars.length + 1)) :
    ∃ p m', strcpy m dest src.addr = some (p, m') ∧
      (IsCopy dest src p m' ↔ m (dest + src.chars.length) = 0) := by
  refine ⟨_, _, strcpy_eq src hroom hdisjoint, ⟨fun hcopy => ?_, fun hnul => ?_⟩⟩
  · have hread := ((isString_blit_iff src).mp hcopy.isString).2
    rwa [List.drop_length] at hread
  · have hdest : (m.blit dest m src.addr src.chars.length).IsString dest src.chars := by
      rw [isString_blit_iff, List.drop_length]
      exact ⟨List.prefix_rfl, hnul⟩
    have hsource : (m.blit dest m src.addr src.chars.length).IsString src.addr src.chars := by
      unfold Disjoint at hdisjoint
      exact src.isString.congr_at fun i hi => Memory.blit_outside (by omega)
    refine ⟨hdest, ?_, ⟨_, strlen_eq hdest hroom, strlen_eq hsource src.inMemory⟩,
      fun x hx => Memory.blit_outside (by omega), rfl⟩
    rw [strcmp_eq hdest hsource hroom src.inMemory, Option.some_inj,
      ByteString.difference_eq_zero_iff hdest.noNul hdest.noNul]

/-! ## A longer string in the destination -/

/-- "a" at 16 and "xxx" at 32. -/
def twoStrings : Memory := fun x =>
  if x = 17 ∨ x = 35 then 0 else if x = 16 then 97 else 120

def shortString : CString twoStrings where
  addr := 16
  chars := [97]
  isString := by decide
  inMemory := by decide

/-- After "a" is copied over "xxx" the destination reads "axx". -/
theorem twoStrings_not_copied : 32 + shortString.chars.length < 2 ^ 64 ∧
    Disjoint 32 shortString.addr (shortString.chars.length + 1) ∧
    ∃ m', strcpy twoStrings 32 shortString.addr = some (32, m') ∧
      strlen m' 32 = some 3 ∧ strcmp m' 32 shortString.addr = some 120 ∧
      ¬ IsCopy 32 shortString 32 m' := by
  refine ⟨by decide, Or.inr (by decide), _, rfl, rfl, rfl, fun hcopy => ?_⟩
  exact absurd hcopy.isString (by decide)

theorem twoStrings_copied : ∃ p m', strcpy twoStrings 34 shortString.addr = some (p, m') ∧
    IsCopy 34 shortString p m' := by
  obtain ⟨p, m', hcall, hcopy⟩ :=
    @strcpy_isCopy_iff twoStrings 34 shortString (by decide) (Or.inr (by decide))
  exact ⟨p, m', hcall, hcopy.mpr rfl⟩

end BadOS.Libc
