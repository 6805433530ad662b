import BadOS.Foundation.Loop

/-! # Byte-addressed memory

A memory gives the byte at each address. Integers are stored little-endian in
any number of bytes, and a load is determined by the bytes it covers.
-/

abbrev Memory := ℕ → UInt8

namespace Memory

/-- The little-endian value of the `n` bytes at `a`. -/
def load (m : Memory) (a : ℕ) : ℕ → ℕ
  | 0 => 0
  | n + 1 => (m a).toNat + 256 * load m (a + 1) n

/-- Store the low `n` bytes of `v` at `a`, little-endian. -/
def store (m : Memory) (a n v : ℕ) : Memory := fun x =>
  if a ≤ x ∧ x < a + n then UInt8.ofNat (v / 256 ^ (x - a)) else m x

/-- Set the `n` bytes at `a` to `b`. -/
def fill (m : Memory) (a n : ℕ) (b : UInt8) : Memory := fun x =>
  if a ≤ x ∧ x < a + n then b else m x

/-- Copy the `n` bytes of `src` at `s` to `d`. -/
def blit (m : Memory) (d : ℕ) (src : Memory) (s n : ℕ) : Memory := fun x =>
  if d ≤ x ∧ x < d + n then src (s + (x - d)) else m x

variable {m m' : Memory} {a b n k v : ℕ}

/-! ## Loads -/

theorem load_lt (m : Memory) (a n : ℕ) : m.load a n < 256 ^ n := by
  induction n generalizing a with
  | zero => simp [load]
  | succ n ih =>
      have hbyte := (m a).toNat_lt
      have htail := ih (a + 1)
      simp only [load, pow_succ]
      omega

/-- Equal bytes, at whatever addresses, give equal values. -/
theorem load_congr_at (h : ∀ i < n, m (a + i) = m' (b + i)) : m.load a n = m'.load b n := by
  induction n generalizing a b with
  | zero => rfl
  | succ n ih =>
      have hhead : m a = m' b := h 0 (by omega)
      have htail : m.load (a + 1) n = m'.load (b + 1) n := by
        apply ih
        intro i hi
        have := h (i + 1) (by omega)
        rwa [show a + 1 + i = a + (i + 1) by omega, show b + 1 + i = b + (i + 1) by omega]
      rw [load, load, hhead, htail]

theorem load_congr (h : ∀ i < n, m (a + i) = m' (a + i)) : m.load a n = m'.load a n :=
  load_congr_at h

theorem load_eq_of_bytes (h : ∀ i < n, m (a + i) = UInt8.ofNat (v / 256 ^ i)) :
    m.load a n = v % 256 ^ n := by
  induction n generalizing a v with
  | zero => simp [load, Nat.mod_one]
  | succ n ih =>
      have hhead : (m a).toNat = v % 256 := by
        have := h 0 (by omega)
        simp only [Nat.add_zero, pow_zero, Nat.div_one] at this
        rw [this]
        simp
      have htail : m.load (a + 1) n = v / 256 % 256 ^ n := by
        apply ih
        intro i hi
        have := h (i + 1) (by omega)
        rw [show a + 1 + i = a + (i + 1) by omega, this, Nat.div_div_eq_div_mul, pow_succ,
          Nat.mul_comm]
      rw [load, hhead, htail, pow_succ, Nat.mul_comm (256 ^ n) 256, Nat.mod_mul]

/-- Each byte of a loaded value is the byte in memory. -/
theorem load_byte {i : ℕ} (hi : i < n) : UInt8.ofNat (m.load a n / 256 ^ i) = m (a + i) := by
  induction n generalizing a i with
  | zero => omega
  | succ n ih =>
      have hbyte := (m a).toNat_lt
      rw [load]
      cases i with
      | zero =>
          rw [pow_zero, Nat.div_one]
          change _ = m a
          apply UInt8.toNat_inj.mp
          rw [UInt8.toNat_ofNat', Nat.add_mul_mod_self_left, Nat.mod_eq_of_lt hbyte]
      | succ i =>
          have htail : ((m a).toNat + 256 * m.load (a + 1) n) / 256 = m.load (a + 1) n := by omega
          rw [pow_succ', ← Nat.div_div_eq_div_mul, htail, ih (by omega)]
          congr 1
          omega

/-- The bits of a loaded value are the bits of its bytes. -/
theorem testBit_load {i : ℕ} (hi : i < 8 * n) :
    (m.load a n).testBit i = (m (a + i / 8)).toNat.testBit (i % 8) := by
  have hbyte := load_byte (m := m) (a := a) (show i / 8 < n by omega)
  have hpow : (256 : ℕ) ^ (i / 8) = 2 ^ (8 * (i / 8)) := by
    rw [pow_mul]
    rfl
  have hr : i % 8 < 8 := Nat.mod_lt _ (by decide)
  rw [← hbyte, UInt8.toNat_ofNat', Nat.testBit_mod_two_pow, hpow, Nat.testBit_div_two_pow,
    Nat.mod_add_div, decide_eq_true hr, Bool.true_and]

/-! ## Stores -/

theorem store_outside {x : ℕ} (h : x < a ∨ a + n ≤ x) : m.store a n v x = m x := by
  unfold store
  rw [if_neg (by omega)]

theorem store_inside {i : ℕ} (h : i < n) :
    m.store a n v (a + i) = UInt8.ofNat (v / 256 ^ i) := by
  unfold store
  rw [if_pos (by omega), Nat.add_sub_cancel_left]

theorem load_store_mod : (m.store a n v).load a n = v % 256 ^ n :=
  load_eq_of_bytes (fun _ hi => store_inside hi)

theorem load_store (hv : v < 256 ^ n) : (m.store a n v).load a n = v := by
  rw [load_store_mod, Nat.mod_eq_of_lt hv]

theorem load_store_of_disjoint (h : a + n ≤ b ∨ b + k ≤ a) :
    (m.store a n v).load b k = m.load b k :=
  load_congr (fun _ _ => store_outside (by omega))

/-! ## Block operations -/

theorem fill_inside {x : ℕ} {c : UInt8} (hlo : a ≤ x) (hhi : x < a + n) :
    m.fill a n c x = c := if_pos ⟨hlo, hhi⟩

theorem fill_outside {x : ℕ} {c : UInt8} (h : x < a ∨ a + n ≤ x) : m.fill a n c x = m x := by
  unfold fill
  rw [if_neg (by omega)]

theorem load_fill_zero (hlo : a ≤ b) (hhi : b + k ≤ a + n) : (m.fill a n 0).load b k = 0 := by
  have hbytes : ∀ i < k, m.fill a n 0 (b + i) = UInt8.ofNat (0 / 256 ^ i) := by
    intro i hi
    rw [fill_inside (by omega) (by omega), Nat.zero_div]
    rfl
  rw [load_eq_of_bytes hbytes, Nat.zero_mod]

theorem load_fill_of_disjoint {c : UInt8} (h : a + n ≤ b ∨ b + k ≤ a) :
    (m.fill a n c).load b k = m.load b k :=
  load_congr (fun _ _ => fill_outside (by omega))

theorem blit_inside {src : Memory} {s i : ℕ} (hi : i < n) :
    m.blit a src s n (a + i) = src (s + i) := by
  unfold blit
  rw [if_pos (by omega), Nat.add_sub_cancel_left]

theorem blit_outside {src : Memory} {s x : ℕ} (h : x < a ∨ a + n ≤ x) :
    m.blit a src s n x = m x := by
  unfold blit
  rw [if_neg (by omega)]

/-- Two memories that agree inside a range and outside it. -/
theorem ext_window (a n : ℕ) (hinside : ∀ i < n, m (a + i) = m' (a + i))
    (houtside : ∀ x, x < a ∨ a + n ≤ x → m x = m' x) : m = m' := by
  funext x
  by_cases hx : a ≤ x ∧ x < a + n
  · obtain ⟨i, rfl⟩ := Nat.exists_eq_add_of_le hx.1
    exact hinside i (by omega)
  · exact houtside x (by omega)

theorem blit_congr {src src' : Memory} {s : ℕ} (h : ∀ i < n, src (s + i) = src' (s + i)) :
    m.blit a src s n = m.blit a src' s n := by
  apply ext_window a n
  · intro i hi
    rw [blit_inside hi, blit_inside hi, h i hi]
  · intro x hx
    rw [blit_outside hx, blit_outside hx]

theorem fill_zero_length {c : UInt8} : m.fill a 0 c = m := by
  funext x
  exact fill_outside (by omega)

theorem blit_zero_length {src : Memory} {s : ℕ} : m.blit a src s 0 = m := by
  funext x
  exact blit_outside (by omega)

/-- Storing a loaded value copies its bytes. -/
theorem store_load (m m' : Memory) (a b n : ℕ) :
    m.store a n (m'.load b n) = m.blit a m' b n := by
  apply ext_window a n
  · intro i hi
    rw [store_inside hi, blit_inside hi, load_byte hi]
  · intro x hx
    rw [store_outside hx, blit_outside hx]

theorem blit_eq_self_iff {s : ℕ} : m.blit a m s n = m ↔ ∀ i < n, m (a + i) = m (s + i) := by
  constructor
  · intro heq i hi
    have hbyte : m.blit a m s n (a + i) = m (s + i) := blit_inside hi
    rwa [heq] at hbyte
  · intro hsame
    apply ext_window a n
    · intro i hi
      rw [blit_inside hi, hsame i hi]
    · exact fun x hx => blit_outside hx

/-- Copies of adjacent ranges make one copy. -/
theorem blit_blit {src : Memory} {s k : ℕ} :
    (m.blit a src s n).blit (a + n) src (s + n) k = m.blit a src s (n + k) := by
  funext x
  by_cases hlow : a ≤ x ∧ x < a + n
  · obtain ⟨i, rfl⟩ := Nat.exists_eq_add_of_le hlow.1
    rw [blit_outside (by omega), blit_inside (by omega), blit_inside (by omega)]
  · by_cases hhigh : a + n ≤ x ∧ x < a + n + k
    · obtain ⟨i, rfl⟩ := Nat.exists_eq_add_of_le hhigh.1
      rw [blit_inside (by omega), Nat.add_assoc s, Nat.add_assoc a, blit_inside (by omega)]
    · rw [blit_outside (by omega), blit_outside (by omega), blit_outside (by omega)]

/-- One more byte at the end of a filled range. -/
theorem update_fill {c : UInt8} :
    Function.update (m.fill a n c) (a + n) c = m.fill a (n + 1) c := by
  funext x
  by_cases hx : x = a + n
  · subst hx
    rw [Function.update_self, fill_inside (by omega) (by omega)]
  · rw [Function.update_of_ne hx]
    unfold fill
    congr 1
    simp only [eq_iff_iff]
    omega

/-- One more byte at the end of a copied range. -/
theorem update_blit {src : Memory} {s : ℕ} :
    Function.update (m.blit a src s n) (a + n) (src (s + n)) = m.blit a src s (n + 1) := by
  funext x
  by_cases hx : x = a + n
  · subst hx
    rw [Function.update_self, blit_inside (by omega)]
  · rw [Function.update_of_ne hx]
    unfold blit
    congr 1
    simp only [eq_iff_iff]
    omega

/-- One more byte at the start of a copied range. -/
theorem update_blit_front {src : Memory} {s : ℕ} :
    Function.update (m.blit (a + 1) src (s + 1) n) a (src s) = m.blit a src s (n + 1) := by
  apply ext_window a (n + 1)
  · intro i hi
    rw [blit_inside hi]
    cases i with
    | zero => exact Function.update_self _ _ _
    | succ i =>
        rw [Function.update_of_ne (by omega), show a + (i + 1) = a + 1 + i by omega,
          blit_inside (by omega), Nat.add_assoc s, Nat.add_comm 1 i]
  · intro x hx
    rw [Function.update_of_ne (by omega), blit_outside (by omega), blit_outside hx]

/-- Two changes to separate bytes change nothing exactly when neither does. -/
theorem comp_eq_self_iff {f g : Memory → Memory} {W : ℕ → Prop} (hf : ∀ x, W x → f m x = m x)
    (hg : ∀ m' x, ¬ W x → g m' x = m' x) : g (f m) = m ↔ f m = m ∧ g m = m := by
  constructor
  · intro heq
    have hfirst : f m = m := by
      funext x
      by_cases hx : W x
      · exact hf x hx
      · exact (hg _ x hx).symm.trans (congrFun heq x)
    rw [hfirst] at heq
    exact ⟨hfirst, heq⟩
  · rintro ⟨hfirst, hsecond⟩
    rw [hfirst, hsecond]

/-! ## Rounds that write one range after the other -/

section Rounds

variable {f : ℕ → Memory → Memory} {start : ℕ → ℕ}

theorem times_outside (hmono : Monotone start)
    (hrange : ∀ i m x, x < start i ∨ start (i + 1) ≤ x → f i m x = m x) {x : ℕ}
    (hx : x < start 0 ∨ start n ≤ x) : Loop.times n f m x = m x := by
  induction n with
  | zero => rfl
  | succ n ih =>
      have hfirst := hmono (Nat.zero_le n)
      have hlast : start n ≤ start (n + 1) := hmono (Nat.le_succ n)
      rw [Loop.times_succ, hrange _ _ _ (by omega)]
      exact ih (by omega)

/-- The rounds change nothing exactly when none of them changes anything. -/
theorem times_eq_self_iff (hmono : Monotone start)
    (hrange : ∀ i m x, x < start i ∨ start (i + 1) ≤ x → f i m x = m x) :
    Loop.times n f m = m ↔ ∀ i < n, f i m = m := by
  induction n with
  | zero => exact iff_of_true rfl fun i hi => absurd hi (Nat.not_lt_zero i)
  | succ n ih =>
      rw [Loop.times_succ, comp_eq_self_iff (W := fun x => start n ≤ x)
        (fun x hx => times_outside hmono hrange (Or.inr hx))
        (fun m' x hx => hrange n m' x (Or.inl (not_le.mp hx))), ih]
      constructor
      · rintro ⟨hbefore, hlast⟩ i hi
        rcases Nat.lt_succ_iff_lt_or_eq.mp hi with hlt | rfl
        · exact hbefore i hlt
        · exact hlast
      · exact fun hnone => ⟨fun i hi => hnone i (by omega), hnone n (Nat.lt_succ_self n)⟩

end Rounds

/-! ## Copying within a memory -/

/-- Upwards, a byte is read before it is overwritten if the copy does not start above
its source. -/
theorem times_copy {s : ℕ} (h : a ≤ s ∨ s + n ≤ a) :
    Loop.times n (fun i m => Function.update m (a + i) (m (s + i))) m = m.blit a m s n := by
  apply Loop.times_invariant (fun i b => b = m.blit a m s i)
  · exact blit_zero_length.symm
  · rintro i hi b rfl
    have hsource : m.blit a m s i (s + i) = m (s + i) := blit_outside (by omega)
    rw [hsource, update_blit]

/-- Downwards, if it does not start below its source. -/
theorem countdown_copy {s : ℕ} (h : s ≤ a ∨ a + n ≤ s) :
    Loop.countdown n (fun i m => Function.update m (a + (i - 1)) (m (s + (i - 1)))) m =
      m.blit a m s n := by
  apply Loop.countdown_invariant (fun i b => b = m.blit (a + i) m (s + i) (n - i))
  · rw [Nat.sub_self]
    exact blit_zero_length.symm
  · rintro i hi b rfl
    have hsource : m.blit (a + (i + 1)) m (s + (i + 1)) (n - (i + 1)) (s + i) = m (s + i) :=
      blit_outside (by omega)
    rw [Nat.add_sub_cancel, hsource, ← Nat.add_assoc, ← Nat.add_assoc, update_blit_front,
      show n - (i + 1) + 1 = n - i by omega]

/-! ## A byte outside -/

theorem load_update_of_outside {x : ℕ} {c : UInt8} (h : x < a ∨ a + n ≤ x) :
    load (Function.update m x c) a n = load m a n :=
  load_congr fun _ _ => Function.update_of_ne (by omega) _ _

theorem store_update_of_outside {x : ℕ} {c : UInt8} (h : x < a ∨ a + n ≤ x) :
    store (Function.update m x c) a n v = Function.update (store m a n v) x c := by
  funext y
  by_cases hy : y = x
  · rw [hy, store_outside h, Function.update_self, Function.update_self]
  · rw [Function.update_of_ne hy]
    unfold store
    rw [Function.update_of_ne hy]

theorem fill_update_of_outside {x : ℕ} {b c : UInt8} (h : x < a ∨ a + n ≤ x) :
    fill (Function.update m x c) a n b = Function.update (fill m a n b) x c := by
  funext y
  by_cases hy : y = x
  · rw [hy, fill_outside h, Function.update_self, Function.update_self]
  · rw [Function.update_of_ne hy]
    unfold fill
    rw [Function.update_of_ne hy]

theorem blit_update_of_outside {src : Memory} {s x : ℕ} {c : UInt8} (h : x < a ∨ a + n ≤ x) :
    blit (Function.update m x c) a src s n = Function.update (blit m a src s n) x c := by
  funext y
  by_cases hy : y = x
  · rw [hy, blit_outside h, Function.update_self, Function.update_self]
  · rw [Function.update_of_ne hy]
    unfold blit
    rw [Function.update_of_ne hy]

/-! ## Steps that write in windows -/

/-- Each step writes the bytes of `value` in a window of its own and leaves the
rest alone. The steps together write `value` where some window is. -/
theorem foldl_windows {Op : Type*} {step : Memory → Op → Memory} {inv : Memory → Prop}
    {window : Op → ℕ → Prop} {value : ℕ → UInt8} (ops : List Op) (hinv : inv m)
    (hstep : ∀ op ∈ ops, ∀ m, inv m → inv (step m op) ∧
      ∀ x, (window op x → step m op x = value x) ∧ (¬ window op x → step m op x = m x)) :
    inv (ops.foldl step m) ∧
      ∀ x, ((∃ op ∈ ops, window op x) → ops.foldl step m x = value x) ∧
        ((∀ op ∈ ops, ¬ window op x) → ops.foldl step m x = m x) := by
  induction ops generalizing m with
  | nil =>
      refine ⟨hinv, fun x => ⟨?_, fun _ => rfl⟩⟩
      rintro ⟨op, hop, -⟩
      exact absurd hop List.not_mem_nil
  | cons op ops ih =>
      obtain ⟨hinv', hhead⟩ := hstep op List.mem_cons_self m hinv
      obtain ⟨hfinal, hrest⟩ := ih hinv' fun op' hop' => hstep op' (List.mem_cons_of_mem _ hop')
      refine ⟨hfinal, fun x => ⟨?_, ?_⟩⟩
      · rintro ⟨op', hop', hx⟩
        by_cases hlater : ∃ op' ∈ ops, window op' x
        · exact (hrest x).1 hlater
        · have hnone : ∀ op' ∈ ops, ¬ window op' x := fun op' hop' hx => hlater ⟨op', hop', hx⟩
          rcases List.mem_cons.mp hop' with rfl | hmem
          · exact ((hrest x).2 hnone).trans ((hhead x).1 hx)
          · exact absurd ⟨op', hmem, hx⟩ hlater
      · intro hnone
        rw [List.foldl_cons, (hrest x).2 fun op' hop' => hnone op' (List.mem_cons_of_mem _ hop'),
          (hhead x).2 (hnone op List.mem_cons_self)]

/-! ## Strings -/

/-- The `n` bytes at `a`, in order. -/
def bytes (m : Memory) (a n : ℕ) : List UInt8 := (List.range n).map fun i => m (a + i)

/-- The characters of `s` and a NUL behind them stand at `a`. -/
def IsString (m : Memory) : ℕ → List UInt8 → Prop
  | a, [] => m a = 0
  | a, c :: s => m a = c ∧ c ≠ 0 ∧ IsString m (a + 1) s

instance decidableIsString (m : Memory) : ∀ a s, Decidable (m.IsString a s)
  | a, [] => inferInstanceAs (Decidable (m a = 0))
  | a, c :: s =>
      have := decidableIsString m (a + 1) s
      inferInstanceAs (Decidable (m a = c ∧ c ≠ 0 ∧ m.IsString (a + 1) s))

@[simp] theorem bytes_zero : m.bytes a 0 = [] := rfl

@[simp] theorem length_bytes : (m.bytes a n).length = n := by simp [bytes]

theorem bytes_succ : m.bytes a (n + 1) = m a :: m.bytes (a + 1) n := by
  unfold bytes
  rw [List.range_succ_eq_map, List.map_cons, List.map_map, Nat.add_zero]
  congr 1
  apply List.map_congr_left
  intro i hi
  rw [Function.comp_apply, Nat.succ_eq_add_one, Nat.add_comm i 1, Nat.add_assoc]

theorem bytes_append_one : m.bytes a (n + 1) = m.bytes a n ++ [m (a + n)] := by
  unfold bytes
  rw [List.range_succ, List.map_append, List.map_singleton]

theorem IsString.bytes_eq {s : List UInt8} (hs : m.IsString a s) : m.bytes a s.length = s := by
  induction s generalizing a with
  | nil => rfl
  | cons c s ih => rw [List.length_cons, bytes_succ, hs.1, ih hs.2.2]

end Memory
