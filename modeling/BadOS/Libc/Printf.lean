import BadOS.Libc.String

/-! # Formatted output

`printf` with the conversions `c`, `s`, `d` and `x`. Every byte is printed by
`putchar`, which returns its argument and so never `EOF`.
-/

namespace BadOS.Libc

/-- The characters of a string literal. -/
def ascii (s : String) : List UInt8 := s.toList.map fun c => UInt8.ofNat c.toNat

/-- A `char` read as the signed integer it is promoted to. -/
def charToInt (c : UInt8) : ℤ := Int.bmod c.toNat 256

/-- An argument: an `int`, or a pointer to characters. -/
inductive PrintfArg
  | int (n : ℤ)
  | str (p : ℕ)
deriving DecidableEq

namespace Printf

def intMax : ℤ := 2 ^ 31 - 1

/-- `'%'`. -/
def percent : UInt8 := 37

/-- `amount = 1; while (format[amount] && format[amount] != '%') amount++`. -/
def literalAmount (format : List UInt8) : ℕ :=
  1 + (format.tail.takeWhile (· ≠ percent)).length

def digitChar (rem : ℕ) : UInt8 := UInt8.ofNat (if rem < 10 then rem + 48 else rem - 10 + 97)

/-- The digits put in `buffer`, lowest first, at most as many as it holds. -/
def extractDigits (base : ℕ) : ℕ → ℕ → List UInt8
  | 0, _ => []
  | room + 1, n => if n = 0 then [] else digitChar (n % base) :: extractDigits base room (n / base)

/-- What `%d` and `%x` print for `num`: a sign, and the digits from the highest. -/
def number (isHex : Bool) (num : ℤ) : List UInt8 :=
  let base := if isHex then 16 else 10
  if num = 0 then [48]
  else if isHex = false ∧ num < 0 then
    45 :: (extractDigits base 32 (CInt.toU32 (-num))).reverse
  else (extractDigits base 32 (CInt.toU32 num)).reverse

/-- The format still to read, the arguments left and the count so far. -/
structure State where
  format : List UInt8
  args : List PrintfArg
  written : ℤ

/-- What one round of the loop does: print and return, or print and go on. -/
inductive Round
  | done (result : ℤ) (data : List UInt8)
  | next (data : List UInt8) (s : State)

/-- `size_t maxrem = INT_MAX - written`. -/
def maxrem (written : ℤ) : ℕ := CInt.toU64 (intMax - written)

/-- Characters up to the next `%`, behind the first one. -/
def literal (format : List UInt8) (args : List PrintfArg) (written : ℤ) : Round :=
  let amount := literalAmount format
  if maxrem written < amount then .done (-1) []
  else .next (format.take amount) ⟨format.drop amount, args, CInt.toI32 (written + amount)⟩

/-- A conversion, `rest` being the format behind the `%`. It is `none` when
`va_arg` has no argument of the type asked for, or when a string does not end. -/
def conversion (m : Memory) (rest : List UInt8) (args : List PrintfArg) (written : ℤ) :
    Option Round :=
  match rest, args with
  | 99 :: rest, .int n :: args => -- 'c'
      some (if maxrem written = 0 then .done (-1) []
        else .next [UInt8.ofNat (CInt.toU8 n)] ⟨rest, args, CInt.toI32 (written + 1)⟩)
  | 115 :: rest, .str p :: args => -- 's'
      (strlen m p).map fun len =>
        if maxrem written < len then .done (-1) []
        else .next (m.bytes p len) ⟨rest, args, CInt.toI32 (written + len)⟩
  | 100 :: rest, .int num :: args => -- 'd'
      let data := number false num
      some (.next data ⟨rest, args, CInt.toI32 (written + data.length)⟩)
  | 120 :: rest, .int num :: args => -- 'x'
      let data := number true num
      some (.next data ⟨rest, args, CInt.toI32 (written + data.length)⟩)
  | 99 :: _, _ => none
  | 115 :: _, _ => none
  | 100 :: _, _ => none
  | 120 :: _, _ => none
  | _, _ => -- any other prints the format from the '%' on
      let format := percent :: rest
      some (if maxrem written < format.length then .done (-1) []
        else .next format ⟨[], args, CInt.toI32 (written + format.length)⟩)

def step (m : Memory) (s : State) : Option Round :=
  match s.format with
  | [] => some (.done s.written [])
  | c :: rest =>
      if c ≠ percent ∨ rest.head? = some percent then
        some (literal (if c = percent then rest else c :: rest) s.args s.written)
      else conversion m rest s.args s.written

/-- At most `fuel` rounds; the value returned and the bytes printed. -/
def loop (m : Memory) : ℕ → State → Option (ℤ × List UInt8)
  | 0, _ => none
  | fuel + 1, s =>
      (step m s).bind fun round =>
        match round with
        | .done result data => some (result, data)
        | .next data s => (loop m fuel s).map fun result => (result.1, data ++ result.2)

end Printf

/-- The value returned and the bytes printed. Every round but the last reads a
character of the format. -/
def printf (m : Memory) (format : List UInt8) (args : List PrintfArg) :
    Option (ℤ × List UInt8) :=
  Printf.loop m (format.length + 1) ⟨format, args, 0⟩

/-- The bytes a `printf` prints. -/
def printed (m : Memory) (format : String) (args : List PrintfArg) : Option (List UInt8) :=
  (printf m (ascii format) args).map Prod.snd

/-! ## Single conversions -/

variable {m : Memory} {fuel : ℕ} {chunk rest : List UInt8} {args : List PrintfArg} {written : ℤ}

/-- A `char` passed as an `int` comes back. -/
theorem toU8_charToInt (c : UInt8) : UInt8.ofNat (CInt.toU8 (charToInt c)) = c := by
  have hmod : charToInt c % 2 ^ 8 = (c.toNat : ℤ) % 2 ^ 8 := by
    unfold charToInt
    exact Int.bmod_emod
  have hbyte := c.toNat_lt
  have hvalue : ((c.toNat : ℤ) % 2 ^ 8).toNat = c.toNat := by omega
  unfold CInt.toU8
  rw [hmod, hvalue, UInt8.ofNat_toNat]

namespace Printf

theorem maxrem_eq (hlo : 0 ≤ written) (hhi : written ≤ intMax) :
    (maxrem written : ℤ) = intMax - written := by
  unfold maxrem CInt.toU64 intMax at *
  omega

theorem count_eq {n : ℤ} (hlo : 0 ≤ written + n) (hhi : written + n ≤ intMax) :
    CInt.toI32 (written + n) = written + n := by
  unfold intMax at hhi
  exact CInt.toI32_of_range (by omega) (by omega)

theorem loop_next {s s' : State} {data : List UInt8} (hstep : step m s = some (.next data s')) :
    loop m (fuel + 1) s = (loop m fuel s').map fun result => (result.1, data ++ result.2) := by
  rw [loop, hstep]
  rfl

theorem loop_nil : loop m (fuel + 1) ⟨[], args, written⟩ = some (written, []) := rfl

/-- The first character is not looked at. -/
theorem literalAmount_cons (c : UInt8) (hchunk : percent ∉ chunk)
    (hrest : rest = [] ∨ rest.head? = some percent) :
    literalAmount (c :: chunk ++ rest) = (c :: chunk).length := by
  have htake : (chunk ++ rest).takeWhile (· ≠ percent) = chunk := by
    rw [List.takeWhile_append_of_pos fun d hd => by
      simpa using fun h : d = percent => hchunk (h ▸ hd)]
    rcases rest with _ | ⟨d, rest⟩
    · rw [List.takeWhile_nil, List.append_nil]
    · have hd : d = percent := by simpa using hrest
      rw [List.takeWhile_cons_of_neg (by simp [hd]), List.append_nil]
  rw [literalAmount, List.cons_append, List.tail_cons, htake, List.length_cons, Nat.add_comm]

/-- A round that prints `text`. The numbers are not checked against the room left. -/
def printRound (checked : Bool) (text rest : List UInt8) (args : List PrintfArg) (written : ℤ) :
    Round :=
  if checked ∧ intMax < written + text.length then .done (-1) []
  else .next text ⟨rest, args, CInt.toI32 (written + text.length)⟩

/-- What fits is printed and counted. -/
theorem printRound_fits {checked : Bool} {text : List UInt8} (hlo : 0 ≤ written)
    (hhi : written + text.length ≤ intMax) :
    printRound checked text rest args written =
      .next text ⟨rest, args, written + text.length⟩ := by
  rw [printRound, if_neg fun h => absurd h.2 (not_lt.mpr hhi), count_eq (by omega) hhi]

/-- The checks against `maxrem`. -/
theorem maxrem_lt_iff {n : ℕ} (hlo : 0 ≤ written) (hhi : written ≤ intMax) :
    maxrem written < n ↔ intMax < written + n := by
  have hmaxrem := maxrem_eq hlo hhi
  omega

theorem literal_cons (c : UInt8) (hchunk : percent ∉ chunk)
    (hrest : rest = [] ∨ rest.head? = some percent) (hlo : 0 ≤ written)
    (hhi : written ≤ intMax) :
    literal (c :: chunk ++ rest) args written = printRound true (c :: chunk) rest args written := by
  unfold literal printRound
  dsimp only
  rw [literalAmount_cons c hchunk hrest, List.take_left, List.drop_left]
  simp only [maxrem_lt_iff hlo hhi, true_and]

/-- Characters before the next `%` are printed as they stand. -/
theorem step_chunk (hchunk : percent ∉ chunk) (hne : chunk ≠ [])
    (hrest : rest = [] ∨ rest.head? = some percent) (hlo : 0 ≤ written)
    (hhi : written ≤ intMax) :
    step m ⟨chunk ++ rest, args, written⟩ = some (printRound true chunk rest args written) := by
  obtain ⟨c, tail, rfl⟩ := List.exists_cons_of_ne_nil hne
  rw [List.mem_cons, not_or] at hchunk
  unfold step
  rw [List.cons_append]
  dsimp only
  rw [if_pos (Or.inl (Ne.symm hchunk.1)), if_neg (Ne.symm hchunk.1), ← List.cons_append,
    literal_cons c hchunk.2 hrest hlo hhi]

theorem step_char {n : ℤ} (hlo : 0 ≤ written) (hhi : written ≤ intMax) :
    step m ⟨percent :: 99 :: rest, .int n :: args, written⟩ =
      some (printRound true [UInt8.ofNat (CInt.toU8 n)] rest args written) := by
  have hmaxrem := maxrem_eq hlo hhi
  have hfull : maxrem written = 0 ↔ intMax < written + 1 := by omega
  unfold step
  dsimp only
  rw [if_neg (by simp [percent]), conversion]
  unfold printRound
  simp only [hfull, List.length_singleton, Nat.cast_one, true_and]

theorem step_string {p len : ℕ} (hlen : strlen m p = some len) (hlo : 0 ≤ written)
    (hhi : written ≤ intMax) :
    step m ⟨percent :: 115 :: rest, .str p :: args, written⟩ =
      some (printRound true (m.bytes p len) rest args written) := by
  unfold step
  dsimp only
  rw [if_neg (by simp [percent]), conversion, hlen, Option.map_some]
  unfold printRound
  simp only [maxrem_lt_iff hlo hhi, Memory.length_bytes, true_and]

/-- A literal that fits. -/
theorem step_literal (hchunk : percent ∉ chunk) (hne : chunk ≠ [])
    (hrest : rest = [] ∨ rest.head? = some percent) (hlo : 0 ≤ written)
    (hhi : written + chunk.length ≤ intMax) :
    step m ⟨chunk ++ rest, args, written⟩ =
      some (.next chunk ⟨rest, args, written + chunk.length⟩) := by
  rw [step_chunk hchunk hne hrest hlo (by omega), printRound_fits hlo hhi]

end Printf

open Printf

theorem printed_char (m : Memory) (c : UInt8) :
    printed m "%c" [.int (charToInt c)] = some [c] := by
  have hformat : ascii "%c" = percent :: 99 :: [] := by decide
  have hstep : step m ⟨percent :: 99 :: [], [.int (charToInt c)], 0⟩ =
      some (.next [c] ⟨[], [], 1⟩) := by
    rw [step_char le_rfl (by decide), printRound_fits le_rfl (by simp [intMax]), toU8_charToInt]
    rfl
  rw [printed, printf, hformat, loop_next hstep, List.length_cons, loop_nil]
  rfl

/-- A literal that fits in an `int` count. -/
theorem printed_literal (m : Memory) {s : String} (hne : ascii s ≠ [])
    (hchunk : percent ∉ ascii s) (hlength : (ascii s).length ≤ intMax) :
    printed m s [] = some (ascii s) := by
  obtain ⟨n, hn⟩ : ∃ n, (ascii s).length = n + 1 :=
    ⟨(ascii s).length - 1, by have := List.length_pos_iff.mpr hne; omega⟩
  have hstep : step m ⟨ascii s ++ [], [], 0⟩ =
      some (.next (ascii s) ⟨[], [], 0 + (ascii s).length⟩) :=
    step_literal hchunk hne (Or.inl rfl) le_rfl (by omega)
  rw [List.append_nil] at hstep
  rw [printed, printf, loop_next hstep, hn, loop_nil]
  simp

/-- A string between two literals. -/
theorem printed_string {p : ℕ} {s : String} {head tail : List UInt8} {len : ℕ}
    (hformat : ascii s = head ++ percent :: 115 :: tail) (hhead : head ≠ [] ∧ percent ∉ head)
    (htail : tail ≠ [] ∧ percent ∉ tail) (hlen : strlen m p = some len)
    (hlength : (head.length + len + tail.length : ℤ) ≤ intMax) :
    printed m s [.str p] = some (head ++ m.bytes p len ++ tail) := by
  obtain ⟨n, hn⟩ : ∃ n, (ascii s).length + 1 = n + 1 + 1 + 1 + 1 := by
    refine ⟨(ascii s).length - 3, ?_⟩
    rw [hformat, List.length_append]
    have := List.length_pos_iff.mpr hhead.1
    simp only [List.length_cons]
    omega
  have hlast : step m ⟨tail ++ [], [], head.length + len⟩ =
      some (.next tail ⟨[], [], head.length + len + tail.length⟩) :=
    step_literal htail.2 htail.1 (Or.inl rfl) (by omega) hlength
  have hstring : step m ⟨percent :: 115 :: tail, [.str p], head.length⟩ =
      some (.next (m.bytes p len) ⟨tail, [], head.length + len⟩) := by
    have hfits : (head.length : ℤ) + (m.bytes p len).length ≤ intMax := by
      rw [Memory.length_bytes]
      omega
    rw [step_string hlen (by omega) (by omega), printRound_fits (by omega) hfits,
      Memory.length_bytes]
  rw [List.append_nil] at hlast
  rw [printed, printf, hn, hformat,
    loop_next (step_literal hhead.2 hhead.1 (Or.inr rfl) le_rfl (by omega)), zero_add,
    loop_next hstring, loop_next hlast, loop_nil]
  simp

end BadOS.Libc
