import BadOS.Libc.Printf

/-! # What a format means

A reference meaning of formats, one directive at a time, and the proof that `printf`
prints it. The scanner takes a run of ordinary characters at once, and a `%%` starts
such a run.
-/

namespace BadOS.Libc

namespace Printf

/-! ## The meaning -/

/-- The value of an argument. -/
inductive Value
  | int (n : ℤ)
  | str (s : List UInt8)
deriving DecidableEq

/-- The numeral in lower case, without leading zeros. -/
def numeral (base n : ℕ) : List UInt8 := (Nat.toDigits base n).map fun c => UInt8.ofNat c.toNat

def decimal (n : ℤ) : List UInt8 :=
  if n < 0 then 45 :: numeral 10 n.natAbs else numeral 10 n.natAbs

/-- The numeral of the 32-bit pattern. -/
def hexadecimal (n : ℤ) : List UInt8 := numeral 16 (n % 2 ^ 32).toNat

/-- The byte an `int` converts to. -/
def byte (n : ℤ) : UInt8 := UInt8.ofNat (n % 2 ^ 8).toNat

/-- The output of a format, `none` when the values do not match it. -/
def render : List UInt8 → List Value → Option (List UInt8)
  | [], _ => some []
  | 37 :: 37 :: rest, values => (render rest values).map (37 :: ·) -- '%%'
  | 37 :: 99 :: rest, .int n :: values => (render rest values).map (byte n :: ·) -- '%c'
  | 37 :: 115 :: rest, .str s :: values => (render rest values).map (s ++ ·) -- '%s'
  | 37 :: 100 :: rest, .int n :: values => (render rest values).map (decimal n ++ ·) -- '%d'
  | 37 :: 120 :: rest, .int n :: values => (render rest values).map (hexadecimal n ++ ·) -- '%x'
  | 37 :: 99 :: _, _ => none
  | 37 :: 115 :: _, _ => none
  | 37 :: 100 :: _, _ => none
  | 37 :: 120 :: _, _ => none
  | 37 :: rest, _ => some (37 :: rest)
  | c :: rest, values => (render rest values).map (c :: ·)

/-- The argument stands for the value: an `int`, or a pointer to a string. -/
inductive Denotes (m : Memory) : PrintfArg → Value → Prop
  | int {n : ℤ} (hlo : -2 ^ 31 ≤ n) (hhi : n < 2 ^ 31) : Denotes m (.int n) (.int n)
  | str {p : ℕ} {s : List UInt8} (hs : m.IsString p s) (hend : p + s.length < 2 ^ 64) :
      Denotes m (.str p) (.str s)

variable {m : Memory} {format rest src text data output : List UInt8}
variable {args args' : List PrintfArg} {values : List Value} {n : ℤ}

/-! ## Numerals -/

theorem digitChar_eq {d : ℕ} (hd : d < 16) : digitChar d = UInt8.ofNat (Nat.digitChar d).toNat := by
  decide +revert

theorem numeral_eq {base : ℕ} (hlo : 2 ≤ base) (hhi : base ≤ 16) (n : ℕ) :
    numeral base n =
      (if n < base then [] else numeral base (n / base)) ++ [digitChar (n % base)] := by
  have hmod := Nat.mod_lt n (show 0 < base by omega)
  unfold numeral
  rw [Nat.toDigits_eq_if (by omega), digitChar_eq (by omega)]
  split
  next hlt => rw [Nat.mod_eq_of_lt hlt, List.map_singleton, List.nil_append]
  next => rw [List.map_append, List.map_singleton]

theorem extractDigits_zero (base room : ℕ) : extractDigits base room 0 = [] := by
  cases room with
  | zero => rfl
  | succ room => exact if_pos rfl

/-- The digits, as many as there are, from the lowest. -/
theorem reverse_extractDigits {base room : ℕ} (hlo : 2 ≤ base) (hhi : base ≤ 16) {n : ℕ}
    (hpos : n ≠ 0) (hroom : n < base ^ room) :
    (extractDigits base room n).reverse = numeral base n := by
  induction room generalizing n with
  | zero =>
      rw [pow_zero] at hroom
      omega
  | succ room ih =>
      rw [extractDigits, if_neg hpos, List.reverse_cons, numeral_eq hlo hhi n]
      congr 1
      split
      next hlt =>
        rw [Nat.div_eq_of_lt hlt, extractDigits_zero, List.reverse_nil]
      next hge =>
        refine ih (Nat.div_pos (by omega) (by omega)).ne' ?_
        rw [Nat.div_lt_iff_lt_mul (by omega), ← pow_succ]
        exact hroom

theorem numeral_length_le {base k : ℕ} (hlo : 2 ≤ base) (hk : 0 < k) {n : ℕ} (hn : n < base ^ k) :
    (numeral base n).length ≤ k := by
  rw [numeral, List.length_map]
  exact (Nat.length_toDigits_le_iff (by omega) hk).mpr hn

/-- The base of `%d` and `%x`. -/
def base (isHex : Bool) : ℕ := if isHex then 16 else 10

theorem base_bounds (isHex : Bool) :
    2 ≤ base isHex ∧ base isHex ≤ 16 ∧ 2 ^ 32 < base isHex ^ 10 ∧ 2 ^ 32 < base isHex ^ 32 := by
  cases isHex <;> decide

theorem number_eq (hlo : -2 ^ 31 ≤ n) (hhi : n < 2 ^ 31) :
    number false n = decimal n ∧ number true n = hexadecimal n := by
  have hzero : n = 0 → number false n = decimal n ∧ number true n = hexadecimal n := by
    rintro rfl
    decide
  by_cases hn : n = 0
  · exact hzero hn
  constructor
  · unfold number decimal
    by_cases hneg : n < 0
    · have habs : CInt.toU32 (-n) = n.natAbs := by
        unfold CInt.toU32
        omega
      rw [if_neg hn, if_pos ⟨rfl, hneg⟩, if_pos hneg, habs]
      congr 1
      exact reverse_extractDigits (by decide) (by decide) (by omega)
        (lt_of_lt_of_le (b := 2 ^ 32) (by omega) (by decide))
    · have habs : CInt.toU32 n = n.natAbs := by
        unfold CInt.toU32
        omega
      rw [if_neg hn, if_neg (by simp [hneg]), if_neg hneg, habs]
      exact reverse_extractDigits (by decide) (by decide) (by omega)
        (lt_of_lt_of_le (b := 2 ^ 32) (by omega) (by decide))
  · unfold number hexadecimal CInt.toU32
    rw [if_neg hn, if_neg (by simp)]
    exact reverse_extractDigits (by decide) (by decide) (by omega)
      (lt_of_lt_of_le (b := 2 ^ 32) (by omega) (by decide))

/-- No number has more digits than the buffer holds. -/
theorem extractDigits_fits (isHex : Bool) {n room : ℕ} (hn : n < 2 ^ 32) (hroom : 10 ≤ room) :
    (extractDigits (base isHex) room n).length ≤ 10 ∧
      extractDigits (base isHex) room n = extractDigits (base isHex) 32 n := by
  obtain ⟨hlo, hhi, hten, hbuffer⟩ := base_bounds isHex
  by_cases hzero : n = 0
  · rw [hzero, extractDigits_zero, extractDigits_zero]
    exact ⟨Nat.zero_le 10, rfl⟩
  · have hmore : base isHex ^ 10 ≤ base isHex ^ room := Nat.pow_le_pow_right (by omega) hroom
    have hall := reverse_extractDigits hlo hhi hzero (by omega : n < base isHex ^ room)
    have hbuffer := reverse_extractDigits hlo hhi hzero (by omega : n < base isHex ^ 32)
    constructor
    · rw [← List.length_reverse, hall]
      exact numeral_length_le hlo (by decide) (by omega)
    · exact List.reverse_injective (hall.trans hbuffer.symm)

/-! ## Runs of literal characters -/

/-- The scanner prints `text` for the source characters `src`, in one round. -/
inductive LiteralRun : List UInt8 → List UInt8 → Prop
  | plain {chunk : List UInt8} (hchunk : percent ∉ chunk) : LiteralRun chunk chunk
  | escaped {chunk : List UInt8} (hchunk : percent ∉ chunk) :
      LiteralRun (percent :: percent :: chunk) (percent :: chunk)

theorem LiteralRun.snoc (hrun : LiteralRun src text) {c : UInt8} (hc : c ≠ percent) :
    LiteralRun (src ++ [c]) (text ++ [c]) := by
  have hsingle : percent ∉ [c] := by simpa using hc.symm
  cases hrun with
  | plain hchunk => exact .plain fun hmem => (List.mem_append.mp hmem).elim hchunk hsingle
  | escaped hchunk => exact .escaped fun hmem => (List.mem_append.mp hmem).elim hchunk hsingle

theorem LiteralRun.step_eq (hrun : LiteralRun src text) (hne : src ≠ [])
    (hrest : rest = [] ∨ rest.head? = some percent) {written : ℤ} (hlo : 0 ≤ written)
    (hhi : written ≤ intMax) :
    step m ⟨src ++ rest, args, written⟩ = some (printRound true text rest args written) := by
  cases hrun with
  | plain hchunk => exact step_chunk hchunk hne hrest hlo hhi
  | @escaped chunk hchunk =>
      have hhead : (percent :: chunk ++ rest).head? = some percent := rfl
      unfold step
      rw [List.cons_append]
      dsimp only
      rw [if_pos (Or.inr hhead), if_pos rfl, literal_cons percent hchunk hrest hlo hhi]

/-! ## Directives -/

theorem step_decimal (written : ℤ) :
    step m ⟨percent :: 100 :: rest, .int n :: args, written⟩ =
      some (printRound false (number false n) rest args written) := by
  unfold step printRound
  dsimp only
  rw [if_neg (by simp [percent]), conversion, if_neg (by simp)]

theorem step_hexadecimal (written : ℤ) :
    step m ⟨percent :: 120 :: rest, .int n :: args, written⟩ =
      some (printRound false (number true n) rest args written) := by
  unfold step printRound
  dsimp only
  rw [if_neg (by simp [percent]), conversion, if_neg (by simp)]

/-- A `%` before anything else. -/
theorem step_other {written : ℤ}
    (hother : ∀ c ∈ rest.head?, c ∉ ([37, 99, 115, 100, 120] : List UInt8)) (hlo : 0 ≤ written)
    (hhi : written ≤ intMax) :
    step m ⟨percent :: rest, args, written⟩ =
      some (printRound true (percent :: rest) [] args written) := by
  have hconversion : conversion m rest args written =
      some (printRound true (percent :: rest) [] args written) := by
    unfold conversion
    split <;> first | exact absurd (by decide) (hother _ rfl) | skip
    unfold printRound
    dsimp only
    simp only [maxrem_lt_iff hlo hhi, true_and]
  unfold step
  dsimp only
  rw [if_neg, hconversion]
  rintro (hne | hhead)
  · exact hne rfl
  · exact hother percent hhead (by decide)

/-! ## Rounds -/

/-- The rounds of a format, whatever the count: whether each is checked, and its text. -/
inductive Rounds (m : Memory) :
    List UInt8 → List PrintfArg → List (Bool × List UInt8) → Prop
  | nil {args : List PrintfArg} : Rounds m [] args []
  | cons {format rest text : List UInt8} {args args' : List PrintfArg} {checked : Bool}
      {rounds : List (Bool × List UInt8)} (hlt : rest.length < format.length)
      (hstep : ∀ written, 0 ≤ written → written ≤ intMax →
        step m ⟨format, args, written⟩ = some (printRound checked text rest args' written))
      (hrounds : Rounds m rest args' rounds) : Rounds m format args ((checked, text) :: rounds)

/-- From any count, and with enough rounds, `output` is printed and counted. -/
def Prints (m : Memory) (format : List UInt8) (args : List PrintfArg) (output : List UInt8) :
    Prop :=
  ∀ written fuel, 0 ≤ written → written + output.length ≤ intMax → format.length < fuel →
    loop m fuel ⟨format, args, written⟩ = some (written + output.length, output)

theorem Rounds.prints {rounds : List (Bool × List UInt8)} (hrounds : Rounds m format args rounds) :
    Prints m format args (rounds.flatMap Prod.snd) := by
  induction hrounds with
  | nil =>
      intro written fuel hlo hhi hfuel
      obtain ⟨fuel, rfl⟩ : ∃ k, fuel = k + 1 := ⟨fuel - 1, by omega⟩
      rw [loop_nil, List.flatMap_nil, List.length_nil, Nat.cast_zero, add_zero]
  | @cons format rest text args args' checked rounds hlt hstep _ ih =>
      intro written fuel hlo hhi hfuel
      rw [List.flatMap_cons, List.length_append, Nat.cast_add, ← add_assoc] at hhi ⊢
      obtain ⟨fuel, rfl⟩ : ∃ k, fuel = k + 1 := ⟨fuel - 1, by omega⟩
      dsimp only at hhi ⊢
      have hround := hstep written hlo (by omega)
      rw [printRound_fits hlo (by omega)] at hround
      rw [loop_next hround, ih (written + text.length) fuel (by omega) hhi (by omega)]
      rfl

/-- A text that starts within the largest count goes over it. -/
def Passes (text : List UInt8) (count : ℤ) : Prop :=
  count ≤ intMax ∧ intMax < count + text.length

/-- An unchecked round goes over the largest count. -/
def Crosses : List (Bool × List UInt8) → ℤ → Prop
  | [], _ => False
  | (checked, text) :: rounds, count =>
      (checked = false ∧ Passes text count) ∨ Crosses rounds (count + text.length)

/-- A `%d` or `%x` of the format goes over the largest count. -/
def NumberCrosses : List UInt8 → List Value → ℤ → Prop
  | [], _, _ => False
  | 37 :: 37 :: rest, values, count => NumberCrosses rest values (count + 1) -- '%%'
  | 37 :: 99 :: rest, .int _ :: values, count => NumberCrosses rest values (count + 1) -- '%c'
  | 37 :: 115 :: rest, .str s :: values, count => -- '%s'
      NumberCrosses rest values (count + s.length)
  | 37 :: 100 :: rest, .int n :: values, count => -- '%d'
      Passes (decimal n) count ∨ NumberCrosses rest values (count + (decimal n).length)
  | 37 :: 120 :: rest, .int n :: values, count => -- '%x'
      Passes (hexadecimal n) count ∨ NumberCrosses rest values (count + (hexadecimal n).length)
  | 37 :: _, _, _ => False
  | _ :: rest, values, count => NumberCrosses rest values (count + 1)

theorem numberCrosses_cons {c : UInt8} (hc : c ≠ 37) {count : ℤ} :
    NumberCrosses (c :: rest) values count ↔ NumberCrosses rest values (count + 1) := by
  rw [NumberCrosses]
  all_goals simp [hc]

/-- The rounds print `output`, and an unchecked one goes over as `crosses` says. -/
def Reads (m : Memory) (format : List UInt8) (args : List PrintfArg) (output : List UInt8)
    (crosses : ℤ → Prop) : Prop :=
  ∃ rounds, Rounds m format args rounds ∧ rounds.flatMap Prod.snd = output ∧
    ∀ count, Crosses rounds count ↔ crosses count

variable {crosses crosses' : ℤ → Prop}

theorem Reads.congr (hreads : Reads m format args output crosses)
    (hsame : ∀ count, crosses count ↔ crosses' count) : Reads m format args output crosses' := by
  obtain ⟨rounds, hrounds, houtput, hcrosses⟩ := hreads
  exact ⟨rounds, hrounds, houtput, fun count => (hcrosses count).trans (hsame count)⟩

theorem reads_nil : Reads m [] args [] fun _ => False :=
  ⟨[], .nil, rfl, fun _ => Iff.rfl⟩

/-- A round in front of the others. -/
theorem Reads.next {checked : Bool} (hreads : Reads m rest args' output crosses)
    (hlt : rest.length < format.length)
    (hstep : ∀ written, 0 ≤ written → written ≤ intMax →
      step m ⟨format, args, written⟩ = some (printRound checked text rest args' written)) :
    Reads m format args (text ++ output) fun count =>
      (checked = false ∧ Passes text count) ∨ crosses (count + text.length) := by
  obtain ⟨rounds, hrounds, rfl, hcrosses⟩ := hreads
  exact ⟨_, .cons hlt hstep hrounds, rfl, fun count => or_congr_right (hcrosses _)⟩

/-- A checked round goes over nothing. -/
theorem Reads.next_checked (hreads : Reads m rest args' output crosses)
    (hlt : rest.length < format.length)
    (hstep : ∀ written, 0 ≤ written → written ≤ intMax →
      step m ⟨format, args, written⟩ = some (printRound true text rest args' written)) :
    Reads m format args (text ++ output) fun count => crosses (count + text.length) :=
  (hreads.next hlt hstep).congr fun count => or_iff_right fun h => absurd h.1 (by decide)

/-- The empty run in front. -/
theorem Reads.of_empty (hreads : Reads m ([] ++ format) args ([] ++ output) fun count =>
      crosses (count + ([] : List UInt8).length)) :
    Reads m format args output crosses :=
  hreads.congr fun count => by rw [List.length_nil, Nat.cast_zero, add_zero]

/-- A run of literal characters in front. -/
theorem LiteralRun.reads (hrun : LiteralRun src text)
    (hrest : rest = [] ∨ rest.head? = some percent) (hreads : Reads m rest args output crosses) :
    Reads m (src ++ rest) args (text ++ output) fun count => crosses (count + text.length) := by
  by_cases hne : src = []
  · subst hne
    cases hrun
    exact hreads.congr fun count => by rw [List.length_nil, Nat.cast_zero, add_zero]
  · refine hreads.next_checked ?_ fun written hlo hhi => hrun.step_eq hne hrest hlo hhi
    have := List.length_pos_iff.mpr hne
    rw [List.length_append]
    omega

/-! ## The output -/

theorem exists_int (hargs : List.Forall₂ (Denotes m) args (.int n :: values)) :
    ∃ args', args = .int n :: args' ∧ (-2 ^ 31 ≤ n ∧ n < 2 ^ 31) ∧
      List.Forall₂ (Denotes m) args' values := by
  cases hargs with
  | cons hdenotes hargs =>
      cases hdenotes with
      | int hlo hhi => exact ⟨_, rfl, ⟨hlo, hhi⟩, hargs⟩

theorem exists_str {s : List UInt8} (hargs : List.Forall₂ (Denotes m) args (.str s :: values)) :
    ∃ p args', args = .str p :: args' ∧ m.IsString p s ∧ p + s.length < 2 ^ 64 ∧
      List.Forall₂ (Denotes m) args' values := by
  cases hargs with
  | cons hdenotes hargs =>
      cases hdenotes with
      | str hs hend => exact ⟨_, _, rfl, hs, hend, hargs⟩

/-- A format that starts with `%`, in front of which a run may stand. -/
theorem LiteralRun.append_some (hrun : LiteralRun src text)
    (hreads : Reads m (percent :: rest) args output crosses) :
    Reads m (src ++ percent :: rest) args (text ++ output) fun count =>
      crosses (count + text.length) :=
  hrun.reads (Or.inr rfl) hreads

theorem render_reads : ∀ {args output src text}, render format values = some output →
    List.Forall₂ (Denotes m) args values → LiteralRun src text →
    Reads m (src ++ format) args (text ++ output) fun count =>
      NumberCrosses format values (count + text.length) := by
  have hempty : LiteralRun [] [] := .plain List.not_mem_nil
  -- `src` is the literal run before `format`, read but not printed yet.
  fun_induction render format values with
  | case1 values =>
      intro args output src text hrender hargs hrun
      obtain rfl := Option.some.inj hrender
      exact hrun.reads (Or.inl rfl) reads_nil
  | case2 rest values ih =>
      intro args output src text hrender hargs hrun
      obtain ⟨output, hrest, rfl⟩ := Option.map_eq_some_iff.mp hrender
      exact hrun.append_some (ih hrest hargs (.escaped List.not_mem_nil))
  | case3 rest n values ih =>
      intro args output src text hrender hargs hrun
      obtain ⟨output, hrest, rfl⟩ := Option.map_eq_some_iff.mp hrender
      obtain ⟨args, rfl, -, hargs⟩ := exists_int hargs
      have hbyte : byte n = UInt8.ofNat (CInt.toU8 n) := by
        unfold byte CInt.toU8
        rfl
      rw [hbyte]
      exact hrun.append_some ((ih hrest hargs hempty).of_empty.next_checked (by simp)
        fun written hlo hhi => step_char hlo hhi)
  | case4 rest s values ih =>
      intro args output src text hrender hargs hrun
      obtain ⟨output, hrest, rfl⟩ := Option.map_eq_some_iff.mp hrender
      obtain ⟨p, args, rfl, hs, hend, hargs⟩ := exists_str hargs
      have hstring : ∀ written, 0 ≤ written → written ≤ intMax →
          step m ⟨percent :: 115 :: rest, .str p :: args, written⟩ =
            some (printRound true s rest args written) := by
        intro written hlo hhi
        rw [step_string (strlen_eq hs hend) hlo hhi, hs.bytes_eq]
      exact hrun.append_some ((ih hrest hargs hempty).of_empty.next_checked (by simp) hstring)
  | case5 rest n values ih =>
      intro args output src text hrender hargs hrun
      obtain ⟨output, hrest, rfl⟩ := Option.map_eq_some_iff.mp hrender
      obtain ⟨args, rfl, hrange, hargs⟩ := exists_int hargs
      have hnumber := (number_eq hrange.1 hrange.2).1
      refine hrun.append_some (((ih hrest hargs hempty).of_empty.next (by simp)
        fun written _ _ => hnumber ▸ step_decimal written).congr fun count => ?_)
      rw [NumberCrosses, eq_self, true_and]
  | case6 rest n values ih =>
      intro args output src text hrender hargs hrun
      obtain ⟨output, hrest, rfl⟩ := Option.map_eq_some_iff.mp hrender
      obtain ⟨args, rfl, hrange, hargs⟩ := exists_int hargs
      have hnumber := (number_eq hrange.1 hrange.2).2
      refine hrun.append_some (((ih hrest hargs hempty).of_empty.next (by simp)
        fun written _ _ => hnumber ▸ step_hexadecimal written).congr fun count => ?_)
      rw [NumberCrosses, eq_self, true_and]
  | case7 => exact fun hrender => absurd hrender (Option.some_ne_none _).symm
  | case8 => exact fun hrender => absurd hrender (Option.some_ne_none _).symm
  | case9 => exact fun hrender => absurd hrender (Option.some_ne_none _).symm
  | case10 => exact fun hrender => absurd hrender (Option.some_ne_none _).symm
  | case11 rest values hpercent _ _ _ _ hc hs hd hx =>
      intro args output src text hrender hargs hrun
      obtain rfl := Option.some.inj hrender
      have hother : ∀ c ∈ rest.head?, c ∉ ([37, 99, 115, 100, 120] : List UInt8) := by
        rintro c hhead
        obtain ⟨tail, rfl⟩ := List.head?_eq_some_iff.mp hhead
        rw [List.mem_cons, List.mem_cons, List.mem_cons, List.mem_cons, List.mem_singleton]
        rintro (rfl | rfl | rfl | rfl | rfl)
        · exact hpercent tail rfl
        · exact hc tail rfl
        · exact hs tail rfl
        · exact hd tail rfl
        · exact hx tail rfl
      have hreads : Reads m (percent :: rest) args (percent :: rest ++ []) fun _ => False :=
        reads_nil.next_checked (by simp) fun written hlo hhi => step_other hother hlo hhi
      rw [List.append_nil] at hreads
      refine hrun.append_some (hreads.congr fun count => ?_)
      simp [NumberCrosses]
  | case12 c rest values _ _ _ _ _ _ _ _ _ hc ih =>
      intro args output src text hrender hargs hrun
      obtain ⟨output, hrest, rfl⟩ := Option.map_eq_some_iff.mp hrender
      have hmore := ih hrest hargs (hrun.snoc hc)
      rw [List.append_assoc, List.append_assoc] at hmore
      refine hmore.congr fun count => ?_
      rw [numberCrosses_cons hc, List.length_append, List.length_singleton, Nat.cast_add,
        Nat.cast_one, add_assoc]

theorem Reads.prints (hreads : Reads m format args output crosses) :
    Prints m format args output := by
  obtain ⟨rounds, hrounds, rfl, -⟩ := hreads
  exact hrounds.prints

/-- Ordinary characters mean themselves. -/
theorem render_append (hplain : percent ∉ text) (rest : List UInt8) (values : List Value) :
    render (text ++ rest) values = (render rest values).map (text ++ ·) := by
  induction text with
  | nil => simp
  | cons c text ih =>
      rw [List.mem_cons, not_or] at hplain
      have hc : c ≠ 37 := Ne.symm hplain.1
      rw [List.cons_append, render]
      · rw [ih hplain.2, Option.map_map]
        rfl
      all_goals simp [hc]

theorem render_plain (hplain : percent ∉ text) : render text [] = some text := by
  have hrender := render_append hplain [] []
  rwa [List.append_nil, render, Option.map_some, List.append_nil] at hrender

end Printf

open Printf

/-- What a format and its values mean is printed. -/
theorem printed_render {m : Memory} {format : String} {output : List UInt8}
    {args : List PrintfArg} {values : List Value} (hargs : List.Forall₂ (Denotes m) args values)
    (hrender : render (ascii format) values = some output) (hlength : output.length ≤ intMax) :
    printed m format args = some output := by
  have hempty : LiteralRun [] [] := .plain List.not_mem_nil
  have hloop := (render_reads hrender hargs hempty).prints 0 ((ascii format).length + 1) le_rfl
    (by rwa [zero_add]) (Nat.lt_succ_self _)
  rw [printed, printf]
  exact congrArg (Option.map Prod.snd) hloop

/-- `printf` prints what the format and the values mean, returns the number of characters
printed, and never puts more digits in its buffer than it holds. -/
theorem printf_prints {m : Memory} {format output : List UInt8} {args : List PrintfArg}
    {values : List Value} (hargs : List.Forall₂ (Denotes m) args values)
    (hrender : render format values = some output) (hlength : output.length ≤ intMax) :
    printf m format args = some ((output.length : ℤ), output) ∧
      ∀ isHex, ∀ n < 2 ^ 32, ∀ room ≥ 10,
        (extractDigits (base isHex) room n).length ≤ 10 ∧
          extractDigits (base isHex) room n = extractDigits (base isHex) 32 n := by
  refine ⟨?_, fun isHex n hn room hroom => extractDigits_fits isHex hn hroom⟩
  have hempty : LiteralRun [] [] := .plain List.not_mem_nil
  have hprints := (render_reads hrender hargs hempty).prints
  have hloop := hprints 0 (format.length + 1) le_rfl (by rwa [zero_add]) (Nat.lt_succ_self _)
  rwa [zero_add] at hloop

/-- The string `ok` at 100. -/
def okString : Memory := fun x => if x = 100 then 111 else if x = 101 then 107 else 0

theorem okString_prints :
    printf okString (ascii "%d%% of %s: 0x%x%c%")
        [.int (-2147483648), .str 100, .int (-1), .int 33] =
      some (32, ascii "-2147483648% of ok: 0xffffffff!%") := by
  have hargs : List.Forall₂ (Denotes okString)
      [.int (-2147483648), .str 100, .int (-1), .int 33]
      [.int (-2147483648), .str [111, 107], .int (-1), .int 33] :=
    .cons (.int (by decide) (by decide)) (.cons (.str (by decide) (by decide))
      (.cons (.int (by decide) (by decide)) (.cons (.int (by decide) (by decide)) .nil)))
  have hrender : render (ascii "%d%% of %s: 0x%x%c%")
      [.int (-2147483648), .str [111, 107], .int (-1), .int 33] =
        some (ascii "-2147483648% of ok: 0xffffffff!%") := by decide +kernel
  exact (printf_prints hargs hrender (by decide)).1

end BadOS.Libc
