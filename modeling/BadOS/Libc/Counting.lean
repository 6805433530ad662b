import BadOS.Libc.Format

/-! # The count of `printf`

Literals, characters and strings are checked against the room the count leaves, and
the digits and signs of numbers are not. The count is right exactly when no number
takes it over the largest `int`.
-/

namespace BadOS.Libc

namespace Printf

/-- Rounds of the loop, and what they print. -/
inductive Reaches (m : Memory) (s : State) : List UInt8 → State → Prop
  | refl : Reaches m s [] s
  | next {data more : List UInt8} {s' s'' : State} (hreach : Reaches m s data s')
      (hstep : step m s' = some (.next more s'')) : Reaches m s (data ++ more) s''

/-- The count is the number of characters printed and stays an `int`, and an output that
is too long makes `printf` return -1. -/
structure Counted (m : Memory) (format : List UInt8) (args : List PrintfArg)
    (output : List UInt8) : Prop where
  count : ∀ data s, Reaches m ⟨format, args, 0⟩ data s →
    s.written = data.length ∧ s.written ≤ intMax
  overflow : intMax < output.length → (printf m format args).map Prod.fst = some (-1)

variable {m : Memory} {format data more output : List UInt8} {args : List PrintfArg}
  {values : List Value} {rounds : List (Bool × List UInt8)} {count : ℤ} {s s' s'' : State}

theorem Reaches.head (hstep : step m s = some (.next more s')) (hreach : Reaches m s' data s'') :
    Reaches m s (more ++ data) s'' := by
  induction hreach with
  | refl =>
      rw [List.append_nil]
      exact (Reaches.refl (m := m) (s := s)).next hstep
  | next _ hlast ih =>
      rw [← List.append_assoc]
      exact ih.next hlast

theorem Crosses.count_le (hcrosses : Crosses rounds count) : count ≤ intMax := by
  induction rounds generalizing count with
  | nil => exact hcrosses.elim
  | cons round rounds ih =>
      rcases hcrosses with ⟨-, hpasses⟩ | hrest
      · exact hpasses.1
      · have hle := ih hrest
        omega

/-! ## Counting -/

/-- Rounds are left that do not go over, and the count is right. -/
structure CountInv (m : Memory) (start : ℤ) (data : List UInt8) (s : State) : Prop where
  rounds : ∃ rounds, Rounds m s.format s.args rounds ∧ ¬ Crosses rounds s.written
  written_eq : s.written = start + data.length
  nonneg : 0 ≤ s.written
  le : s.written ≤ intMax

/-- A round that is not the last one fits. -/
theorem CountInv.step (hinv : CountInv m count data s) (hstep : step m s = some (.next more s')) :
    CountInv m count (data ++ more) s' := by
  obtain ⟨⟨rounds, hrounds, hcrosses⟩, hwritten, hnonneg, hle⟩ := hinv
  obtain ⟨format, args, written⟩ := s
  dsimp only at *
  cases hrounds with
  | nil =>
      rw [Printf.step, Option.some.injEq] at hstep
      cases hstep
  | @cons _ rest text _ args' checked rounds hlt hround hrest =>
      rw [hround written hnonneg hle, Option.some.injEq] at hstep
      have hfits : written + text.length ≤ intMax := by
        by_contra hover
        have hpasses : Passes text written := ⟨hle, not_le.mp hover⟩
        cases checked with
        | true =>
            rw [printRound, if_pos ⟨rfl, hpasses.2⟩] at hstep
            cases hstep
        | false => exact hcrosses (.inl ⟨rfl, hpasses⟩)
      rw [printRound_fits hnonneg hfits] at hstep
      cases hstep
      refine ⟨⟨rounds, hrest, fun h => hcrosses (.inr h)⟩, ?_, by dsimp only; omega, hfits⟩
      dsimp only
      rw [List.length_append, Nat.cast_add, hwritten, add_assoc]

theorem CountInv.reaches (hinv : CountInv m count [] s) (hreach : Reaches m s data s') :
    CountInv m count data s' := by
  induction hreach with
  | refl => exact hinv
  | next _ hstep ih => exact ih.step hstep

/-- The first round that does not fit is checked. -/
theorem Rounds.loop_overflow (hrounds : Rounds m format args rounds)
    (hcrosses : ¬ Crosses rounds count) (hlo : 0 ≤ count) (hhi : count ≤ intMax)
    (hover : intMax < count + (rounds.flatMap Prod.snd).length) {fuel : ℕ}
    (hfuel : format.length < fuel) :
    (loop m fuel ⟨format, args, count⟩).map Prod.fst = some (-1) := by
  induction hrounds generalizing count fuel with
  | nil =>
      rw [List.flatMap_nil, List.length_nil, Nat.cast_zero, add_zero] at hover
      exact absurd hover (not_lt.mpr hhi)
  | @cons format rest text args args' checked rounds hlt hstep _ ih =>
      obtain ⟨fuel, rfl⟩ : ∃ k, fuel = k + 1 := ⟨fuel - 1, by omega⟩
      rw [List.flatMap_cons, List.length_append, Nat.cast_add, ← add_assoc] at hover
      have hround := hstep count hlo hhi
      by_cases hfits : count + text.length ≤ intMax
      · rw [printRound_fits hlo hfits] at hround
        have hrest : (loop m fuel ⟨rest, args', count + text.length⟩).map Prod.fst = some (-1) :=
          ih (fun h => hcrosses (.inr h)) (by omega) hfits hover (by omega)
        rw [loop_next hround, Option.map_map]
        exact hrest
      · have hchecked : checked = true := by
          cases checked with
          | true => rfl
          | false => exact absurd (.inl ⟨rfl, hhi, not_le.mp hfits⟩) hcrosses
        rw [printRound, if_pos ⟨hchecked, not_le.mp hfits⟩] at hround
        rw [loop, hround]
        rfl

/-- A number that goes over is printed and counted. -/
theorem Rounds.exists_reaches (hrounds : Rounds m format args rounds)
    (hcrosses : Crosses rounds count) (hlo : 0 ≤ count) :
    ∃ data s, Reaches m ⟨format, args, count⟩ data s ∧ intMax < count + data.length := by
  induction hrounds generalizing count with
  | nil => exact hcrosses.elim
  | @cons format rest text args args' checked rounds hlt hstep _ ih =>
      have hround := hstep count hlo hcrosses.count_le
      rcases hcrosses with ⟨hunchecked, hpasses⟩ | hrest
      · rw [printRound, if_neg (by simp [hunchecked])] at hround
        exact ⟨_, _, Reaches.head hround .refl, by rw [List.append_nil]; exact hpasses.2⟩
      · rw [printRound_fits hlo hrest.count_le] at hround
        obtain ⟨data, s, hreach, hover⟩ := ih hrest (by omega)
        refine ⟨text ++ data, s, Reaches.head hround hreach, ?_⟩
        rw [List.length_append, Nat.cast_add, ← add_assoc]
        exact hover

end Printf

open Printf

/-- `printf` counts right exactly when no number goes over the largest count. -/
theorem printf_counted_iff {m : Memory} {format output : List UInt8} {args : List PrintfArg}
    {values : List Value} (hargs : List.Forall₂ (Denotes m) args values)
    (hrender : render format values = some output) :
    Counted m format args output ↔ ¬ NumberCrosses format values 0 := by
  have hempty : LiteralRun [] [] := .plain List.not_mem_nil
  have hreads : Reads m format args output (NumberCrosses format values) :=
    (render_reads hrender hargs hempty).of_empty
  obtain ⟨rounds, hrounds, rfl, hcrosses⟩ := hreads
  rw [← hcrosses]
  constructor
  · intro hcounted hover
    obtain ⟨data, s, hreach, hlong⟩ := hrounds.exists_reaches hover le_rfl
    obtain ⟨hwritten, hle⟩ := hcounted.count data s hreach
    omega
  · intro hnever
    have hinv : CountInv m 0 [] ⟨format, args, 0⟩ :=
      ⟨⟨rounds, hrounds, hnever⟩, rfl, le_rfl, (by decide : (0 : ℤ) ≤ intMax)⟩
    constructor
    · intro data s hreach
      have hlast := hinv.reaches hreach
      exact ⟨by rw [hlast.written_eq, zero_add], hlast.le⟩
    · intro hover
      exact hrounds.loop_overflow hnever le_rfl (by decide) (by rwa [zero_add])
        (Nat.lt_succ_self _)

/-- The number 7 does not go over. -/
theorem printf_seven_counted :
    Counted (fun _ => 0) (ascii "%d") [.int 7] (ascii "7") ↔
      ¬ NumberCrosses (ascii "%d") [.int 7] 0 :=
  printf_counted_iff (.cons (.int (by decide) (by decide)) .nil) (by decide)

/-! ## A string of the largest length -/

/-- The string at 4096 of `2 ^ 31 - 1` times `a`. -/
def hugeString : Memory := fun x => if 4096 ≤ x ∧ x < 4096 + 2147483647 then 97 else 0

theorem isString_replicate {m : Memory} {c : UInt8} (hc : c ≠ 0) {a n : ℕ}
    (hchars : ∀ k < n, m (a + k) = c) (hnul : m (a + n) = 0) :
    m.IsString a (List.replicate n c) := by
  induction n generalizing a with
  | zero => exact hnul
  | succ n ih =>
      refine ⟨hchars 0 (Nat.succ_pos n), hc, ih (fun k hk => ?_) ?_⟩
      · rw [Nat.add_assoc, Nat.add_comm 1]
        exact hchars (k + 1) (by omega)
      · rwa [Nat.add_assoc, Nat.add_comm 1]

theorem hugeString_isString : hugeString.IsString 4096 (List.replicate 2147483647 97) := by
  refine isString_replicate (by decide) (fun k hk => if_pos ⟨by omega, by omega⟩) (if_neg ?_)
  rintro ⟨-, hlt⟩
  exact lt_irrefl _ hlt

/-- A digit behind the string takes the count to the smallest `int`, which is returned. -/
theorem hugeString_wraps :
    render (ascii "%s%d") [.str (List.replicate 2147483647 97), .int 7] =
        some (List.replicate 2147483647 97 ++ [55]) ∧
      printf hugeString (ascii "%s%d") [.str 4096, .int 7] =
        some (-2147483648, List.replicate 2147483647 97 ++ [55]) ∧
      ¬ Counted hugeString (ascii "%s%d") [.str 4096, .int 7]
        (List.replicate 2147483647 97 ++ [55]) := by
  have hformat : ascii "%s%d" = percent :: 115 :: percent :: 100 :: [] := by decide
  have hlen : strlen hugeString 4096 = some 2147483647 := by
    rw [strlen_eq hugeString_isString (by rw [List.length_replicate]; decide),
      List.length_replicate]
  have hbytes := hugeString_isString.bytes_eq
  rw [List.length_replicate] at hbytes
  have hstring : step hugeString ⟨percent :: 115 :: percent :: 100 :: [], [.str 4096, .int 7], 0⟩ =
      some (.next (List.replicate 2147483647 97)
        ⟨percent :: 100 :: [], [.int 7], 2147483647⟩) := by
    rw [step_string hlen le_rfl (by decide), hbytes, printRound_fits le_rfl (by
      rw [List.length_replicate]
      decide), List.length_replicate]
    rfl
  have hnumber : step hugeString ⟨percent :: 100 :: [], [.int 7], 2147483647⟩ =
      some (.next [55] ⟨[], [], -2147483648⟩) := by
    have hdigit : number false 7 = [55] := by decide +kernel
    have hwrap : CInt.toI32 (2147483647 + ([55] : List UInt8).length) = -2147483648 := by
      decide +kernel
    rw [step_decimal, printRound, if_neg (by simp), hdigit, hwrap]
  have hprintf : printf hugeString (ascii "%s%d") [.str 4096, .int 7] =
      some (-2147483648, List.replicate 2147483647 97 ++ [55]) := by
    rw [printf, hformat]
    change loop hugeString (3 + 1 + 1) _ = _
    rw [loop_next hstring, loop_next hnumber, loop_nil]
    rfl
  refine ⟨?_, hprintf, fun hcounted => ?_⟩
  · rw [hformat]
    rfl
  · have hresult := hcounted.overflow (by
      rw [List.length_append, List.length_replicate]
      decide)
    rw [hprintf] at hresult
    exact absurd hresult (by decide)

end BadOS.Libc
