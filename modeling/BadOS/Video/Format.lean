import BadOS.Foundation.ByteMemory
import BadOS.Foundation.RunLength

/-! # The `.bad` video format

Twelve header bytes (magic, width, height, frame count) are followed by
run-length bytes: the top bit is the colour, the low seven bits the run length.
-/

namespace BadOS.Video

/-- The colour and length a run byte stands for. -/
def runOf (b : UInt8) : Bool × ℕ := (b.toNat >>> 7 == 1, b.toNat &&& 0x7F)

/-- The runs of the `n` stream bytes at `a`. -/
def runsAt (mem : Memory) (a : ℕ) : ℕ → List (Bool × ℕ)
  | 0 => []
  | n + 1 => runOf (mem a) :: runsAt mem (a + 1) n

theorem runOf_length_le (b : UInt8) : (runOf b).2 ≤ 127 := by
  unfold runOf
  exact Nat.and_le_right

theorem runsAt_eq_map {mem : Memory} {a : ℕ} {bytes : List UInt8}
    (hbytes : ∀ i (hi : i < bytes.length), mem (a + i) = bytes[i]) :
    runsAt mem a bytes.length = bytes.map runOf := by
  induction bytes generalizing a with
  | nil => rfl
  | cons b rest ih =>
      have hhead : mem a = b := hbytes 0 (by simp)
      have htail : runsAt mem (a + 1) rest.length = rest.map runOf := by
        apply ih
        intro i hi
        have := hbytes (i + 1) (by simpa using hi)
        rwa [show a + 1 + i = a + (i + 1) by omega]
      simp [runsAt, hhead, htail]

theorem mem_runsAt {mem : Memory} {a n : ℕ} {run : Bool × ℕ} (hrun : run ∈ runsAt mem a n) :
    ∃ i < n, run = runOf (mem (a + i)) := by
  induction n generalizing a with
  | zero => simp [runsAt] at hrun
  | succ n ih =>
      rcases List.mem_cons.mp hrun with rfl | htail
      · exact ⟨0, by omega, rfl⟩
      · obtain ⟨i, hi, heq⟩ := ih htail
        exact ⟨i + 1, by omega, by rw [heq, show a + 1 + i = a + (i + 1) by omega]⟩

theorem length_runsAt (mem : Memory) (a n : ℕ) : (runsAt mem a n).length = n := by
  induction n generalizing a with
  | zero => rfl
  | succ n ih => rw [runsAt, List.length_cons, ih]

end BadOS.Video
