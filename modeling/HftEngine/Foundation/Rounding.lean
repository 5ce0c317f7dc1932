import Mathlib.Data.Rat.Floor
import Mathlib.Tactic.Linarith
import Mathlib.Tactic.NormNum

/-! Rounding of non-negative rationals to the nearest natural number, ties to even. -/
namespace HftEngine.Rounding

/-- Rounding to the nearest natural number, ties to even. -/
def roundEven (q : ℚ) : ℕ :=
  let n := ⌊q⌋₊
  if q - n < 1/2 then n else if q - n > 1/2 then n + 1 else if n % 2 = 0 then n else n + 1

theorem roundEven_natCast (n : ℕ) : roundEven n = n := by
  simp [roundEven]

theorem le_roundEven {k : ℕ} {q : ℚ} (h : (k : ℚ) ≤ q) : k ≤ roundEven q := by
  have hfloor : k ≤ ⌊q⌋₊ := Nat.le_floor h
  unfold roundEven
  dsimp only
  split_ifs <;> omega

theorem roundEven_le {k : ℕ} {q : ℚ} (hq : 0 ≤ q) (h : q < k + 1/2) : roundEven q ≤ k := by
  have hfloor : (⌊q⌋₊ : ℚ) ≤ q := Nat.floor_le hq
  have hle : ⌊q⌋₊ ≤ k := by
    have hlt : (⌊q⌋₊ : ℚ) < (k + 1 : ℕ) := by
      push_cast
      linarith
    have hnat : ⌊q⌋₊ < k + 1 := by exact_mod_cast hlt
    omega
  -- The number is only rounded up from at least half a unit above its floor.
  have hup : ¬q - ⌊q⌋₊ < 1/2 → ⌊q⌋₊ + 1 ≤ k := by
    intro hhalf
    have hlt : (⌊q⌋₊ : ℚ) < k := by linarith
    have hnat : ⌊q⌋₊ < k := by exact_mod_cast hlt
    omega
  unfold roundEven
  dsimp only
  split_ifs with hhalf
  · exact hle
  · exact hup hhalf
  · exact hle
  · exact hup hhalf

theorem floor_le_roundEven (q : ℚ) : ⌊q⌋₊ ≤ roundEven q := by
  unfold roundEven
  dsimp only
  split_ifs <;> omega

theorem roundEven_le_floor (q : ℚ) : roundEven q ≤ ⌊q⌋₊ + 1 := by
  unfold roundEven
  dsimp only
  split_ifs <;> omega

/-- Rounding moves a number by half a unit at the most. -/
theorem abs_roundEven_sub_le {q : ℚ} (h : 0 ≤ q) : |(roundEven q : ℚ) - q| ≤ 1/2 := by
  have hle : (⌊q⌋₊ : ℚ) ≤ q := Nat.floor_le h
  have hlt : q < ⌊q⌋₊ + 1 := Nat.lt_floor_add_one q
  unfold roundEven
  dsimp only
  split_ifs <;> rw [abs_le] <;> push_cast <;> constructor <;> linarith

theorem roundEven_mono {q r : ℚ} (h : q ≤ r) : roundEven q ≤ roundEven r := by
  rcases (Nat.floor_le_floor h).lt_or_eq with hlt | heq
  · exact (roundEven_le_floor q).trans (hlt.trans_le (floor_le_roundEven r))
  · -- Between two neighbours the larger number is rounded up if the smaller one is.
    unfold roundEven
    dsimp only
    rw [heq]
    split_ifs <;> first | omega | (exfalso; linarith)

end HftEngine.Rounding
