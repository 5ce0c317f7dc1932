import HftEngine.Foundation.Rounding
import HftEngine.Foundation.Text
import Mathlib.Data.Int.Log
import Mathlib.Tactic.Linarith
import Mathlib.Tactic.NormNum
import Mathlib.Tactic.Ring

/-! Writing numbers with a C++ output stream in its default format: integers and booleans in
decimal, doubles rounded to six significant digits as `printf` does for `%g`. Doubles are exact
rationals here. What is written reads back as the rounded value. -/
namespace HftEngine.Text
open Rounding

def chars (digits : List ℕ) : List Char := digits.map Nat.digitChar

def printNat (n : ℕ) : List Char := if n = 0 then ['0'] else chars (Nat.digits 10 n).reverse

def printInt (z : ℤ) : List Char := if z < 0 then '-' :: printNat z.natAbs else printNat z.natAbs

def printBool (b : Bool) : List Char := if b then ['1'] else ['0']

/-- The `%e` conversion of a positive number: its significand of `p` digits, rounded, and the
exponent of its leading digit. -/
def scientific (p : ℕ) (m : ℚ) : ℕ × ℤ :=
  let x := Int.log 10 m
  let n := roundEven (m * 10 ^ ((p : ℤ) - 1 - x))
  if n = 10 ^ p then (10 ^ (p - 1),x + 1) else (n,x)

/-- The digits of a significand without its trailing zeros. -/
def significant (n : ℕ) : List ℕ := ((Nat.digits 10 n).dropWhile (· == 0)).reverse

/-- A fraction, which is left out with its point when there is none. -/
def fraction (digits : List ℕ) : List Char := if digits = [] then [] else '.' :: chars digits

/-- At least two digits of an exponent. -/
def exponentDigits (n : ℕ) : List Char := if n < 10 then '0' :: printNat n else printNat n

/-- The `%g` layout: fixed notation for exponents from -4 up to the precision, else an exponent. -/
def layout (p : ℕ) (digits : List ℕ) (x : ℤ) : List Char :=
  if -4 ≤ x ∧ x < p then
    if 0 ≤ x then
      let whole := x.toNat + 1
      chars (digits.take whole ++ List.replicate (whole - digits.length) 0) ++
        fraction (digits.drop whole)
    else '0' :: fraction (List.replicate (-x - 1).toNat 0 ++ digits)
  else chars (digits.take 1) ++ fraction (digits.drop 1) ++
    'e' :: (if x < 0 then '-' else '+') :: exponentDigits x.natAbs

def printPositive (p : ℕ) (m : ℚ) : List Char :=
  layout p (significant (scientific p m).1) (scientific p m).2

/-- The precision of a stream to which no other was given. -/
def defaultPrecision : ℕ := 6

def printDouble (q : ℚ) : List Char :=
  if q = 0 then ['0']
  else if q < 0 then '-' :: printPositive defaultPrecision (-q)
  else printPositive defaultPrecision q

/-- The number that the digits of a conversion stand for. -/
def scientificValue (p : ℕ) (m : ℚ) : ℚ := (scientific p m).1 * 10 ^ ((scientific p m).2 + 1 - p)

/-- What is left of a double in its printed form. -/
def rounded (q : ℚ) : ℚ :=
  if q = 0 then 0
  else if q < 0 then -scientificValue defaultPrecision (-q)
  else scientificValue defaultPrecision q

/-- Decimal numbers of at most `p` significant digits. -/
def SignificantDigits (p : ℕ) (q : ℚ) : Prop := ∃ k e : ℤ, |k| < 10 ^ p ∧ q = k * 10 ^ e

section Scientific
variable {p : ℕ} {m : ℚ}

theorem ten_zpow_natCast (n : ℕ) : ((10 ^ n : ℕ) : ℚ) = 10 ^ (n : ℤ) := by
  push_cast
  rw [zpow_natCast]

/-- The scaled number has `p` digits in front of its point. -/
theorem scaled_bounds (p : ℕ) (hm : 0 < m) :
    (10 : ℚ) ^ ((p : ℤ) - 1) ≤ m * 10 ^ ((p : ℤ) - 1 - Int.log 10 m) ∧
      m * 10 ^ ((p : ℤ) - 1 - Int.log 10 m) < 10 ^ (p : ℤ) := by
  have hpos : (0 : ℚ) < 10 ^ ((p : ℤ) - 1 - Int.log 10 m) := zpow_pos (by norm_num) _
  have hlow : (10 : ℚ) ^ Int.log 10 m ≤ m := by
    exact_mod_cast Int.zpow_log_le_self (by norm_num : 1 < 10) hm
  have hhigh : m < (10 : ℚ) ^ (Int.log 10 m + 1) := by
    exact_mod_cast Int.lt_zpow_succ_log_self (by norm_num : 1 < 10) m
  constructor
  · calc (10 : ℚ) ^ ((p : ℤ) - 1)
        = 10 ^ Int.log 10 m * 10 ^ ((p : ℤ) - 1 - Int.log 10 m) := by
          rw [← zpow_add₀ (by norm_num)]
          congr 1
          omega
      _ ≤ m * 10 ^ ((p : ℤ) - 1 - Int.log 10 m) := mul_le_mul_of_nonneg_right hlow hpos.le
  · calc m * 10 ^ ((p : ℤ) - 1 - Int.log 10 m)
        < 10 ^ (Int.log 10 m + 1) * 10 ^ ((p : ℤ) - 1 - Int.log 10 m) :=
          mul_lt_mul_of_pos_right hhigh hpos
      _ = 10 ^ (p : ℤ) := by
          rw [← zpow_add₀ (by norm_num)]
          congr 1
          omega

theorem roundEven_scaled_bounds (hp : 0 < p) (hm : 0 < m) :
    10 ^ (p - 1) ≤ roundEven (m * 10 ^ ((p : ℤ) - 1 - Int.log 10 m)) ∧
      roundEven (m * 10 ^ ((p : ℤ) - 1 - Int.log 10 m)) ≤ 10 ^ p := by
  obtain ⟨hlow,hhigh⟩ := scaled_bounds p hm
  have hcast : ((p - 1 : ℕ) : ℤ) = (p : ℤ) - 1 := by omega
  have hpos : (0 : ℚ) < 10 ^ ((p : ℤ) - 1) := zpow_pos (by norm_num) _
  refine ⟨le_roundEven ?_,roundEven_le (hpos.le.trans hlow) ?_⟩
  · rw [ten_zpow_natCast, hcast]
    exact hlow
  · rw [ten_zpow_natCast]
    linarith

theorem scientific_bounds (hp : 0 < p) (hm : 0 < m) :
    10 ^ (p - 1) ≤ (scientific p m).1 ∧ (scientific p m).1 < 10 ^ p := by
  obtain ⟨hlow,hhigh⟩ := roundEven_scaled_bounds hp hm
  unfold scientific
  dsimp only
  split_ifs with hcarry
  · exact ⟨le_rfl,Nat.pow_lt_pow_right (by omega) (by omega)⟩
  · exact ⟨hlow,by omega⟩

/-- A carry into one more digit does not change the number. -/
theorem scientificValue_eq (hp : 0 < p) (m : ℚ) :
    scientificValue p m = roundEven (m * 10 ^ ((p : ℤ) - 1 - Int.log 10 m)) *
      10 ^ (Int.log 10 m + 1 - p) := by
  unfold scientificValue scientific
  dsimp only
  split_ifs with hcarry
  · rw [hcarry, ten_zpow_natCast, ten_zpow_natCast, ← zpow_add₀ (by norm_num),
      ← zpow_add₀ (by norm_num)]
    congr 1
    omega
  · rfl

theorem significantDigits_scientificValue (hp : 0 < p) (hm : 0 < m) :
    SignificantDigits p (scientificValue p m) := by
  refine ⟨(scientific p m).1,(scientific p m).2 + 1 - p,?_,by simp [scientificValue]⟩
  rw [Nat.abs_cast]
  exact_mod_cast (scientific_bounds hp hm).2

/-- A number of at most `p` digits is printed as it is. -/
theorem scientificValue_self (hp : 0 < p) (hm : 0 < m) (h : SignificantDigits p m) :
    scientificValue p m = m := by
  obtain ⟨k,e,hk,rfl⟩ := h
  have hten : (0 : ℚ) < 10 ^ e := zpow_pos (by norm_num) _
  have hkpos : 0 < k := by
    have hcast : (0 : ℚ) < k := by
      by_contra hneg
      exact absurd hm (not_lt.mpr (mul_nonpos_of_nonpos_of_nonneg (not_lt.mp hneg) hten.le))
    exact_mod_cast hcast
  rw [abs_of_pos hkpos] at hk
  -- The leading digit stands no more than `p` places in front of the last one.
  have hlog : Int.log 10 ((k : ℚ) * 10 ^ e) < e + p := by
    have hlt : (k : ℚ) * 10 ^ e < ((10 : ℕ) : ℚ) ^ (e + p) := by
      have hcast : (k : ℚ) < 10 ^ (p : ℤ) := by
        rw [zpow_natCast]
        exact_mod_cast hk
      push_cast
      rw [add_comm, zpow_add₀ (by norm_num)]
      exact mul_lt_mul_of_pos_right hcast hten
    exact (Int.lt_zpow_iff_log_lt (by norm_num) hm).mp hlt
  obtain ⟨shift,hshift⟩ := Int.eq_ofNat_of_zero_le
    (show 0 ≤ e + ((p : ℤ) - 1 - Int.log 10 ((k : ℚ) * 10 ^ e)) by omega)
  have hscaled : (k : ℚ) * 10 ^ e * 10 ^ ((p : ℤ) - 1 - Int.log 10 ((k : ℚ) * 10 ^ e)) =
      (k.toNat * 10 ^ shift : ℕ) := by
    rw [mul_assoc, ← zpow_add₀ (by norm_num), hshift, Nat.cast_mul, ten_zpow_natCast]
    congr 1
    exact_mod_cast (Int.toNat_of_nonneg hkpos.le).symm
  rw [scientificValue_eq hp, hscaled, roundEven_natCast, ← hscaled, mul_assoc,
    ← zpow_add₀ (by norm_num),
    show (p : ℤ) - 1 - Int.log 10 ((k : ℚ) * 10 ^ e) +
      (Int.log 10 ((k : ℚ) * 10 ^ e) + 1 - p) = 0 by omega, zpow_zero, mul_one]

/-- Rounding to `p` digits does not leave an interval that ends in such a number. -/
theorem scientificValue_le (hp : 0 < p) (hm : 0 < m) {k : ℕ} {z : ℤ} (hlow : 10 ^ (p - 1) ≤ k)
    (hhigh : k < 10 ^ p) (h : m < (k + 1/2) * 10 ^ z) : scientificValue p m ≤ k * 10 ^ z := by
  have hten : (0 : ℚ) < 10 ^ z := zpow_pos (by norm_num) _
  have hlog : Int.log 10 m < z + p := by
    have hlt : m < ((10 : ℕ) : ℚ) ^ (z + p) := by
      have hcast : ((k + 1 : ℕ) : ℚ) ≤ (10 ^ p : ℕ) := by exact_mod_cast hhigh
      rw [ten_zpow_natCast] at hcast
      push_cast at hcast ⊢
      rw [add_comm z, zpow_add₀ (by norm_num)]
      refine h.trans_le (mul_le_mul_of_nonneg_right ?_ hten.le)
      linarith
    exact (Int.lt_zpow_iff_log_lt (by norm_num) hm).mp hlt
  rw [scientificValue_eq hp]
  by_cases hsame : Int.log 10 m + 1 - p = z
  · rw [hsame]
    refine mul_le_mul_of_nonneg_right ?_ hten.le
    have hscaled : m * 10 ^ ((p : ℤ) - 1 - Int.log 10 m) < k + 1/2 := by
      have hneg : (p : ℤ) - 1 - Int.log 10 m = -z := by omega
      rw [hneg, zpow_neg, ← div_eq_mul_inv, div_lt_iff₀ hten]
      exact h
    have hnonneg : 0 ≤ m * 10 ^ ((p : ℤ) - 1 - Int.log 10 m) :=
      mul_nonneg hm.le (zpow_pos (by norm_num) _).le
    exact_mod_cast roundEven_le hnonneg hscaled
  · -- The number is shorter than the bound, and so is what it is rounded to.
    have hround : ((roundEven (m * 10 ^ ((p : ℤ) - 1 - Int.log 10 m)) : ℕ) : ℚ) ≤ 10 ^ (p : ℤ) := by
      rw [← ten_zpow_natCast]
      exact_mod_cast (roundEven_scaled_bounds hp hm).2
    have hbound : (10 : ℚ) ^ ((p : ℤ) - 1) ≤ k := by
      have hcast : ((p - 1 : ℕ) : ℤ) = (p : ℤ) - 1 := by omega
      rw [← hcast, ← ten_zpow_natCast]
      exact_mod_cast hlow
    calc (roundEven (m * 10 ^ ((p : ℤ) - 1 - Int.log 10 m)) : ℚ) * 10 ^ (Int.log 10 m + 1 - p)
        ≤ 10 ^ (p : ℤ) * 10 ^ (Int.log 10 m + 1 - p) :=
          mul_le_mul_of_nonneg_right hround (zpow_pos (by norm_num) _).le
      _ = 10 ^ (Int.log 10 m + 1) := by
          rw [← zpow_add₀ (by norm_num)]
          congr 1
          omega
      _ ≤ 10 ^ ((p : ℤ) - 1 + z) := zpow_le_zpow_right₀ (by norm_num) (by omega)
      _ = 10 ^ ((p : ℤ) - 1) * 10 ^ z := zpow_add₀ (by norm_num) _ _
      _ ≤ k * 10 ^ z := mul_le_mul_of_nonneg_right hbound hten.le

end Scientific

theorem SignificantDigits.neg {p : ℕ} {q : ℚ} (h : SignificantDigits p q) :
    SignificantDigits p (-q) := by
  obtain ⟨k,e,hk,rfl⟩ := h
  exact ⟨-k,e,by rwa [abs_neg],by push_cast; ring⟩

/-- Printing keeps a double exactly when six digits are enough for it. -/
theorem rounded_eq_iff (q : ℚ) : rounded q = q ↔ SignificantDigits defaultPrecision q := by
  have hp : 0 < defaultPrecision := by decide
  unfold rounded
  split_ifs with hzero hneg
  · subst hzero
    exact ⟨fun _ => ⟨0,0,by norm_num,by norm_num⟩,fun _ => rfl⟩
  · have hpos : 0 < -q := by linarith
    constructor
    · intro h
      rw [← h]
      exact (significantDigits_scientificValue hp hpos).neg
    · intro h
      rw [scientificValue_self hp hpos h.neg, neg_neg]
  · have hpos : 0 < q := lt_of_le_of_ne (not_lt.mp hneg) (Ne.symm hzero)
    constructor
    · intro h
      rw [← h]
      exact significantDigits_scientificValue hp hpos
    · exact scientificValue_self hp hpos

end HftEngine.Text
