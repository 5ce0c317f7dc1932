import HftEngine.Foundation.Rounding
import Mathlib.Data.Int.Log
import Mathlib.Tactic.Positivity
import Mathlib.Tactic.Ring

/-! Rounding of rationals to 53 significant bits, the last one of weight 2^-1074 at least, to
nearest with ties to even (IEEE 754 binary64 without its largest exponent). -/
namespace HftEngine.Binary64
open Rounding

/-- A rational with at most 53 significant bits, the last one of weight 2^-1074 at least. -/
def Representable (q : ℚ) : Prop := ∃ m e : ℤ, |m| < 2 ^ 53 ∧ -1074 ≤ e ∧ q = m * 2 ^ e

/-- The exponent of the last significant bit that rounding keeps. -/
def exponent (q : ℚ) : ℤ := max (Int.log 2 |q| - 52) (-1074)

/-- The nearest representable number, ties to even, whatever its size. -/
def nearest (q : ℚ) : ℚ :=
  if q < 0 then -(roundEven (-q / 2 ^ exponent q) * 2 ^ exponent q)
  else roundEven (q / 2 ^ exponent q) * 2 ^ exponent q

theorem two_zpow_pos (e : ℤ) : (0 : ℚ) < 2 ^ e := zpow_pos (by norm_num) _

@[simp] theorem exponent_neg (q : ℚ) : exponent (-q) = exponent q := by
  simp [exponent]

theorem exponent_mono {q r : ℚ} (hq : 0 < q) (h : q ≤ r) : exponent q ≤ exponent r := by
  unfold exponent
  rw [abs_of_pos hq, abs_of_pos (hq.trans_le h)]
  exact max_le_max_right _ (by have := Int.log_mono_right (b := 2) hq h; omega)

theorem neg_le_exponent (q : ℚ) : -1074 ≤ exponent q := le_max_right _ _

theorem nearest_of_nonneg {q : ℚ} (h : 0 ≤ q) :
    nearest q = roundEven (q / 2 ^ exponent q) * 2 ^ exponent q := by
  simp [nearest, not_lt.mpr h]

@[simp] theorem nearest_zero : nearest 0 = 0 := by
  rw [nearest_of_nonneg le_rfl, zero_div]
  simp [roundEven]

@[simp] theorem nearest_neg (q : ℚ) : nearest (-q) = -nearest q := by
  rcases lt_trichotomy q 0 with h | rfl | h
  · simp [nearest, h, not_lt.mpr h.le]
  · simp
  · simp [nearest, h, not_lt.mpr h.le]

theorem nearest_nonneg {q : ℚ} (h : 0 ≤ q) : 0 ≤ nearest q := by
  rw [nearest_of_nonneg h]
  exact mul_nonneg (Nat.cast_nonneg _) (two_zpow_pos _).le

theorem div_exponent_lt (q : ℚ) : |q| / 2 ^ exponent q < 2 ^ 53 := by
  have hlt : |q| < (2 : ℚ) ^ (Int.log 2 |q| + 1) := by
    exact_mod_cast Int.lt_zpow_succ_log_self (by norm_num : 1 < 2) |q|
  have hle : (2 : ℚ) ^ (Int.log 2 |q| + 1) ≤ 2 ^ (53 + exponent q) := by
    refine zpow_le_zpow_right₀ (by norm_num) ?_
    have := le_max_left (Int.log 2 |q| - 52) (-1074)
    unfold exponent
    omega
  rw [div_lt_iff₀ (two_zpow_pos _)]
  calc |q| < 2 ^ (53 + exponent q) := hlt.trans_le hle
    _ = 2 ^ 53 * 2 ^ exponent q := zpow_add₀ (by norm_num) _ _

theorem roundEven_exponent_le {q : ℚ} (h : 0 ≤ q) :
    roundEven (q / 2 ^ exponent q) ≤ 2 ^ 53 := by
  have hlt := div_exponent_lt q
  rw [abs_of_nonneg h] at hlt
  refine roundEven_le (div_nonneg h (two_zpow_pos _).le) ?_
  push_cast
  linarith

theorem Representable.neg {q : ℚ} (h : Representable q) : Representable (-q) := by
  obtain ⟨m,e,hm,he,rfl⟩ := h
  exact ⟨-m,e,by rwa [abs_neg],he,by push_cast; ring⟩

@[simp] theorem representable_neg_iff (q : ℚ) : Representable (-q) ↔ Representable q :=
  ⟨fun h => by simpa using h.neg,Representable.neg⟩

theorem representable_nearest_of_nonneg {q : ℚ} (h : 0 ≤ q) : Representable (nearest q) := by
  rw [nearest_of_nonneg h]
  have he := neg_le_exponent q
  rcases (roundEven_exponent_le h).lt_or_eq with hlt | heq
  · exact ⟨roundEven (q / 2 ^ exponent q),exponent q,by
      rw [Nat.abs_cast]
      exact_mod_cast hlt,he,by push_cast; rfl⟩
  · -- A carry into one more bit leaves a power of two.
    refine ⟨2 ^ 52,exponent q + 1,by norm_num,by omega,?_⟩
    rw [heq, zpow_add₀ (by norm_num)]
    push_cast
    ring

theorem representable_nearest (q : ℚ) : Representable (nearest q) := by
  rcases le_total 0 q with h | h
  · exact representable_nearest_of_nonneg h
  · have := representable_nearest_of_nonneg (neg_nonneg.mpr h)
    simpa using this

/-- Above the smallest exponent all 53 bits are used. -/
theorem le_div_exponent {q r : ℚ} (hr : 0 < r) (h : exponent q < exponent r) :
    2 ^ 52 ≤ r / 2 ^ exponent r := by
  have hlog : exponent r = Int.log 2 r - 52 := by
    have hq := neg_le_exponent q
    have hcases := max_choice (Int.log 2 |r| - 52) (-1074)
    unfold exponent at h hq ⊢
    rw [abs_of_pos hr] at h hcases ⊢
    omega
  have hle : (2 : ℚ) ^ Int.log 2 r ≤ r := by
    exact_mod_cast Int.zpow_log_le_self (by norm_num : 1 < 2) hr
  rw [le_div_iff₀ (two_zpow_pos _)]
  calc (2 : ℚ) ^ 52 * 2 ^ exponent r = 2 ^ (52 + exponent r) :=
        (zpow_add₀ (by norm_num) _ _).symm
    _ = 2 ^ Int.log 2 r := by rw [hlog]; congr 1; omega
    _ ≤ r := hle

theorem nearest_mono_of_nonneg {q r : ℚ} (hq : 0 ≤ q) (h : q ≤ r) : nearest q ≤ nearest r := by
  rcases hq.eq_or_lt with rfl | hpos
  · rw [nearest_zero]
    exact nearest_nonneg h
  rw [nearest_of_nonneg hq, nearest_of_nonneg (hq.trans h)]
  rcases (exponent_mono hpos h).eq_or_lt with heq | hlt
  · rw [heq]
    refine mul_le_mul_of_nonneg_right ?_ (two_zpow_pos _).le
    exact_mod_cast roundEven_mono (div_le_div_of_nonneg_right h (two_zpow_pos _).le)
  · -- A power of two lies between two numbers of different exponents.
    have hlow : (roundEven (q / 2 ^ exponent q) : ℚ) ≤ 2 ^ 53 := by
      exact_mod_cast roundEven_exponent_le hq
    have hhigh : (2 : ℚ) ^ 52 ≤ roundEven (r / 2 ^ exponent r) := by
      have hnat : ((2 ^ 52 : ℕ) : ℚ) ≤ r / 2 ^ exponent r := by
        push_cast
        exact le_div_exponent (hpos.trans_le h) hlt
      exact_mod_cast le_roundEven hnat
    calc (roundEven (q / 2 ^ exponent q) : ℚ) * 2 ^ exponent q
        ≤ 2 ^ 53 * 2 ^ exponent q := mul_le_mul_of_nonneg_right hlow (two_zpow_pos _).le
      _ = 2 ^ (53 + exponent q) := (zpow_add₀ two_ne_zero 53 _).symm
      _ ≤ 2 ^ (52 + exponent r) := zpow_le_zpow_right₀ (by norm_num) (by omega)
      _ = 2 ^ 52 * 2 ^ exponent r := zpow_add₀ (by norm_num) _ _
      _ ≤ roundEven (r / 2 ^ exponent r) * 2 ^ exponent r :=
          mul_le_mul_of_nonneg_right hhigh (two_zpow_pos _).le

theorem nearest_mono {q r : ℚ} (h : q ≤ r) : nearest q ≤ nearest r := by
  rcases le_total 0 q with hq | hq
  · exact nearest_mono_of_nonneg hq h
  · have hneg : nearest q ≤ 0 := by
      have := nearest_nonneg (neg_nonneg.mpr hq)
      rw [nearest_neg] at this
      linarith
    rcases le_total 0 r with hr | hr
    · exact hneg.trans (nearest_nonneg hr)
    · have hmono := nearest_mono_of_nonneg (neg_nonneg.mpr hr) (neg_le_neg h)
      simpa using hmono

theorem nearest_of_representable_of_pos {q : ℚ} (hpos : 0 < q) (h : Representable q) :
    nearest q = q := by
  obtain ⟨m,e,hm,he,rfl⟩ := h
  have hmpos : 0 < m := by
    have hcast : (0 : ℚ) < m := (mul_pos_iff_of_pos_right (two_zpow_pos e)).mp hpos
    exact_mod_cast hcast
  rw [abs_of_pos hmpos] at hm
  have hlog : Int.log 2 ((m : ℚ) * 2 ^ e) < 53 + e := by
    have hlt : (m : ℚ) * 2 ^ e < ((2 : ℕ) : ℚ) ^ (53 + e) := by
      have hcast : (m : ℚ) < 2 ^ 53 := by exact_mod_cast hm
      push_cast
      rw [zpow_add₀ (by norm_num)]
      exact mul_lt_mul_of_pos_right hcast (two_zpow_pos e)
    exact (Int.lt_zpow_iff_log_lt (by norm_num) hpos).mp hlt
  have hexp : exponent ((m : ℚ) * 2 ^ e) ≤ e := by
    unfold exponent
    rw [abs_of_pos hpos]
    omega
  obtain ⟨shift,hshift⟩ := Int.eq_ofNat_of_zero_le (sub_nonneg.mpr hexp)
  have hscaled : (m : ℚ) * 2 ^ e / 2 ^ exponent ((m : ℚ) * 2 ^ e) =
      (m.toNat * 2 ^ shift : ℕ) := by
    rw [mul_div_assoc, ← zpow_sub₀ (by norm_num), hshift, zpow_natCast, Nat.cast_mul]
    push_cast
    congr 1
    exact_mod_cast (Int.toNat_of_nonneg hmpos.le).symm
  rw [nearest_of_nonneg hpos.le, hscaled, roundEven_natCast, ← hscaled,
    div_mul_cancel₀ _ (two_zpow_pos _).ne']

/-- The last significant bit is a 53rd bit or the smallest number. -/
theorem two_zpow_exponent_le {q : ℚ} (hq : q ≠ 0) :
    (2 : ℚ) ^ exponent q ≤ |q| / 2 ^ 52 + 2 ^ (-1074 : ℤ) := by
  rcases max_choice (Int.log 2 |q| - 52) (-1074) with hlog | hsmall
  · have hle : (2 : ℚ) ^ Int.log 2 |q| ≤ |q| := by
      exact_mod_cast Int.zpow_log_le_self (by norm_num : 1 < 2) (abs_pos.mpr hq)
    have hbit : (2 : ℚ) ^ exponent q ≤ |q| / 2 ^ 52 := by
      rw [exponent, hlog, zpow_sub₀ two_ne_zero]
      exact div_le_div_of_nonneg_right hle (by norm_num)
    linarith [two_zpow_pos (-1074)]
  · rw [exponent, hsmall]
    exact le_add_of_nonneg_left (div_nonneg (abs_nonneg q) (by norm_num))

/-- The error of rounding: half a unit of the last bit. -/
theorem abs_nearest_sub_le_of_nonneg {q : ℚ} (h : 0 ≤ q) :
    |nearest q - q| ≤ q / 2 ^ 53 + 2 ^ (-1075 : ℤ) := by
  rcases h.eq_or_lt with rfl | hpos
  · rw [nearest_zero, sub_zero, abs_zero, zero_div, zero_add]
    exact (two_zpow_pos _).le
  have hunit := two_zpow_pos (exponent q)
  have hbit := two_zpow_exponent_le hpos.ne'
  have hhalf : (2 : ℚ) ^ (-1074 : ℤ) = 2 * 2 ^ (-1075 : ℤ) := by
    rw [← zpow_one_add₀ two_ne_zero]
    norm_num
  have hround := abs_roundEven_sub_le (div_nonneg h hunit.le)
  have hscaled : nearest q - q =
      (roundEven (q / 2 ^ exponent q) - q / 2 ^ exponent q) * 2 ^ exponent q := by
    rw [nearest_of_nonneg h, sub_mul, div_mul_cancel₀ _ hunit.ne']
  rw [abs_of_pos hpos, hhalf] at hbit
  rw [hscaled, abs_mul, abs_of_pos hunit]
  calc |(roundEven (q / 2 ^ exponent q) : ℚ) - q / 2 ^ exponent q| * 2 ^ exponent q
      ≤ 1/2 * 2 ^ exponent q := mul_le_mul_of_nonneg_right hround hunit.le
    _ ≤ 1/2 * (q / 2 ^ 52 + 2 * 2 ^ (-1075 : ℤ)) := by linarith
    _ = q / 2 ^ 53 + 2 ^ (-1075 : ℤ) := by ring

/-- The relative error of a quotient whose dividend, at least one, is rounded first. -/
theorem abs_nearest_div_sub_le {d r : ℚ} (hd : 1 ≤ d) (hr : 0 < r) :
    |nearest (nearest d / r) - d / r| ≤ d / r / 2 ^ 51 + 2 ^ (-1075 : ℤ) := by
  have hd0 : 0 ≤ d := zero_le_one.trans hd
  have hquotient : 0 ≤ d / r := div_nonneg hd0 hr.le
  have hdividend : |nearest d / r - d / r| ≤ d / r / 2 ^ 52 := by
    have herror := abs_nearest_sub_le_of_nonneg hd0
    have htiny : (2 : ℚ) ^ (-1075 : ℤ) ≤ 2 ^ (-53 : ℤ) :=
      zpow_le_zpow_right₀ one_le_two (by norm_num)
    rw [show (2 : ℚ) ^ (-53 : ℤ) = 1 / 2 ^ 53 by norm_num] at htiny
    rw [← sub_div, abs_div, abs_of_pos hr, div_right_comm]
    refine div_le_div_of_nonneg_right ?_ hr.le
    calc |nearest d - d| ≤ d / 2 ^ 53 + 2 ^ (-1075 : ℤ) := herror
      _ ≤ d / 2 ^ 53 + d / 2 ^ 53 := by
          refine add_le_add_right (htiny.trans ?_) _
          exact div_le_div_of_nonneg_right hd (by norm_num)
      _ = d / 2 ^ 52 := by ring
  have hrounded := abs_nearest_sub_le_of_nonneg (div_nonneg (nearest_nonneg hd0) hr.le)
  have hsplit := abs_sub_le (nearest (nearest d / r)) (nearest d / r) (d / r)
  have hupper := (abs_le.mp hdividend).2
  linarith

/-- Rounding changes nothing that is representable. -/
theorem nearest_of_representable {q : ℚ} (h : Representable q) : nearest q = q := by
  rcases lt_trichotomy q 0 with hneg | rfl | hpos
  · have := nearest_of_representable_of_pos (neg_pos.mpr hneg) h.neg
    simpa using this
  · exact nearest_zero
  · exact nearest_of_representable_of_pos hpos h

/-- A multiple of the smallest number is not rounded to zero. -/
theorem nearest_pos {k : ℤ} (hk : 0 < k) : 0 < nearest (k * 2 ^ (-1074 : ℤ)) := by
  have hunit : nearest ((1 : ℤ) * 2 ^ (-1074 : ℤ)) = (1 : ℤ) * 2 ^ (-1074 : ℤ) :=
    nearest_of_representable ⟨1,-1074,by norm_num,le_rfl,rfl⟩
  have hle : ((1 : ℤ) : ℚ) * 2 ^ (-1074 : ℤ) ≤ k * 2 ^ (-1074 : ℤ) := by
    refine mul_le_mul_of_nonneg_right ?_ (two_zpow_pos _).le
    exact_mod_cast hk
  have hpos : (0 : ℚ) < (1 : ℤ) * 2 ^ (-1074 : ℤ) := by
    rw [Int.cast_one, one_mul]
    exact two_zpow_pos _
  calc (0 : ℚ) < (1 : ℤ) * 2 ^ (-1074 : ℤ) := hpos
    _ = nearest ((1 : ℤ) * 2 ^ (-1074 : ℤ)) := hunit.symm
    _ ≤ nearest (k * 2 ^ (-1074 : ℤ)) := nearest_mono hle

/-- Every representable number is a multiple of the smallest one. -/
theorem Representable.exists_multiple {q : ℚ} (h : Representable q) :
    ∃ k : ℤ, q = k * 2 ^ (-1074 : ℤ) := by
  obtain ⟨m,e,-,he,rfl⟩ := h
  obtain ⟨shift,hshift⟩ := Int.eq_ofNat_of_zero_le (show 0 ≤ e + 1074 by omega)
  refine ⟨m * 2 ^ shift,?_⟩
  have hsplit : e = shift + -1074 := by omega
  rw [hsplit, zpow_add₀ two_ne_zero, zpow_natCast, Int.cast_mul, Int.cast_pow, Int.cast_ofNat,
    mul_assoc]

/-- The sign of a sum survives its rounding. -/
theorem nearest_add_pos_iff {q r : ℚ} (hq : Representable q) (hr : Representable r) :
    0 < nearest (q + r) ↔ 0 < q + r := by
  constructor
  · intro h
    by_contra hle
    have hmono := nearest_mono (not_lt.mp hle)
    rw [nearest_zero] at hmono
    linarith
  · intro h
    obtain ⟨k,rfl⟩ := hq.exists_multiple
    obtain ⟨l,rfl⟩ := hr.exists_multiple
    have hsum : (k : ℚ) * 2 ^ (-1074 : ℤ) + l * 2 ^ (-1074 : ℤ) =
        ((k + l : ℤ) : ℚ) * 2 ^ (-1074 : ℤ) := by
      rw [Int.cast_add, add_mul]
    rw [hsum] at h ⊢
    refine nearest_pos ?_
    have hcast : (0 : ℚ) < ((k + l : ℤ) : ℚ) := (mul_pos_iff_of_pos_right (two_zpow_pos _)).mp h
    exact_mod_cast hcast

theorem nearest_add_nonpos_iff {q r : ℚ} (hq : Representable q) (hr : Representable r) :
    nearest (q + r) ≤ 0 ↔ q + r ≤ 0 := by
  rw [← not_lt, ← not_lt, nearest_add_pos_iff hq hr]

/-- A sum is rounded to zero only if it is zero. -/
theorem nearest_add_eq_zero_iff {q r : ℚ} (hq : Representable q) (hr : Representable r) :
    nearest (q + r) = 0 ↔ q + r = 0 := by
  have hneg := nearest_add_nonpos_iff hq.neg hr.neg
  rw [← neg_add, nearest_neg, neg_nonpos, neg_nonpos] at hneg
  have hpos := nearest_add_nonpos_iff hq hr
  constructor
  · intro h
    exact le_antisymm (hpos.mp h.le) (hneg.mp h.ge)
  · intro h
    exact le_antisymm (hpos.mpr h.le) (hneg.mpr h.ge)

end HftEngine.Binary64
