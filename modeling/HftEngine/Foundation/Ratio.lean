import HftEngine.Foundation.Double

/-! Quotients of doubles between -1 and 1. Rounding never brings a quotient of two doubles down to
1 unless it is at most 1, so the quotient of a rounded difference by a rounded sum can be told by
the signs of the terms, up to terms too small to change the other. -/
namespace HftEngine
namespace Binary64
variable {q r : ℚ}

theorem abs_nearest (q : ℚ) : |nearest q| = nearest |q| := by
  rcases le_total 0 q with h | h
  · rw [abs_of_nonneg h, abs_of_nonneg (nearest_nonneg h)]
  · have hneg := nearest_nonneg (neg_nonneg.mpr h)
    rw [abs_of_nonpos h, nearest_neg, abs_of_nonpos]
    rw [nearest_neg] at hneg
    linarith

theorem representable_abs (h : Representable q) : Representable |q| := by
  rcases abs_choice q with heq | heq
  · rwa [heq]
  · rw [heq]
    exact h.neg

/-- The same number in a smaller unit. -/
theorem mul_two_zpow (k : ℤ) (shift : ℕ) (e : ℤ) :
    (k : ℚ) * 2 ^ ((shift : ℤ) + e) = ((k * 2 ^ shift : ℤ) : ℚ) * 2 ^ e := by
  rw [zpow_add₀ (by norm_num), zpow_natCast]
  push_cast
  ring

/-- Two positive representable numbers are in the proportion of two integers, the smaller of
which has 53 bits. -/
theorem exists_proportion (hq : Representable q) (hr : Representable r) (hpos : 0 < r)
    (h : r < q) : ∃ k m : ℤ, 0 < m ∧ m < k ∧ m < 2 ^ 53 ∧ q / r = k / m := by
  obtain ⟨k,f,hk,-,rfl⟩ := hq
  obtain ⟨m,e,hm,-,rfl⟩ := hr
  -- Both numbers as multiples of the smaller of the two units.
  rcases le_total e f with hef | hef
  · obtain ⟨shift,hshift⟩ := Int.eq_ofNat_of_zero_le (sub_nonneg.mpr hef)
    obtain rfl : f = shift + e := by omega
    rw [mul_two_zpow] at h ⊢
    refine ⟨k * 2 ^ shift,m,?_,?_,(abs_lt.mp hm).2,mul_div_mul_right _ _ (two_zpow_pos e).ne'⟩
    · exact_mod_cast (mul_pos_iff_of_pos_right (two_zpow_pos e)).mp hpos
    · exact_mod_cast lt_of_mul_lt_mul_right h (two_zpow_pos e).le
  · obtain ⟨shift,hshift⟩ := Int.eq_ofNat_of_zero_le (sub_nonneg.mpr hef)
    obtain rfl : e = shift + f := by omega
    rw [mul_two_zpow] at h hpos ⊢
    have hlt : m * 2 ^ shift < k := by
      exact_mod_cast lt_of_mul_lt_mul_right h (two_zpow_pos f).le
    refine ⟨k,m * 2 ^ shift,?_,hlt,hlt.trans (abs_lt.mp hk).2,
      mul_div_mul_right _ _ (two_zpow_pos f).ne'⟩
    exact_mod_cast (mul_pos_iff_of_pos_right (two_zpow_pos f)).mp hpos

/-- A quotient of representable numbers above 1 is not rounded down to 1. -/
theorem one_lt_nearest_div (hq : Representable q) (hr : Representable r) (hpos : 0 < r)
    (h : r < q) : 1 < nearest (q / r) := by
  obtain ⟨k,m,hm,hmk,hbits,hquotient⟩ := exists_proportion hq hr hpos h
  have hleast : (1 : ℚ) < nearest (1 + 1 / (2 ^ 53 - 1)) := by decide +kernel
  refine hleast.trans_le (nearest_mono ?_)
  have hm0 : (0 : ℚ) < m := by exact_mod_cast hm
  have hbound : (m : ℚ) ≤ 2 ^ 53 - 1 := by
    have : m ≤ 2 ^ 53 - 1 := by omega
    exact_mod_cast this
  have hstep : (m : ℚ) + 1 ≤ k := by exact_mod_cast hmk
  calc (1 : ℚ) + 1 / (2 ^ 53 - 1) ≤ 1 + 1 / m := by gcongr
    _ = (m + 1) / m := by rw [add_div, div_self hm0.ne']
    _ ≤ k / m := by gcongr
    _ = q / r := hquotient.symm

/-- One of the numbers is so much smaller that neither adding nor subtracting it changes the
other. -/
def Absorbed (q r : ℚ) : Prop :=
  (nearest (q + r) = q ∧ nearest (q - r) = q) ∨ (nearest (r + q) = r ∧ nearest (r - q) = r)

theorem absorbed_of_pos (hq : Representable q) (hr : Representable r) (hq0 : 0 < q) (hr0 : r < 0)
    (h : |nearest (q - r)| ≤ |nearest (q + r)|) : Absorbed q r := by
  have hnearestq := nearest_of_representable hq
  have hnearestr := nearest_of_representable hr
  have hdiff : nearest q ≤ nearest (q - r) := nearest_mono (by linarith)
  have hdiff' : nearest (-r) ≤ nearest (q - r) := nearest_mono (by linarith)
  rw [nearest_neg] at hdiff'
  rw [abs_of_nonneg (nearest_nonneg (by linarith))] at h
  rcases le_total 0 (q + r) with hsum | hsum
  · have hle : nearest (q + r) ≤ nearest q := nearest_mono (by linarith)
    rw [abs_of_nonneg (nearest_nonneg hsum)] at h
    exact .inl ⟨by linarith,by linarith⟩
  · have hle : nearest r ≤ nearest (q + r) := nearest_mono (by linarith)
    have hneg := nearest_mono hsum
    rw [nearest_zero] at hneg
    rw [abs_of_nonpos hneg] at h
    have hswap : nearest (r - q) = -nearest (q - r) := by rw [← nearest_neg, neg_sub]
    refine .inr ⟨by rw [add_comm]; linarith,by rw [hswap]; linarith⟩

theorem absorbed_neg (h : Absorbed (-q) (-r)) : Absorbed q r := by
  have hsum : -q + -r = -(q + r) := by ring
  have hsum' : -r + -q = -(r + q) := by ring
  have hdiff : -q - -r = -(q - r) := by ring
  have hdiff' : -r - -q = -(r - q) := by ring
  unfold Absorbed at h ⊢
  simpa only [hsum, hsum', hdiff, hdiff', nearest_neg, neg_inj] using h

/-- A rounded difference is at most the rounded sum exactly for terms of one sign, or when one of
the terms is absorbed. -/
theorem nearest_sub_le_iff (hq : Representable q) (hr : Representable r) :
    |nearest (q - r)| ≤ |nearest (q + r)| ↔ 0 ≤ q * r ∨ Absorbed q r := by
  constructor
  · intro h
    by_contra hnot
    obtain ⟨hsigns,habsorbed⟩ := not_or.mp hnot
    rcases mul_neg_iff.mp (not_le.mp hsigns) with ⟨hq0,hr0⟩ | ⟨hq0,hr0⟩
    · exact habsorbed (absorbed_of_pos hq hr hq0 hr0 h)
    · have hsum : -q + -r = -(q + r) := by ring
      have hdiff : -q - -r = -(q - r) := by ring
      refine habsorbed (absorbed_neg (absorbed_of_pos hq.neg hr.neg (neg_pos.mpr hq0)
        (neg_lt_zero.mpr hr0) ?_))
      rwa [hsum, hdiff, nearest_neg, nearest_neg, abs_neg, abs_neg]
  · rintro (h | ⟨hsum,hdiff⟩ | ⟨hsum,hdiff⟩)
    · rw [abs_nearest, abs_nearest]
      exact nearest_mono (sq_le_sq.mp (by nlinarith))
    · rw [hsum, hdiff]
    · rw [add_comm] at hsum
      have hswap : nearest (q - r) = -nearest (r - q) := by rw [← nearest_neg, neg_sub]
      rw [hsum, hswap, hdiff, abs_neg]

/-- Neither the sum of numbers of opposite signs nor the difference of numbers of one sign
overflows. -/
theorem nearest_lt_overflow {t : ℚ} (hq : InRange q) (hr : InRange r) (h : |t| ≤ max |q| |r|) :
    |nearest t| < overflow := by
  have hmono := nearest_mono h
  rw [← abs_nearest] at hmono
  refine hmono.trans_lt ?_
  rcases max_choice |q| |r| with hmax | hmax
  · rw [hmax, nearest_of_representable (representable_abs hq.representable)]
    exact hq.bounded
  · rw [hmax, nearest_of_representable (representable_abs hr.representable)]
    exact hr.bounded

theorem abs_sub_le_max (h : 0 ≤ q * r) : |q - r| ≤ max |q| |r| := by
  rcases mul_nonneg_iff.mp h with ⟨hq,hr⟩ | ⟨hq,hr⟩
  · rw [abs_of_nonneg hq, abs_of_nonneg hr, abs_le]
    constructor <;> cases max_choice q r <;> linarith [le_max_left q r, le_max_right q r]
  · rw [abs_of_nonpos hq, abs_of_nonpos hr, abs_le]
    constructor <;> linarith [le_max_left (-q) (-r), le_max_right (-q) (-r)]

theorem abs_add_le_max (h : q * r < 0) : |q + r| ≤ max |q| |r| := by
  have hsub := abs_sub_le_max (q := q) (r := -r) (by linarith)
  rwa [sub_neg_eq_add, abs_neg] at hsub

end Binary64

namespace Double
open Binary64
variable {q r : ℚ}

theorem round_between_iff (t : ℚ) : (-1 ≤ round t ∧ round t ≤ 1) ↔ |nearest t| ≤ 1 := by
  obtain ⟨hone,h⟩ := one_eq
  have hneg : (-1 : Double) = finite (-1) hone.neg := congrArg Neg.neg h
  rw [hneg, h]
  unfold round
  split_ifs with hbound
  · rw [finite_le_finite, finite_le_finite, abs_le]
  · have hlarge : ¬|nearest t| ≤ 1 := fun hle => hbound (hle.trans_lt one_lt_overflow)
    simp [le_def, le, hlarge]

/-- The quotient of finite numbers lies between -1 and 1 exactly if it does before rounding. -/
theorem div_between_iff (hq : InRange q) (hr : InRange r) (hne : r ≠ 0) :
    (-1 ≤ finite q hq / finite r hr ∧ finite q hq / finite r hr ≤ 1) ↔ |q| ≤ |r| := by
  have hdiv : finite q hq / finite r hr = round (q / r) := if_neg hne
  rw [hdiv, round_between_iff, abs_nearest, abs_div]
  constructor
  · intro h
    by_contra hlt
    have hlarge := one_lt_nearest_div (representable_abs hq.representable)
      (representable_abs hr.representable) (abs_pos.mpr hne) (not_le.mp hlt)
    linarith
  · intro h
    have hmono := nearest_mono (div_le_one_of_le₀ h (abs_nonneg r))
    rwa [nearest_of_representable one_representable] at hmono

theorem round_eq_finite_iff (t : ℚ) (hq : InRange q) : round t = finite q hq ↔ nearest t = q := by
  constructor
  · intro h
    unfold round at h
    split_ifs at h
    exact Double.finite.inj h
  · intro h
    unfold round
    rw [dif_pos (by rw [h]; exact hq.bounded)]
    congr 1

/-- Terms that are not both zero have a sum, if the difference is at most the sum. -/
theorem add_ne_zero_iff (hq : InRange q) (hr : InRange r)
    (h : |nearest (q - r)| ≤ |nearest (q + r)|) : nearest (q + r) ≠ 0 ↔ ¬(q = 0 ∧ r = 0) := by
  have hsum := nearest_add_eq_zero_iff hq.representable hr.representable
  refine not_congr ⟨fun hzero => ?_,fun hzero => hsum.mpr (by rw [hzero.1, hzero.2, add_zero])⟩
  rw [hzero, abs_zero, abs_nonpos_iff, sub_eq_add_neg,
    nearest_add_eq_zero_iff hq.representable hr.representable.neg] at h
  have hopposite := hsum.mp hzero
  exact ⟨by linarith,by linarith⟩

theorem not_between_infinity (negative : Bool) :
    ¬(-1 ≤ infinity negative ∧ infinity negative ≤ 1) := by
  cases negative <;> decide +kernel

theorem round_of_overflow {t : ℚ} (h : ¬|nearest t| < overflow) :
    ∃ negative, round t = infinity negative := ⟨_,dif_neg h⟩

/-- The quotient of a rounded difference by the rounded sum is defined and lies between -1 and 1
exactly if the terms are not both zero, and of one sign or one of them absorbed. -/
theorem ratio_between_iff (hq : InRange q) (hr : InRange r) :
    (round (q + r) ≠ 0 ∧ -1 ≤ round (q - r) / round (q + r) ∧
        round (q - r) / round (q + r) ≤ 1) ↔
      ¬(q = 0 ∧ r = 0) ∧ (0 ≤ q * r ∨ Absorbed q r) := by
  rw [← nearest_sub_le_iff hq.representable hr.representable, zero_eq]
  by_cases hsum : |nearest (q + r)| < overflow
  · have hround : round (q + r) = finite _ ⟨representable_nearest _,hsum⟩ := dif_pos hsum
    rw [ne_eq, round_eq_finite_iff, hround]
    by_cases hdiff : |nearest (q - r)| < overflow
    · have hround' : round (q - r) = finite _ ⟨representable_nearest _,hdiff⟩ := dif_pos hdiff
      rw [hround']
      constructor
      · rintro ⟨hne,hbetween⟩
        have hle := (div_between_iff _ _ hne).mp hbetween
        exact ⟨(add_ne_zero_iff hq hr hle).mp hne,hle⟩
      · rintro ⟨hboth,hle⟩
        have hne := (add_ne_zero_iff hq hr hle).mpr hboth
        exact ⟨hne,(div_between_iff _ _ hne).mpr hle⟩
    · -- An infinite difference over a finite sum.
      obtain ⟨negative,hround'⟩ := round_of_overflow hdiff
      rw [hround']
      refine iff_of_false ?_ fun h => hdiff (h.2.trans_lt hsum)
      rintro ⟨-,hbetween⟩
      exact not_between_infinity _ hbetween
  · -- The sum overflows, so the terms are of one sign and the difference does not.
    have hsigns : 0 ≤ q * r := by
      by_contra hneg
      exact hsum (nearest_lt_overflow hq hr (abs_add_le_max (not_le.mp hneg)))
    have hdiff := nearest_lt_overflow hq hr (abs_sub_le_max hsigns)
    have hround' : round (q - r) = finite _ ⟨representable_nearest _,hdiff⟩ := dif_pos hdiff
    obtain ⟨negative,hround⟩ := round_of_overflow hsum
    rw [hround', hround]
    have hle : |nearest (q - r)| ≤ |nearest (q + r)| := hdiff.le.trans (not_lt.mp hsum)
    refine iff_of_true ⟨by simp,?_⟩ ⟨(add_ne_zero_iff hq hr hle).mp ?_,hle⟩
    · change -1 ≤ (0 : Double) ∧ (0 : Double) ≤ 1
      decide +kernel
    · intro hzero
      rw [hzero, abs_zero] at hsum
      exact hsum (zero_lt_one.trans one_lt_overflow)

end Double
end HftEngine
