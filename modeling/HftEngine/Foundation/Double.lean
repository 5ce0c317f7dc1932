import HftEngine.Foundation.Binary64
import HftEngine.Foundation.Number
import Mathlib.Order.Bounds.Basic

/-! Double-precision numbers (IEEE 754 binary64): the finite ones as the rationals they stand
for, the infinities and NaN. The two zeros are one value here, and a division by zero takes it
as +0. -/
namespace HftEngine
open Binary64

/-- From this magnitude on a rounded result overflows to an infinity. -/
def Binary64.overflow : ℚ := 2 ^ 1024

theorem Binary64.one_representable : Representable 1 := ⟨1,0,by norm_num,by norm_num,by norm_num⟩

theorem Binary64.one_lt_overflow : 1 < overflow := one_lt_pow₀ (by norm_num) (by norm_num)

/-- The rationals that are doubles. -/
structure Binary64.InRange (q : ℚ) : Prop where
  representable : Representable q
  bounded : |q| < overflow

inductive Double
  | finite (value : ℚ) (inRange : InRange value)
  | infinity (negative : Bool)
  | nan
  deriving DecidableEq

theorem Binary64.InRange.neg {q : ℚ} (h : InRange q) : InRange (-q) :=
  ⟨h.representable.neg,by simpa using h.bounded⟩

namespace Double

/-- The double that an exact result is rounded to. -/
def round (q : ℚ) : Double :=
  if h : |nearest q| < overflow then .finite (nearest q) ⟨representable_nearest q,h⟩
  else .infinity (decide (q < 0))

instance (n : ℕ) : OfNat Double n := ⟨round n⟩

def neg : Double → Double
  | .finite q h => .finite (-q) h.neg
  | .infinity negative => .infinity (!negative)
  | .nan => .nan

def add : Double → Double → Double
  | .finite q _, .finite r _ => round (q + r)
  | .finite _ _, .infinity negative => .infinity negative
  | .infinity negative, .finite _ _ => .infinity negative
  | .infinity a, .infinity b => if a = b then .infinity a else .nan
  | .nan, _ => .nan
  | _, .nan => .nan

/-- An infinity times or divided by a finite number of this sign; zero has none. -/
def scaled (negative : Bool) (q : ℚ) : Double :=
  if q = 0 then .nan else .infinity (negative ^^ decide (q < 0))

def mul : Double → Double → Double
  | .finite q _, .finite r _ => round (q * r)
  | .finite q _, .infinity negative => scaled negative q
  | .infinity negative, .finite q _ => scaled negative q
  | .infinity a, .infinity b => .infinity (a ^^ b)
  | .nan, _ => .nan
  | _, .nan => .nan

def div : Double → Double → Double
  | .finite q _, .finite r _ => if r = 0 then scaled false q else round (q / r)
  | .finite _ _, .infinity _ => 0
  | .infinity negative, .finite r _ => .infinity (negative ^^ decide (r < 0))
  | .infinity _, .infinity _ => .nan
  | .nan, _ => .nan
  | _, .nan => .nan

/-- Every comparison with NaN is false. -/
def lt : Double → Double → Bool
  | .finite q _, .finite r _ => decide (q < r)
  | .finite _ _, .infinity negative => !negative
  | .infinity negative, .finite _ _ => negative
  | .infinity a, .infinity b => a && !b
  | .nan, _ => false
  | _, .nan => false

def le : Double → Double → Bool
  | .finite q _, .finite r _ => decide (q ≤ r)
  | .finite _ _, .infinity negative => !negative
  | .infinity negative, .finite _ _ => negative
  | .infinity a, .infinity b => a || !b
  | .nan, _ => false
  | _, .nan => false

/-- NaN is different from itself. -/
def eq : Double → Double → Bool
  | .finite q _, .finite r _ => decide (q = r)
  | .infinity a, .infinity b => a == b
  | _, _ => false

instance : Neg Double := ⟨neg⟩
instance : Add Double := ⟨add⟩
instance : Sub Double := ⟨fun x y => add x (neg y)⟩
instance : Mul Double := ⟨mul⟩
instance : Div Double := ⟨div⟩
instance : LT Double := ⟨fun x y => lt x y = true⟩
instance : LE Double := ⟨fun x y => le x y = true⟩
instance : BEq Double := ⟨eq⟩

instance : DecidableLT Double := fun x y => inferInstanceAs (Decidable (lt x y = true))
instance : DecidableLE Double := fun x y => inferInstanceAs (Decidable (le x y = true))

/-- `std::max` and `std::min`, which return their first argument unless it compares less. -/
instance : Max Double := ⟨fun x y => if x < y then y else x⟩
instance : Min Double := ⟨fun x y => if y < x then y else x⟩

/-- Neither an infinity nor NaN. -/
def isFinite : Double → Bool
  | .finite _ _ => true
  | _ => false

def isNan : Double → Bool
  | .nan => true
  | _ => false

/-- The integers next to a representable number are representable. -/
def floor : Double → Double
  | .finite q _ => round ⌊q⌋
  | x => x

def ceil : Double → Double
  | .finite q _ => round ⌈q⌉
  | x => x

instance : Number.Integral Double := ⟨floor,ceil⟩

section Order
variable {x y z : Double}

theorem lt_def : x < y ↔ lt x y = true := Iff.rfl
theorem le_def : x ≤ y ↔ le x y = true := Iff.rfl

@[simp] theorem finite_lt_finite {q r : ℚ} (hq : InRange q) (hr : InRange r) :
    finite q hq < finite r hr ↔ q < r := by
  simp [lt_def, lt]

@[simp] theorem finite_le_finite {q r : ℚ} (hq : InRange q) (hr : InRange r) :
    finite q hq ≤ finite r hr ↔ q ≤ r := by
  simp [le_def, le]

theorem lt_irrefl (x : Double) : ¬x < x := by
  cases x <;> simp [lt_def, lt]

theorem le_rfl_of_isNan (h : x.isNan = false) : x ≤ x := by
  cases x <;> simp_all [le_def, le, isNan]

/-- Between two numbers that are not NaN one of the comparisons holds. -/
theorem not_lt_iff (hx : x.isNan = false) (hy : y.isNan = false) : ¬x < y ↔ y ≤ x := by
  cases x <;> cases y <;> simp_all [lt_def, le_def, lt, le, isNan]
  grind

theorem not_le_iff (hx : x.isNan = false) (hy : y.isNan = false) : ¬x ≤ y ↔ y < x := by
  cases x <;> cases y <;> simp_all [lt_def, le_def, lt, le, isNan, and_comm]

theorem isNan_of_lt (h : x < y) : x.isNan = false ∧ y.isNan = false := by
  cases x <;> cases y <;> simp_all [lt_def, lt, isNan]

theorem isNan_of_le (h : x ≤ y) : x.isNan = false ∧ y.isNan = false := by
  cases x <;> cases y <;> simp_all [le_def, le, isNan]

theorem le_trans (hxy : x ≤ y) (hyz : y ≤ z) : x ≤ z := by
  cases x <;> cases y <;> cases z <;> simp_all [le_def, le] <;> grind

theorem lt_asymm (h : x < y) : ¬y < x := by
  cases x <;> cases y <;> simp_all [lt_def, lt]
  exact h.le

theorem le_of_lt (h : x < y) : x ≤ y :=
  (not_lt_iff (isNan_of_lt h).2 (isNan_of_lt h).1).mp (lt_asymm h)

theorem lt_of_lt_of_le (hxy : x < y) (hyz : y ≤ z) : x < z := by
  cases x <;> cases y <;> cases z <;> simp_all [lt_def, le_def, lt, le]
  exact hxy.trans_le hyz

theorem le_total (hx : x.isNan = false) (hy : y.isNan = false) : x ≤ y ∨ y ≤ x := by
  by_cases h : x < y
  · exact .inl (le_of_lt h)
  · exact .inr ((not_lt_iff hx hy).mp h)

theorem le_antisymm (hxy : x ≤ y) (hyx : y ≤ x) : x = y := by
  cases x <;> cases y <;> simp_all [le_def, le]
  · exact hxy.antisymm hyx
  · grind

theorem beq_iff (hx : x.isNan = false) (hy : y.isNan = false) : (x == y) = true ↔ x = y := by
  change eq x y = true ↔ _
  cases x <;> cases y <;> simp_all [eq, isNan]

/-- Of two largest elements, the maximum is the largest of both sets. -/
theorem isGreatest_max {s t : Set Double} (hx : IsGreatest s x) (hy : IsGreatest t y) :
    IsGreatest (s ∪ t) (max x y) := by
  change IsGreatest (s ∪ t) (if x < y then y else x)
  split_ifs with h
  · refine ⟨.inr hy.1,?_⟩
    rintro z (hz | hz)
    · exact le_trans (hx.2 hz) (le_of_lt h)
    · exact hy.2 hz
  · refine ⟨.inl hx.1,?_⟩
    have hle : y ≤ x :=
      (not_lt_iff (isNan_of_le (hx.2 hx.1)).1 (isNan_of_le (hy.2 hy.1)).1).mp h
    rintro z (hz | hz)
    · exact hx.2 hz
    · exact le_trans (hy.2 hz) hle

end Order

section Rounding
variable {q r : ℚ}

theorem round_of_inRange (h : InRange q) : round q = .finite q h := by
  have hnearest := nearest_of_representable h.representable
  unfold round
  rw [dif_pos (by rw [hnearest]; exact h.bounded)]
  congr 1

theorem inRange_zero : InRange 0 :=
  ⟨⟨0,0,by norm_num,by norm_num,by norm_num⟩,by norm_num [overflow]⟩

theorem zero_eq : (0 : Double) = .finite 0 inRange_zero := by
  have h := round_of_inRange inRange_zero
  exact h

/-- A rounded number is NaN in no case, and rounding keeps the order. -/
theorem round_mono (h : q ≤ r) : round q ≤ round r := by
  have hmono := nearest_mono h
  unfold round
  split_ifs with hq hr hr
  · exact (finite_le_finite _ _).mpr hmono
  · -- Only the larger number overflows, so it is positive.
    have hpos : ¬r < 0 := by
      intro hneg
      have hle := nearest_mono hneg.le
      rw [nearest_zero] at hle
      rw [abs_of_nonpos hle] at hr
      have hlow := neg_abs_le (nearest q)
      linarith
    simp [le_def, le, hpos]
  · have hneg : q < 0 := by
      by_contra hnonneg
      have hlow := nearest_nonneg (not_lt.mp hnonneg)
      rw [abs_of_nonneg hlow] at hq
      have hhigh := le_abs_self (nearest r)
      linarith
    simp [le_def, le, hneg]
  · by_cases hneg : r < 0
    · simp [le_def, le, hneg, h.trans_lt hneg]
    · simp [le_def, le, hneg]

/-- A rounded difference of finite numbers is monotone. -/
theorem sub_le_sub {x y z : Double} (hx : x.isFinite = true) (hy : y.isFinite = true)
    (hz : z.isFinite = true) (h : x ≤ y) : x - z ≤ y - z := by
  cases x with
  | finite q hq =>
    cases y with
    | finite r hr =>
      cases z with
      | finite t ht =>
        exact round_mono (add_le_add_left ((finite_le_finite hq hr).mp h) (-t))
      | _ => contradiction
    | _ => contradiction
  | _ => contradiction

theorem isNan_round (q : ℚ) : (round q).isNan = false := by
  unfold round
  split_ifs <;> rfl

theorem infinity_nonpos_iff (negative : Bool) : infinity negative ≤ 0 ↔ negative = true := by
  rw [zero_eq]
  simp [le_def, le]

/-- The sign of a sum of doubles survives the rounding. -/
theorem round_add_nonpos_iff (hq : InRange q) (hr : InRange r) : round (q + r) ≤ 0 ↔ q + r ≤ 0 := by
  have hnearest := nearest_add_nonpos_iff hq.representable hr.representable
  unfold round
  split_ifs with hbound
  · rw [zero_eq, finite_le_finite, hnearest]
  · -- An overflow is not zero.
    have hne : q + r ≠ 0 := by
      intro hzero
      rw [hzero, nearest_zero] at hbound
      exact hbound (by norm_num [overflow])
    rw [infinity_nonpos_iff, decide_eq_true_eq]
    exact ⟨fun h => h.le,fun h => lt_of_le_of_ne h hne⟩

theorem add_finite_nonpos_iff (x : Double) (hr : InRange r) :
    x + finite r hr ≤ 0 ↔ x ≤ finite (-r) hr.neg := by
  cases x with
  | finite q hq =>
    rw [finite_le_finite, le_neg_iff_add_nonpos_right]
    exact round_add_nonpos_iff hq hr
  | infinity negative =>
    refine (infinity_nonpos_iff negative).trans ?_
    simp [le_def, le]
  | nan => simp [le_def, le, HAdd.hAdd, Add.add, add]

theorem isNan_add_finite (x : Double) (hr : InRange r) : (x + finite r hr).isNan = x.isNan := by
  cases x with
  | finite q hq => exact isNan_round _
  | infinity negative => rfl
  | nan => rfl

theorem isNan_sub_finite (x : Double) (hr : InRange r) : (x - finite r hr).isNan = x.isNan :=
  isNan_add_finite x hr.neg

theorem one_eq : ∃ h, (1 : Double) = .finite 1 h :=
  ⟨⟨one_representable,lt_of_eq_of_lt abs_one one_lt_overflow⟩,round_of_inRange _⟩

@[simp] theorem mul_one_right (x : Double) : x * 1 = x := by
  obtain ⟨hone,h⟩ := one_eq
  rw [h]
  cases x with
  | finite q hq =>
    change round (q * 1) = _
    rw [mul_one, round_of_inRange hq]
  | infinity negative =>
    change scaled negative 1 = _
    simp [scaled, not_lt.mpr zero_le_one]
  | nan => rfl

@[simp] theorem mul_neg_one_right (x : Double) : x * -1 = -x := by
  obtain ⟨hone,h⟩ := one_eq
  rw [h]
  cases x with
  | finite q hq =>
    change round (q * -1) = .finite (-q) hq.neg
    rw [mul_neg_one, round_of_inRange hq.neg]
  | infinity negative =>
    change scaled negative (-1) = infinity !negative
    simp [scaled]
  | nan => rfl

theorem neg_zero : -(0 : Double) = 0 := by decide +kernel

theorem neg_neg_iff (x : Double) : -x < 0 ↔ 0 < x := by
  rw [zero_eq]
  cases x with
  | finite q hq =>
    change finite (-q) hq.neg < _ ↔ _
    rw [finite_lt_finite, finite_lt_finite, neg_lt_zero]
  | infinity negative =>
    change infinity (!negative) < _ ↔ _
    simp [lt_def, lt]
  | nan => exact Iff.rfl

theorem neg_pos_iff (x : Double) : 0 < -x ↔ x < 0 := by
  rw [zero_eq]
  cases x with
  | finite q hq =>
    change _ < finite (-q) hq.neg ↔ _
    rw [finite_lt_finite, finite_lt_finite, neg_pos]
  | infinity negative =>
    change _ < infinity (!negative) ↔ _
    simp [lt_def, lt]
  | nan => exact Iff.rfl

/-- A sum of doubles is zero only if its terms cancel: nothing is rounded down to zero. -/
theorem eq_neg_of_add_eq_zero {x y : Double} (h : x + y = 0) : y = -x := by
  rw [zero_eq] at h
  cases x with
  | finite q hq =>
    cases y with
    | finite r hr =>
      change round (q + r) = _ at h
      unfold round at h
      split_ifs at h with hbound
      have hzero : nearest (q + r) = 0 := Double.finite.inj h
      have hsum := (nearest_add_eq_zero_iff hq.representable hr.representable).mp hzero
      obtain rfl : r = -q := by linarith
      rfl
    | infinity negative => contradiction
    | nan => contradiction
  | infinity negative =>
    cases y with
    | finite r hr => contradiction
    | infinity negative' => cases negative <;> cases negative' <;> contradiction
    | nan => contradiction
  | nan => contradiction

/-- A difference of numbers has the sign of the exact one, but for that of two equal infinities,
which is NaN. -/
theorem sub_nonneg_iff {x y : Double} (hx : x.isNan = false) (hy : y.isNan = false) :
    0 ≤ y - x ↔ x ≤ y ∧ (x = y → x.isFinite = true) := by
  cases x with
  | finite q hq =>
    have hfinite : (finite q hq).isFinite = true := rfl
    rw [and_iff_left fun _ => hfinite]
    cases y with
    | finite r hr =>
      have hdiff : finite r hr - finite q hq = round (r + -q) := rfl
      rw [hdiff, finite_le_finite]
      constructor
      · intro h
        by_contra hlt
        have hnonpos : round (r + -q) ≤ 0 :=
          (round_add_nonpos_iff hr hq.neg).mpr (by linarith)
        have hneg := eq_neg_of_add_eq_zero (x := finite r hr) (y := finite (-q) hq.neg)
          (le_antisymm hnonpos h)
        have heq : -q = -r := Double.finite.inj hneg
        linarith
      · intro h
        have hnonneg : (0 : ℚ) ≤ r + -q := by linarith
        exact round_mono hnonneg
    | infinity negative =>
      change 0 ≤ infinity negative ↔ _
      rw [zero_eq]
      exact Iff.rfl
    | nan => contradiction
  | infinity negative =>
    cases y with
    | finite r hr =>
      change 0 ≤ infinity !negative ↔ _
      rw [zero_eq]
      simp [le_def, le]
    | infinity negative' => cases negative <;> cases negative' <;> decide +kernel
    | nan => contradiction
  | nan => contradiction

theorem add_neg_of_isFinite {x : Double} (h : x.isFinite = true) : x + -x = 0 := by
  cases x with
  | finite q hq =>
    change round (q + -q) = 0
    rw [add_neg_cancel]
    rfl
  | infinity negative => contradiction
  | nan => contradiction

theorem infinity_pos : 0 < infinity false := by
  rw [zero_eq]
  rfl

/-- A sum of positive doubles is not rounded down to zero. -/
theorem pos_of_add {x y : Double} (hx : 0 < x) (hy : 0 < y) : 0 < x + y := by
  rw [zero_eq] at hx hy
  cases x with
  | finite q hq =>
    cases y with
    | finite r hr =>
      rw [finite_lt_finite] at hx hy
      have hsum : ¬round (q + r) ≤ 0 := by
        rw [round_add_nonpos_iff hq hr]
        exact not_le.mpr (add_pos hx hy)
      exact (not_le_iff (isNan_round _) (isNan_round 0)).mp hsum
    | infinity negative =>
      cases negative with
      | true => contradiction
      | false => exact infinity_pos
    | nan => contradiction
  | infinity negative =>
    cases negative with
    | true => contradiction
    | false =>
      cases y with
      | finite r hr => exact infinity_pos
      | infinity negative =>
        cases negative with
        | true => contradiction
        | false => exact infinity_pos
      | nan => contradiction
  | nan => contradiction

theorem add_zero_right (x : Double) : x + 0 = x := by
  rw [zero_eq]
  cases x with
  | finite q hq =>
    change round (q + 0) = _
    rw [add_zero, round_of_inRange hq]
  | infinity negative => rfl
  | nan => rfl

theorem zero_add_left (x : Double) : 0 + x = x := by
  rw [zero_eq]
  cases x with
  | finite q hq =>
    change round (0 + q) = _
    rw [zero_add, round_of_inRange hq]
  | infinity negative => rfl
  | nan => rfl

instance : Number.Arithmetic Double where
  zero_le_zero := by decide +kernel
  not_zero_lt_zero := lt_irrefl 0
  zero_add := zero_add_left
  add_zero := add_zero_right
  lt_of_lt_of_le := lt_of_lt_of_le
  add_pos := pos_of_add
  quarter_pos := by decide +kernel

end Rounding
end Double
end HftEngine
