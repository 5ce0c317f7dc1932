import Mathlib.Algebra.Order.AbsoluteValue.Basic
import Mathlib.Algebra.Order.Field.Rat
import Mathlib.Data.Rat.Floor

/-! What a program computes with numbers besides the operators, for any type of numbers. At the
rationals these are the usual functions. -/
namespace HftEngine.Number

/-- `std::abs` -/
def fabs {α : Type} [LT α] [DecidableLT α] [Neg α] [OfNat α 0] (x : α) : α :=
  if x < 0 then -x else x

/-- `std::floor` and `std::ceil` -/
class Integral (α : Type) where
  floor : α → α
  ceil : α → α

export Integral (floor ceil)

instance : Integral ℚ := ⟨fun q => ⌊q⌋,fun q => ⌈q⌉⟩

@[simp] theorem fabs_eq_abs (q : ℚ) : fabs q = |q| := by
  unfold fabs
  split_ifs with h
  · exact (abs_of_neg h).symm
  · exact (abs_of_nonneg (not_lt.mp h)).symm

@[simp] theorem floor_eq (q : ℚ) : floor q = ⌊q⌋ := rfl
@[simp] theorem ceil_eq (q : ℚ) : ceil q = ⌈q⌉ := rfl

/-- Laws that rounded numbers keep, with infinities and NaN among them. -/
class Arithmetic (α : Type) [Add α] [Div α] [LT α] [LE α] [∀ n, OfNat α n] : Prop where
  zero_le_zero : (0 : α) ≤ 0
  not_zero_lt_zero : ¬(0 : α) < 0
  zero_add : ∀ x : α, 0 + x = x
  add_zero : ∀ x : α, x + 0 = x
  lt_of_lt_of_le : ∀ {x y z : α}, x < y → y ≤ z → x < z
  add_pos : ∀ {x y : α}, 0 < x → 0 < y → 0 < x + y
  quarter_pos : (0 : α) < 1/2/2

instance : Arithmetic ℚ where
  zero_le_zero := le_rfl
  not_zero_lt_zero := lt_irrefl 0
  zero_add := zero_add
  add_zero := add_zero
  lt_of_lt_of_le := lt_of_lt_of_le
  add_pos := add_pos
  quarter_pos := by norm_num

end HftEngine.Number
