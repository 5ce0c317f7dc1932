import HftEngine.Foundation.OrderStatistics
import Mathlib.Algebra.BigOperators.Fin
import Mathlib.Algebra.Order.Field.Basic
import Mathlib.Tactic.Linarith
import Mathlib.Tactic.Ring

/-! Exponential smoothing over a field. The average starts at the first value, and every later
value moves it by the same weight; older values fade geometrically. -/
namespace HftEngine.Smoothing
open OrderStatistics
variable {K : Type*} [Field K]

/-- One value moves the average towards itself. -/
def move (a average value : K) : K := value * a + average * (1 - a)

/-- The average after the values of a list, from a first value on. -/
def ema (a first : K) (rest : List K) : K := rest.foldl (move a) first

/-- The values with the weights that they have in the average. -/
def weightedSum (a first : K) (rest : List K) : K :=
  (1 - a) ^ rest.length * first +
    ∑ i : Fin rest.length, a * (1 - a) ^ (rest.length - 1 - i) * rest[i]

@[simp] theorem ema_nil (a first : K) : ema a first [] = first := rfl

@[simp] theorem ema_cons (a first value : K) (rest : List K) :
    ema a first (value :: rest) = ema a (move a first value) rest := rfl

/-- The closed form of the average. -/
theorem ema_eq_weightedSum (a first : K) (rest : List K) :
    ema a first rest = weightedSum a first rest := by
  induction rest generalizing first with
  | nil => simp [weightedSum]
  | cons value rest ih =>
    have hexponent : ∀ i : ℕ, rest.length - 1 - i = rest.length - (i + 1) := by
      intro i
      omega
    rw [ema_cons, ih, weightedSum, weightedSum, move]
    simp only [List.length_cons, Fin.sum_univ_succ, Fin.val_zero, Fin.val_succ, Fin.getElem_fin,
      List.getElem_cons_zero, List.getElem_cons_succ, Nat.add_sub_cancel, Nat.sub_zero, hexponent]
    ring

theorem move_mul (a c average value : K) :
    move a (c * average) (c * value) = c * move a average value := by
  unfold move
  ring

section Order
variable [LinearOrder K] [IsStrictOrderedRing K] {a : K}

theorem le_move (ha : 0 ≤ a) (ha' : a ≤ 1) {lo average value : K} (haverage : lo ≤ average)
    (hvalue : lo ≤ value) : lo ≤ move a average value := by
  have hfirst := mul_le_mul_of_nonneg_right hvalue ha
  have hsecond := mul_le_mul_of_nonneg_right haverage (sub_nonneg.mpr ha')
  unfold move
  linarith

theorem move_le (ha : 0 ≤ a) (ha' : a ≤ 1) {hi average value : K} (haverage : average ≤ hi)
    (hvalue : value ≤ hi) : move a average value ≤ hi := by
  have hfirst := mul_le_mul_of_nonneg_right hvalue ha
  have hsecond := mul_le_mul_of_nonneg_right haverage (sub_nonneg.mpr ha')
  unfold move
  linarith

theorem le_ema (ha : 0 ≤ a) (ha' : a ≤ 1) {lo first : K} {rest : List K} (hfirst : lo ≤ first)
    (hrest : ∀ value ∈ rest, lo ≤ value) : lo ≤ ema a first rest := by
  induction rest generalizing first with
  | nil => exact hfirst
  | cons value rest ih =>
    obtain ⟨hvalue,hrest⟩ := List.forall_mem_cons.mp hrest
    exact ih (le_move ha ha' hfirst hvalue) hrest

theorem ema_le (ha : 0 ≤ a) (ha' : a ≤ 1) {hi first : K} {rest : List K} (hfirst : first ≤ hi)
    (hrest : ∀ value ∈ rest, value ≤ hi) : ema a first rest ≤ hi := by
  induction rest generalizing first with
  | nil => exact hfirst
  | cons value rest ih =>
    obtain ⟨hvalue,hrest⟩ := List.forall_mem_cons.mp hrest
    exact ih (move_le ha ha' hfirst hvalue) hrest

/-- With a weight between zero and one the average stays between the values. -/
theorem ema_between (ha : 0 ≤ a) (ha' : a ≤ 1) (first : K) (rest : List K) :
    Between (first :: rest) (ema a first rest) := by
  apply between_of_bounds (List.cons_ne_nil _ _)
  · intro lo hlo
    obtain ⟨hfirst,hrest⟩ := List.forall_mem_cons.mp hlo
    exact le_ema ha ha' hfirst hrest
  · intro hi hhi
    obtain ⟨hfirst,hrest⟩ := List.forall_mem_cons.mp hhi
    exact ema_le ha ha' hfirst hrest

end Order
end HftEngine.Smoothing
