import HftEngine.Foundation.Smoothing
import Mathlib.Algebra.Order.Group.Abs

/-! The total variation of a sequence of numbers. Leaving out elements does not raise it, swinging
across a band costs twice the half-width each time, and two exponential averages of the same values
stay apart by no more than these values vary. -/
namespace HftEngine.Variation
open Smoothing
variable {K : Type*} [Field K] [LinearOrder K]

/-- The total variation of a first element and the ones after it. -/
def variationFrom : K → List K → K
  | _, [] => 0
  | x, y :: rest => |y - x| + variationFrom y rest

def variation : List K → K
  | [] => 0
  | x :: rest => variationFrom x rest

@[simp] theorem variationFrom_nil (x : K) : variationFrom x [] = 0 := rfl

@[simp] theorem variationFrom_cons (x y : K) (rest : List K) :
    variationFrom x (y :: rest) = |y - x| + variationFrom y rest := rfl

@[simp] theorem variation_cons (x : K) (rest : List K) :
    variation (x :: rest) = variationFrom x rest := rfl

variable [IsStrictOrderedRing K]

theorem variationFrom_nonneg (x : K) (xs : List K) : 0 ≤ variationFrom x xs := by
  induction xs generalizing x with
  | nil => exact le_rfl
  | cons y xs ih => exact add_nonneg (abs_nonneg _) (ih y)

/-- Another first element adds at most its distance from the old one. -/
theorem variationFrom_le (x y : K) (xs : List K) :
    variationFrom x xs ≤ |y - x| + variationFrom y xs := by
  cases xs with
  | nil => exact add_nonneg (abs_nonneg _) le_rfl
  | cons z xs =>
    have htriangle := abs_sub_le z y x
    simp only [variationFrom_cons]
    linarith

theorem variationFrom_le_of_sublist {xs ys : List K} (h : ys.Sublist xs) (x : K) :
    variationFrom x ys ≤ variationFrom x xs := by
  induction h generalizing x with
  | slnil => exact le_rfl
  | cons y _ ih => exact (variationFrom_le x y _).trans (add_le_add_right (ih y) _)
  | cons_cons y _ ih => exact add_le_add_right (ih y) _

/-- Leaving out elements does not raise the variation. -/
theorem variation_le_of_sublist {xs ys : List K} (h : ys.Sublist xs) :
    variation ys ≤ variation xs := by
  cases h with
  | slnil => exact le_rfl
  | @cons ys xs x h =>
    cases ys with
    | nil => exact variationFrom_nonneg x xs
    | cons y ys =>
      have hstart := variationFrom_le_of_sublist h x
      have hmore := abs_nonneg (y - x)
      rw [variationFrom_cons] at hstart
      simp only [variation_cons]
      linarith
  | cons_cons x h => exact variationFrom_le_of_sublist h x

/-- From below the band the next element is above it, from above the next one is below it. -/
def Swings (w : K) : Bool → List K → Prop
  | _, [] => True
  | false, x :: rest => w ≤ x ∧ Swings w true rest
  | true, x :: rest => x ≤ -w ∧ Swings w false rest

theorem Swings.variationFrom_ge {w x : K} {above : Bool} {xs : List K}
    (hx : if above then w ≤ x else x ≤ -w) (h : Swings w above xs) :
    2 * w * xs.length ≤ variationFrom x xs := by
  induction xs generalizing x above with
  | nil => simp
  | cons y xs ih =>
    rw [variationFrom_cons, List.length_cons, Nat.cast_succ]
    cases above with
    | false =>
      obtain ⟨hy,hrest⟩ := h
      have hbelow : x ≤ -w := by simpa using hx
      have hswing := le_abs_self (y - x)
      have hlater : 2 * w * xs.length ≤ variationFrom y xs := ih (by simpa using hy) hrest
      linarith
    | true =>
      obtain ⟨hy,hrest⟩ := h
      have habove : w ≤ x := by simpa using hx
      have hswing := neg_abs_le (y - x)
      have hlater : 2 * w * xs.length ≤ variationFrom y xs := ih (by simpa using hy) hrest
      linarith

/-- Every swing after the first element crosses the whole band. -/
theorem Swings.variation_ge {w : K} (hw : 0 ≤ w) {above : Bool} {xs : List K}
    (h : Swings w above xs) : 2 * w * xs.length ≤ 2 * w + variation xs := by
  cases xs with
  | nil =>
    have hzero : variation ([] : List K) = 0 := rfl
    simp [hzero, hw]
  | cons x xs =>
    rw [variation_cons, List.length_cons, Nat.cast_succ]
    cases above with
    | false =>
      have hrest := h.2.variationFrom_ge (by simpa using h.1)
      linarith
    | true =>
      have hrest := h.2.variationFrom_ge (by simpa using h.1)
      linarith

/-- How far apart two averages are after every value. -/
def spreads (a b average average' : K) : List K → List K
  | [] => []
  | value :: rest =>
    (move a average value - move b average' value) ::
      spreads a b (move a average value) (move b average' value) rest

/-- Moving an average splits the way to the value. -/
theorem abs_move (a : K) (ha : 0 ≤ a) (ha' : a ≤ 1) (average value : K) :
    |move a average value - average| + |value - move a average value| = |value - average| := by
  have hdone : move a average value - average = a * (value - average) := by
    unfold move
    ring
  have hleft : value - move a average value = (1 - a) * (value - average) := by
    unfold move
    ring
  rw [hdone, hleft, abs_mul, abs_mul, abs_of_nonneg ha, abs_of_nonneg (sub_nonneg.mpr ha')]
  ring

/-- Two averages of the same values drift apart and together no more than twice as much as the
values vary, where being away from the last value is paid in advance. -/
theorem variationFrom_spreads {a b : K} (ha : 0 ≤ a) (ha' : a ≤ 1) (hb : 0 ≤ b) (hb' : b ≤ 1)
    (average average' last : K) (rest : List K) :
    variationFrom (average - average') (spreads a b average average' rest) ≤
      |last - average| + |last - average'| + 2 * variationFrom last rest := by
  induction rest generalizing average average' last with
  | nil =>
    have hfirst := abs_nonneg (last - average)
    have hsecond := abs_nonneg (last - average')
    simp only [spreads, variationFrom_nil]
    linarith
  | cons value rest ih =>
    have hrest := ih (move a average value) (move b average' value) value
    have hsplit := abs_move a ha ha' average value
    have hsplit' := abs_move b hb hb' average' value
    have hlast := abs_sub_le value last average
    have hlast' := abs_sub_le value last average'
    have hmoved : |move a average value - move b average' value - (average - average')| ≤
        |move a average value - average| + |move b average' value - average'| := by
      have hregroup : move a average value - move b average' value - (average - average') =
          (move a average value - average) - (move b average' value - average') := by ring
      rw [hregroup]
      exact abs_sub _ _
    simp only [spreads, variationFrom_cons]
    linarith

end HftEngine.Variation
