import HftEngine.Foundation.Double
import HftEngine.Foundation.Drawdown
import HftEngine.Foundation.Machine
import HftEngine.Pnl.Calls

/-! Peak and drawdown of the engine over all equities that its price updates have computed,
counting the equity zero before the first of them. In double precision this is so as long as no
equity is an infinity or NaN. -/
set_option linter.unusedSectionVars false

namespace HftEngine.Pnl.PnlEngine
open HftEngine.Core

section Generic
variable {α : Type} [Add α] [Sub α] [Mul α] [Div α] [Neg α] [LT α] [DecidableLT α] [Min α] [Max α]
  [∀ n, OfNat α n]

/-- The local `total_equity` of a price update. -/
def totalEquity (engine : PnlEngine α) (price : α) : α := (engine.updatePnl price).getTotalPnl

def machine : Machine (PnlEngine α) (PnlCall α) α where
  step engine call :=
    (engine.apply call,
      match call with
      | .updatePnl price => [engine.totalEquity price]
      | .onFill _ _ _ _ => [])

/-- The equity at the start, then the one each price update has computed. -/
def equities (calls : List (PnlCall α)) : List α := 0 :: (machine.run (init α) calls).2

theorem machine_run (calls : List (PnlCall α)) :
    (machine.run (init α) calls).1 = after calls := by
  induction calls using List.reverseRecOn with
  | nil => rfl
  | append_singleton calls call ih =>
    rw [machine.run_append, after_snoc, ← ih]
    rfl

theorem equities_updatePnl (calls : List (PnlCall α)) (price : α) :
    equities (calls ++ [.updatePnl price]) =
      equities calls ++ [(after calls).totalEquity price] := by
  rw [equities, machine.run_append, machine_run]
  rfl

theorem equities_onFill (calls : List (PnlCall α)) (strategyId : ℕ) (side : OrderSide)
    (price quantity : α) :
    equities (calls ++ [.onFill strategyId side price quantity]) = equities calls := by
  rw [equities, machine.run_append]
  exact congrArg (0 :: ·) (List.append_nil _)

/-- The two fields track the equities, as long as these are numbers. -/
theorem tracks_of_comparable [LE α] {number : α → Prop} (hK : Drawdown.Comparable number)
    (hzero : (0 : α) - 0 = 0) (calls : List (PnlCall α))
    (h : ∀ e ∈ equities calls, number e) :
    Drawdown.Tracks (equities calls) (after calls).peakEquity (after calls).maxDrawdown := by
  induction calls using List.reverseRecOn with
  | nil =>
    have hle := hK.le_refl (h 0 (List.mem_singleton_self 0))
    exact Drawdown.tracks_singleton hle hle hzero
  | append_singleton calls call ih =>
    cases call with
    | onFill strategyId side price quantity =>
      rw [equities_onFill] at h ⊢
      rw [after_snoc]
      exact ih h
    | updatePnl price =>
      rw [equities_updatePnl] at h ⊢
      rw [after_snoc]
      exact (ih fun e he => h e (List.mem_append_left _ he)).concat hK h

end Generic

theorem tracks_after (calls : List PnlCall) :
    Drawdown.Tracks (equities calls) (after calls).peakEquity (after calls).maxDrawdown :=
  tracks_of_comparable (Drawdown.comparable_of_group ℚ) (sub_self 0) calls fun _ _ => trivial

/-- Finite doubles are compared as numbers, and a rounded difference is monotone. -/
theorem comparable_finite : Drawdown.Comparable (fun x : Double => x.isFinite = true) where
  le_refl := by
    intro x hx
    apply Double.le_rfl_of_isNan
    cases x <;> simp_all [Double.isFinite, Double.isNan]
  isGreatest_max := Double.isGreatest_max
  sub_le_sub := by
    intro x y z hx hy hz hxy
    exact Double.sub_le_sub hx hy hz hxy

/-- After any calls whose equities are finite the peak is the largest equity so far, and the
maximum drawdown the largest fall from an equity to the same or a later one. -/
theorem drawdown_exact (calls : List (PnlCall Double))
    (h : ∀ e ∈ equities calls, e.isFinite = true) :
    IsGreatest {e | e ∈ equities calls} (after calls).peakEquity ∧
    IsGreatest {d | ∃ (i j : ℕ) (e f : Double), i ≤ j ∧ (equities calls)[i]? = some e ∧
      (equities calls)[j]? = some f ∧ d = e - f} (after calls).maxDrawdown := by
  have hzero : (0 : Double) - 0 = 0 := by decide +kernel
  have htracks := tracks_of_comparable comparable_finite hzero calls h
  exact ⟨htracks.peak,htracks.drawdown⟩

/-- A long of one marked at a profit, at a loss and in between. -/
def fallAndRise : List (PnlCall Double) :=
  [.onFill 1 .buy 100 1,.updatePnl 110,.updatePnl 95,.updatePnl 105]

theorem drawdown_exact_fallAndRise :
    IsGreatest {e | e ∈ equities fallAndRise} 10 ∧
    IsGreatest {d | ∃ (i j : ℕ) (e f : Double), i ≤ j ∧ (equities fallAndRise)[i]? = some e ∧
      (equities fallAndRise)[j]? = some f ∧ d = e - f} 15 := by
  have hpeak : (after fallAndRise).peakEquity = 10 := by decide +kernel
  have hdrawdown : (after fallAndRise).maxDrawdown = 15 := by decide +kernel
  rw [← hpeak, ← hdrawdown]
  exact drawdown_exact fallAndRise (by decide +kernel)

/-- A fill that closes 1e-10 stores an average price divided by zero; the next one makes it NaN,
and so is the equity at any price. -/
def undefinedEquity : List (PnlCall Double) :=
  [.onFill 1 .buy 100 (1/10000000000),.onFill 1 .sell 100 (1/10000000000),.onFill 1 .buy 100 1,
    .updatePnl 50]

theorem drawdown_undefined :
    ¬IsGreatest {e | e ∈ equities undefinedEquity} (after undefinedEquity).peakEquity ∧
      (after undefinedEquity).maxDrawdown = 0 := by
  refine ⟨?_,by decide +kernel⟩
  intro hpeak
  have hequities : equities undefinedEquity = [0,.nan] := by decide +kernel
  have hnan : Double.nan ∈ equities undefinedEquity := by simp [hequities]
  have hnumber := (Double.isNan_of_le (hpeak.2 hnan)).1
  contradiction

end HftEngine.Pnl.PnlEngine
