import HftEngine.Pnl.PnlEngine
import Mathlib.Data.List.Induction

/-! Sequences of calls on the PnL engine, for any type of numbers. The position of a strategy is
the sum of the signed quantities of its fills, added up in their order. -/
set_option linter.unusedSectionVars false

namespace HftEngine.Pnl
open HftEngine.Core

/-- One call made on the engine. -/
inductive PnlCall (α : Type := ℚ)
  | onFill (strategyId : ℕ) (side : OrderSide) (price quantity : α)
  | updatePnl (price : α)
  deriving DecidableEq, Repr

variable {α : Type} [Add α] [Sub α] [Mul α] [Div α] [Neg α] [LT α] [DecidableLT α] [Min α] [Max α]
  [∀ n, OfNat α n]

/-- The test of the averaging branch. -/
def StrategyStats.Averages (stats : StrategyStats α) (fillQty : α) : Prop :=
  (stats.position > 0 ∧ fillQty > 0) ∨ (stats.position < 0 ∧ fillQty < 0) ∨
    Number.fabs stats.position < epsilon α

/-- The signed quantity of a fill of the strategy. -/
def PnlCall.signedQty (id : ℕ) : PnlCall α → Option α
  | .onFill strategyId side _ quantity =>
    if strategyId = id then some (quantity * side.sign α) else none
  | .updatePnl _ => none

/-- The net quantity of a strategy's fills, added up one after the other. -/
def netOf (id : ℕ) (calls : List (PnlCall α)) : α :=
  (calls.filterMap (PnlCall.signedQty id)).foldl (· + ·) 0

namespace PnlEngine

def apply (engine : PnlEngine α) : PnlCall α → PnlEngine α
  | .onFill strategyId side price quantity => engine.onFill strategyId side price quantity
  | .updatePnl price => engine.updatePnl price

/-- The engine after a sequence of calls from its initial state. -/
def after (calls : List (PnlCall α)) : PnlEngine α := calls.foldl apply (init α)

@[simp] theorem after_nil : after ([] : List (PnlCall α)) = init α := rfl

@[simp] theorem after_snoc (calls : List (PnlCall α)) (call : PnlCall α) :
    after (calls ++ [call]) = (after calls).apply call := by
  simp [after]

theorem position_eq_netOf (calls : List (PnlCall α)) (id : ℕ) :
    ((after calls).stats id).position = netOf id calls := by
  induction calls using List.reverseRecOn with
  | nil => rfl
  | append_singleton calls call ih =>
    unfold netOf at ih ⊢
    rw [after_snoc, List.filterMap_append, List.foldl_append, ← ih]
    cases call with
    | updatePnl price => exact position_updatePnl _ price id
    | onFill strategyId side price quantity =>
      rw [apply, stats_onFill]
      by_cases hid : strategyId = id
      · simp [PnlCall.signedQty, hid]
      · simp [PnlCall.signedQty, hid, Ne.symm hid]

end PnlEngine
end HftEngine.Pnl
