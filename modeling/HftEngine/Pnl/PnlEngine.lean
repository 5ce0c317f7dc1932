import HftEngine.Core.Events
import HftEngine.Foundation.MapSum
import HftEngine.Foundation.Number
import Mathlib.Tactic.Ring

/-! Profit and loss per strategy (pnl/pnl_engine.cpp). -/
set_option linter.unusedSectionVars false

namespace HftEngine.Pnl
open HftEngine.Core MapSum Number

structure StrategyStats (α : Type := ℚ) where
  realizedPnl : α
  unrealizedPnl : α
  position : α
  avgPrice : α
  trades : ℕ
  deriving DecidableEq, Repr

structure PnlEngine (α : Type := ℚ) where
  strategyStats : Std.TreeMap ℕ (StrategyStats α)
  lastPrice : α
  peakEquity : α
  maxDrawdown : α

section Code
variable {α : Type} [∀ n, OfNat α n]

/-- The default-constructed entry that `operator[]` inserts for a new strategy. -/
def StrategyStats.init (α : Type := ℚ) [∀ n, OfNat α n] : StrategyStats α := ⟨0,0,0,0,0⟩

/-- The flatness threshold 1e-9. -/
def epsilon (α : Type := ℚ) [∀ n, OfNat α n] [Div α] : α := 1/1000000000

namespace StrategyStats

/-- Body of the loop in `update_pnl`. -/
def mark [Sub α] [Mul α] [Div α] [Neg α] [LT α] [DecidableLT α] (stats : StrategyStats α)
    (price : α) : StrategyStats α :=
  if fabs stats.position > epsilon α then
    { stats with unrealizedPnl := stats.position * (price - stats.avgPrice) }
  else { stats with unrealizedPnl := 0 }

/-- Body of `on_fill` once the entry of the strategy is found. -/
def fill [Add α] [Sub α] [Mul α] [Div α] [Neg α] [LT α] [DecidableLT α] [Min α]
    (stats : StrategyStats α) (side : OrderSide) (price quantity : α) : StrategyStats α :=
  let fillQty := quantity * side.sign α
  if (stats.position > 0 ∧ fillQty > 0) ∨ (stats.position < 0 ∧ fillQty < 0) ∨
      fabs stats.position < epsilon α then
    let newPos := stats.position + fillQty
    { stats with
      avgPrice := (stats.avgPrice * fabs stats.position + price * quantity) / fabs newPos
      position := stats.position + fillQty }
  else
    let closingQty := min (fabs stats.position) quantity
    let pnlMultiplier : α := if stats.position > 0 then 1 else -1
    { stats with
      realizedPnl := stats.realizedPnl + closingQty * (price - stats.avgPrice) * pnlMultiplier
      trades := stats.trades + 1
      avgPrice := if quantity > fabs stats.position then price else stats.avgPrice
      position := stats.position + fillQty }

/-- Realised plus unrealised profit, the term both totals add up. -/
def equity [Add α] (stats : StrategyStats α) : α := stats.realizedPnl + stats.unrealizedPnl

end StrategyStats

namespace PnlEngine

def init (α : Type := ℚ) [∀ n, OfNat α n] : PnlEngine α := ⟨{},0,0,0⟩

def updatePnl [Add α] [Sub α] [Mul α] [Div α] [Neg α] [LT α] [DecidableLT α] [Max α]
    (engine : PnlEngine α) (price : α) : PnlEngine α :=
  let marked := engine.strategyStats.map (fun _ stats => stats.mark price)
  let totalEquity := sumBy StrategyStats.equity marked
  let peakEquity := max engine.peakEquity totalEquity
  { strategyStats := marked
    lastPrice := price
    peakEquity := peakEquity
    maxDrawdown := max engine.maxDrawdown (peakEquity - totalEquity) }

/-- The entry of a strategy, with the default one where the map has none. -/
def stats (engine : PnlEngine α) (strategyId : ℕ) : StrategyStats α :=
  engine.strategyStats.getD strategyId (StrategyStats.init α)

def onFill [Add α] [Sub α] [Mul α] [Div α] [Neg α] [LT α] [DecidableLT α] [Min α]
    (engine : PnlEngine α) (strategyId : ℕ) (side : OrderSide) (price quantity : α) :
    PnlEngine α :=
  let filled := (engine.stats strategyId).fill side price quantity
  { engine with strategyStats := engine.strategyStats.insert strategyId filled }

def getTotalPnl [Add α] (engine : PnlEngine α) : α :=
  sumBy StrategyStats.equity engine.strategyStats

def getTotalPosition [Add α] (engine : PnlEngine α) : α :=
  sumBy StrategyStats.position engine.strategyStats

def getMaxDrawdown (engine : PnlEngine α) : α := engine.maxDrawdown

def getTotalTrades (engine : PnlEngine α) : ℕ :=
  (engine.strategyStats.toList.map (fun entry => entry.2.trades)).sum

def getWinRate (engine : PnlEngine) : ℚ :=
  let wins := (engine.strategyStats.toList.filter (fun entry => entry.2.realizedPnl > 0)).length
  if engine.getTotalTrades > 0 then (wins : ℚ) / 2 else 0

end PnlEngine
end Code

@[simp] theorem StrategyStats.init_position : StrategyStats.init.position = 0 := rfl

section Generic
variable {α : Type} [Add α] [Sub α] [Mul α] [Div α] [Neg α] [LT α] [DecidableLT α] [∀ n, OfNat α n]

namespace StrategyStats
variable (stats : StrategyStats α) (side : OrderSide) (price quantity : α)

@[simp] theorem mark_position : (stats.mark price).position = stats.position := by
  unfold mark; split <;> rfl

@[simp] theorem mark_avgPrice : (stats.mark price).avgPrice = stats.avgPrice := by
  unfold mark; split <;> rfl

@[simp] theorem mark_realizedPnl : (stats.mark price).realizedPnl = stats.realizedPnl := by
  unfold mark; split <;> rfl

variable [Min α]

/-- Whatever branch a fill takes, the position moves by the signed quantity. -/
@[simp] theorem fill_position : (stats.fill side price quantity).position =
    stats.position + quantity * side.sign α := by
  unfold fill
  simp only
  split <;> rfl

end StrategyStats

namespace PnlEngine
variable [Min α] [Max α] (engine : PnlEngine α) (strategyId : ℕ) (side : OrderSide)
  (price quantity : α)

@[simp] theorem stats_init : (init α).stats strategyId = StrategyStats.init α := rfl

theorem stats_onFill (id : ℕ) : (engine.onFill strategyId side price quantity).stats id =
    if id = strategyId then (engine.stats strategyId).fill side price quantity
    else engine.stats id := by
  simp only [stats, onFill, Std.TreeMap.getD_insert, Std.LawfulEqOrd.compare_eq_iff_eq]
  by_cases h : strategyId = id
  · rw [if_pos h, if_pos h.symm]
  · rw [if_neg h, if_neg (Ne.symm h)]

/-- An entry of the map is what reading its key returns. -/
theorem stats_of_mem {engine : PnlEngine α} {entry : ℕ × StrategyStats α}
    (h : entry ∈ engine.strategyStats.toList) : engine.stats entry.1 = entry.2 := by
  have hget : engine.strategyStats[entry.1]? = some entry.2 :=
    Std.TreeMap.mem_toList_iff_getElem?_eq_some.mp h
  rw [stats, Std.TreeMap.getD_eq_getD_getElem?, hget, Option.getD_some]

/-- A price update moves no position. -/
theorem position_updatePnl (id : ℕ) :
    ((engine.updatePnl price).stats id).position = (engine.stats id).position := by
  unfold stats updatePnl
  rw [Std.TreeMap.getD_map, Std.TreeMap.getD_eq_getD_getElem?]
  cases engine.strategyStats[id]? with
  | none => rfl
  | some stats => exact stats.mark_position price

end PnlEngine
end Generic

namespace StrategyStats
variable (stats : StrategyStats) (price : ℚ)

@[simp] theorem mark_init : StrategyStats.init.mark price = StrategyStats.init := by
  unfold mark
  split <;> simp [StrategyStats.init]

theorem mark_unrealizedPnl : (stats.mark price).unrealizedPnl =
    if |stats.position| > epsilon then stats.position * (price - stats.avgPrice) else 0 := by
  unfold mark
  rw [fabs_eq_abs]
  split <;> rfl

end StrategyStats

namespace PnlEngine
variable (engine : PnlEngine) (strategyId : ℕ) (side : OrderSide) (price quantity : ℚ)

@[simp] theorem stats_updatePnl (id : ℕ) :
    (engine.updatePnl price).stats id = (engine.stats id).mark price := by
  unfold stats updatePnl
  rw [Std.TreeMap.getD_map, Std.TreeMap.getD_eq_getD_getElem?]
  cases engine.strategyStats[id]? with
  | none => simp
  | some stats => rfl

@[simp] theorem getTotalPosition_init : init.getTotalPosition = 0 := sumBy_empty _

@[simp] theorem getTotalPosition_updatePnl :
    (engine.updatePnl price).getTotalPosition = engine.getTotalPosition := by
  unfold getTotalPosition updatePnl
  rw [sumBy_map]
  simp

theorem getTotalPosition_onFill :
    (engine.onFill strategyId side price quantity).getTotalPosition =
      engine.getTotalPosition + quantity * side.sign := by
  unfold getTotalPosition onFill
  rw [sumBy_insert _ _ _ _ StrategyStats.init_position, StrategyStats.fill_position]
  unfold stats
  ring

end PnlEngine
end HftEngine.Pnl
