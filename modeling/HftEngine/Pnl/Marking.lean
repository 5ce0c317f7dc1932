import HftEngine.Pnl.PnlEngine
import Mathlib.Tactic.Linarith

/-! Marking at a price. The engine is always marked at its last price, with peak and drawdown
up to date; marking it again at that price, or with no position open, changes nothing whatever
the numbers are. In exact arithmetic marking again moves the total by the open position times the
price change. -/
set_option linter.unusedSectionVars false

namespace HftEngine.Pnl
open HftEngine.Core MapSum Number

section Generic
variable {α : Type} [Add α] [Sub α] [Mul α] [Div α] [Neg α] [LT α] [DecidableLT α] [Min α] [Max α]
  [∀ n, OfNat α n]

/-- The engine is as it was constructed, or as a price update has left it. -/
inductive PnlEngine.Repriced : PnlEngine α → Prop
  | init : Repriced (init α)
  | updated (engine : PnlEngine α) (price : α) : Repriced (engine.updatePnl price)

/-- Marking at this price revalues nothing: it is the price of the last marking, or no strategy
has a position above the flatness threshold. -/
def PnlEngine.Revalues (engine : PnlEngine α) (price : α) : Prop :=
  price ≠ engine.lastPrice ∧ ∃ id, fabs (engine.stats id).position > epsilon α

theorem StrategyStats.mark_of_flat {stats : StrategyStats α}
    (h : ¬fabs stats.position > epsilon α) (P Q : α) : stats.mark P = stats.mark Q := by
  unfold mark
  rw [if_neg h, if_neg h]

@[simp] theorem StrategyStats.mark_mark (stats : StrategyStats α) (P Q : α) :
    (stats.mark P).mark Q = stats.mark Q := by
  unfold mark
  split_ifs <;> rfl

/-- What the three numbers of the summary are after two price updates that value every entry the
same way. -/
theorem PnlEngine.updatePnl_updatePnl (hmax : ∀ x y : α, max (max x y) y = max x y)
    (engine : PnlEngine α) {P Q : α}
    (h : ∀ entry ∈ engine.strategyStats.toList, entry.2.mark P = entry.2.mark Q) :
    ((engine.updatePnl Q).updatePnl P).getTotalPnl = (engine.updatePnl Q).getTotalPnl ∧
      ((engine.updatePnl Q).updatePnl P).peakEquity = (engine.updatePnl Q).peakEquity ∧
      ((engine.updatePnl Q).updatePnl P).maxDrawdown = (engine.updatePnl Q).maxDrawdown := by
  have htotal : ((engine.updatePnl Q).updatePnl P).getTotalPnl =
      (engine.updatePnl Q).getTotalPnl := by
    unfold getTotalPnl updatePnl
    simp only [sumBy_map, StrategyStats.mark_mark]
    exact sumBy_congr fun entry hentry => congrArg StrategyStats.equity (h entry hentry)
  have hpeak : ((engine.updatePnl Q).updatePnl P).peakEquity = (engine.updatePnl Q).peakEquity := by
    change max (max engine.peakEquity (engine.updatePnl Q).getTotalPnl)
      ((engine.updatePnl Q).updatePnl P).getTotalPnl = _
    rw [htotal]
    exact hmax _ _
  refine ⟨htotal,hpeak,?_⟩
  change max (engine.updatePnl Q).maxDrawdown (((engine.updatePnl Q).updatePnl P).peakEquity -
    ((engine.updatePnl Q).updatePnl P).getTotalPnl) = _
  rw [hpeak, htotal]
  exact hmax _ _

/-- Marking an engine that is marked already changes nothing unless it revalues a position. -/
theorem PnlEngine.updatePnl_unchanged (hmax : ∀ x y : α, max (max x y) y = max x y)
    (hzero : max (0 : α) 0 = 0 ∧ (0 : α) - 0 = 0) {engine : PnlEngine α} (h : engine.Repriced)
    {price : α} (hprice : ¬engine.Revalues price) :
    (engine.updatePnl price).getTotalPnl = engine.getTotalPnl ∧
      (engine.updatePnl price).peakEquity = engine.peakEquity ∧
      (engine.updatePnl price).maxDrawdown = engine.maxDrawdown := by
  cases h with
  | init =>
    refine ⟨rfl,hzero.1,?_⟩
    change max (0 : α) (max (0 : α) 0 - 0) = 0
    rw [hzero.1, hzero.2, hzero.1]
  | updated engine last =>
    apply engine.updatePnl_updatePnl hmax
    rintro ⟨id,stats⟩ hentry
    by_cases hsame : price = last
    · rw [hsame]
    · apply StrategyStats.mark_of_flat
      intro hopen
      apply hprice
      refine ⟨hsame,id,?_⟩
      rw [position_updatePnl, stats_of_mem hentry]
      exact hopen

/-- What of an entry depends on its fills alone. -/
def StrategyStats.settled (stats : StrategyStats α) : StrategyStats α :=
  { stats with unrealizedPnl := 0 }

@[simp] theorem StrategyStats.settled_mark (stats : StrategyStats α) (price : α) :
    (stats.mark price).settled = stats.settled := by
  unfold mark
  split <;> rfl

/-- A price update settles nothing. -/
theorem PnlEngine.settled_updatePnl (engine : PnlEngine α) (price : α) (id : ℕ) :
    ((engine.updatePnl price).stats id).settled = (engine.stats id).settled := by
  unfold stats updatePnl
  rw [Std.TreeMap.getD_map, Std.TreeMap.getD_eq_getD_getElem?]
  cases engine.strategyStats[id]? with
  | none => rfl
  | some stats => exact stats.settled_mark price

/-- A fill does not look at the unrealised profit. -/
theorem StrategyStats.settled_fill (stats : StrategyStats α) (side : OrderSide)
    (price quantity : α) :
    (stats.fill side price quantity).settled = stats.settled.fill side price quantity := by
  unfold fill settled
  simp only
  split <;> rfl

end Generic

/-- The position that is marked: none below the flatness threshold. -/
def StrategyStats.openQty (stats : StrategyStats) : ℚ :=
  if |stats.position| > epsilon then stats.position else 0

theorem StrategyStats.equity_mark_sub (stats : StrategyStats) (P Q : ℚ) :
    (stats.mark P).equity = (stats.mark Q).equity + stats.openQty * (P - Q) := by
  unfold equity openQty
  simp only [mark_realizedPnl, mark_unrealizedPnl]
  split
  · ring
  · ring

namespace PnlEngine

/-- Sum of the positions that a price change revalues. -/
def openPosition (engine : PnlEngine) : ℚ := sumBy StrategyStats.openQty engine.strategyStats

/-- All positions are valued at the last price, and peak and drawdown include that value. -/
structure Marked (engine : PnlEngine) : Prop where
  valued : ∀ price, (engine.updatePnl price).getTotalPnl =
    engine.getTotalPnl + engine.openPosition * (price - engine.lastPrice)
  peak : engine.getTotalPnl ≤ engine.peakEquity
  drawdown : engine.peakEquity - engine.getTotalPnl ≤ engine.maxDrawdown

theorem getTotalPnl_updatePnl_eq (engine : PnlEngine) (price : ℚ) :
    (engine.updatePnl price).getTotalPnl =
      sumBy (fun stats : StrategyStats => (stats.mark price).equity) engine.strategyStats := by
  unfold getTotalPnl updatePnl
  rw [sumBy_map]

theorem marked_init : Marked init := by
  refine ⟨?_,?_,?_⟩
  · intro price
    rw [getTotalPnl_updatePnl_eq]
    simp [init, openPosition, getTotalPnl]
  · simp [init, getTotalPnl]
  · simp [init, getTotalPnl]

/-- Every price update leaves the engine marked. -/
theorem marked_updatePnl (engine : PnlEngine) (Q : ℚ) : Marked (engine.updatePnl Q) := by
  refine ⟨?_,?_,?_⟩
  · intro price
    have hopen : ∀ stats : StrategyStats, (stats.mark Q).openQty = stats.openQty := by
      intro stats
      simp [StrategyStats.openQty]
    have hlast : (engine.updatePnl Q).lastPrice = Q := rfl
    rw [getTotalPnl_updatePnl_eq, getTotalPnl_updatePnl_eq, hlast, openPosition, updatePnl,
      sumBy_map, sumBy_map]
    simp only [StrategyStats.mark_mark, hopen]
    rw [← sumBy_mul_right, ← sumBy_add]
    apply sumBy_congr
    intro entry _
    exact StrategyStats.equity_mark_sub entry.2 price Q
  · exact le_max_right _ _
  · exact le_max_right _ _

/-- Marking again changes nothing exactly when the price is the same or nothing is open. -/
theorem Marked.updatePnl_unchanged_iff {engine : PnlEngine} (h : engine.Marked) (price : ℚ) :
    ((engine.updatePnl price).getTotalPnl = engine.getTotalPnl ∧
      (engine.updatePnl price).peakEquity = engine.peakEquity ∧
      (engine.updatePnl price).maxDrawdown = engine.maxDrawdown) ↔
    price = engine.lastPrice ∨ engine.openPosition = 0 := by
  have hvalued := h.valued price
  have hpeak : (engine.updatePnl price).peakEquity =
      max engine.peakEquity (engine.updatePnl price).getTotalPnl := rfl
  have hdrawdown : (engine.updatePnl price).maxDrawdown = max engine.maxDrawdown
      ((engine.updatePnl price).peakEquity - (engine.updatePnl price).getTotalPnl) := rfl
  constructor
  · rintro ⟨htotal,-,-⟩
    have hzero : engine.openPosition * (price - engine.lastPrice) = 0 := by linarith
    rcases mul_eq_zero.mp hzero with hopen | hprice
    · exact .inr hopen
    · exact .inl (sub_eq_zero.mp hprice)
  · intro hcase
    have htotal : (engine.updatePnl price).getTotalPnl = engine.getTotalPnl := by
      rcases hcase with rfl | hopen
      · rw [hvalued, sub_self, mul_zero, add_zero]
      · rw [hvalued, hopen, zero_mul, add_zero]
    have hpeak' : (engine.updatePnl price).peakEquity = engine.peakEquity := by
      rw [hpeak, htotal, max_eq_left h.peak]
    refine ⟨htotal,hpeak',?_⟩
    rw [hdrawdown, hpeak', htotal, max_eq_left h.drawdown]

end PnlEngine
end HftEngine.Pnl
