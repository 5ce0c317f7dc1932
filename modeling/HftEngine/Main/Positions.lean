import HftEngine.Exchange.Matching
import HftEngine.Foundation.PartialSums
import HftEngine.Main.History

/-! Positions in the event loop. Risk engine and PnL engine both move by the signed quantity
of each handled Filled report, and the handlers report the fills of the orders that the exchange
removes from its resting list or matches on arrival. -/
set_option linter.unusedSectionVars false

namespace HftEngine.Main
open HftEngine.Core Strategy Pnl Exchange Fifo PartialSums

section Generic
variable {α : Type}

/-- The report of an event that reports a fill. -/
def filledReport : Event α → Option (ExecutionReport α)
  | .executionReport report => if report.status = .filled then some report else none
  | _ => none

def filledReports (events : List (Event α)) : List (ExecutionReport α) :=
  events.filterMap filledReport

@[simp] theorem filledReports_nil : filledReports ([] : List (Event α)) = [] := rfl

@[simp] theorem filledReports_append (xs ys : List (Event α)) :
    filledReports (xs ++ ys) = filledReports xs ++ filledReports ys := by
  simp [filledReports]

theorem filledReport_input {event : Event α} (h : IsInput event) : filledReport event = none := by
  cases event <;> first | rfl | exact h.elim

theorem filledReports_input {event : Event α} (h : IsInput event) : filledReports [event] = [] := by
  simp [filledReports, filledReport_input h]

theorem filledReports_signals (signals : List (StrategyEvent α)) :
    filledReports (signals.map StrategyEvent.toEvent) = [] :=
  filterMap_signals filledReport (fun _ => filledReport_input) signals

/-- What a reader takes from Filled reports without looking at trade ids it also takes from the
blanked ones. -/
theorem map_filledReports_blank {β : Type*} {g : ExecutionReport α → β}
    (hg : ∀ report, g (blankTradeId report) = g report) (reports : List (ExecutionReport α)) :
    (filledReports (reports.map .executionReport)).map g =
      (filledReports ((reports.map blankTradeId).map .executionReport)).map g := by
  unfold filledReports
  rw [List.map_filterMap, List.map_filterMap]
  apply filterMap_reports
  intro report
  by_cases h : report.status = .filled
  · simp [filledReport, blankTradeId, h, ← hg report]
  · simp [filledReport, blankTradeId, h]

/-- Reports of fills are Filled reports. -/
theorem filledReports_fills [∀ n, OfNat α n] (e : MatchingEngine α)
    (orders : List (OrderRequest α)) :
    filledReports ((orders.map e.fillOf).map .executionReport) = orders.map e.fillOf := by
  simp only [filledReports, List.filterMap_map]
  rw [← List.filterMap_eq_map]
  rfl

/-- Fills reported by events, restricted to one strategy. -/
def filledFor (id : ℕ) (events : List (Event α)) : List (ExecutionReport α) :=
  (filledReports events).filter (fun report => report.strategyId == id)

/-- The signed quantities of the fills that events report. -/
def filledQtys [Neg α] [Mul α] [∀ n, OfNat α n] (events : List (Event α)) : List α :=
  (filledReports events).map ExecutionReport.signedQty

@[simp] theorem filledQtys_append [Neg α] [Mul α] [∀ n, OfNat α n] (xs ys : List (Event α)) :
    filledQtys (xs ++ ys) = filledQtys xs ++ filledQtys ys := by
  simp [filledQtys]

variable [Add α] [Sub α] [Mul α] [Div α] [Neg α] [LT α] [DecidableLT α] [LE α] [DecidableLE α]
  [Min α] [Max α] [∀ n, OfNat α n]

namespace Components
variable {σ : Type} (S : StrategyApi σ α) (clock : Clock) (c : Components σ α)

theorem onExecutionReport_risk (report : ExecutionReport α) :
    (c.onExecutionReport S clock report).1.risk =
      if report.status = .filled then c.risk.updatePosition report.signedQty else c.risk := by
  by_cases h : report.status = .filled <;>
    simp [onExecutionReport, h, recordFill, recordHistory, ExecutionReport.signedQty]

theorem onExecutionReport_pnlEngine (report : ExecutionReport α) :
    (c.onExecutionReport S clock report).1.pnlEngine =
      (if report.status = .filled then c.pnlEngine.onFill report.strategyId report.side
        report.lastPrice report.lastQty else c.pnlEngine).updatePnl report.lastPrice := by
  by_cases h : report.status = .filled <;>
    simp [onExecutionReport, h, recordFill, recordHistory]

/-- A tick reports the fills of the orders that it sweeps. -/
theorem onMarketData_filledQtys [DecidableEq α] (md : MarketDataEvent α) :
    filledQtys (c.onMarketData S clock md).2 =
      (c.matchingEngine.sweptOrders md).map OrderRequest.signedQty := by
  simp only [onMarketData, filledQtys, filledReports_append, filledReports_signals,
    List.nil_append]
  rw [map_filledReports_blank (fun _ => rfl), MatchingEngine.updateMarketPrice_reports,
    filledReports_fills, MatchingEngine.sweptOrders_eq, List.map_map]
  rfl

/-- An arriving order reports a fill exactly when it is matched. -/
theorem onValidatedOrder_filledQtys (order : OrderRequest α) :
    filledQtys (c.onValidatedOrder order).2 =
      (c.matchingEngine.matchedOrders order).map OrderRequest.signedQty := by
  simp only [onValidatedOrder, filledQtys]
  rw [map_filledReports_blank (fun _ => rfl)]
  cases c.matchingEngine.processOrder_arrival order with
  | filled price hprice hresting hreports =>
    rw [c.matchingEngine.matchedOrders_eq hreports, hreports]
    rfl
  | rested hresting hreports =>
    rw [c.matchingEngine.matchedOrders_eq hreports, hreports]
    rfl
  | rejected hresting hreports =>
    rw [c.matchingEngine.matchedOrders_eq hreports, hreports]
    rfl

/-- The other handlers report no fill. -/
theorem dispatch_no_fills {event : Event α} (hmd : ∀ md, event ≠ .marketData md)
    (hvo : ∀ order, event ≠ .validatedOrder order) :
    filledReports (c.dispatch S clock event).2 = [] := by
  cases event with
  | marketData md => exact absurd rfl (hmd md)
  | validatedOrder order => exact absurd rfl (hvo order)
  | orderRequest request =>
    simp only [dispatch, onOrderRequest, Oms.OrderManager.handleOrderRequest]
    split <;> rfl
  | cancelOrder orderId => rfl
  | executionReport report => exact filledReports_signals _

/-- The position moves by the quantities of the Filled reports, one after another. -/
theorem dispatch_booked (event : Event α) :
    (c.dispatch S clock event).1.risk.currentPosition =
      (filledQtys [event]).foldl (· + ·) c.risk.currentPosition := by
  cases event with
  | executionReport report =>
    simp only [dispatch, onExecutionReport_risk]
    by_cases h : report.status = .filled <;>
      simp [h, filledQtys, filledReports, filledReport, Risk.RiskEngine.updatePosition]
  | _ => rfl

/-- And so does the position of each strategy, by its own fills. -/
theorem dispatch_bookedFor (event : Event α) (id : ℕ) :
    ((c.dispatch S clock event).1.pnlEngine.stats id).position =
      ((filledFor id [event]).map ExecutionReport.signedQty).foldl (· + ·)
        (c.pnlEngine.stats id).position := by
  cases event with
  | executionReport report =>
    simp only [dispatch, onExecutionReport_pnlEngine, PnlEngine.position_updatePnl]
    by_cases h : report.status = .filled
    · rw [if_pos h, PnlEngine.stats_onFill]
      by_cases hid : id = report.strategyId
      · simp [hid, h, filledFor, filledReports, filledReport, ExecutionReport.signedQty]
      · simp [hid, Ne.symm hid, h, filledFor, filledReports, filledReport]
    · simp [h, filledFor, filledReports, filledReport]
  | _ => rfl

@[simp] theorem dispatch_maxPosition (event : Event α) :
    (c.dispatch S clock event).1.risk.maxPosition = c.risk.maxPosition := by
  cases event with
  | executionReport report =>
    rw [dispatch, onExecutionReport_risk]
    split <;> rfl
  | _ => rfl

end Components
end Generic

def netPosition (reports : List ExecutionReport) : ℚ :=
  (reports.map ExecutionReport.signedQty).sum

@[simp] theorem netPosition_nil : netPosition [] = 0 := rfl

@[simp] theorem netPosition_append (xs ys : List ExecutionReport) :
    netPosition (xs ++ ys) = netPosition xs + netPosition ys := by simp [netPosition]

namespace Components
variable {σ : Type} (S : StrategyApi σ) (clock : Clock) (c : Components σ)

/-- The position that the risk engine keeps moves by the fill of the handled event. -/
theorem dispatch_currentPosition (event : Event) :
    (c.dispatch S clock event).1.risk.currentPosition =
      c.risk.currentPosition + netPosition (filledReports [event]) := by
  rw [dispatch_booked, foldl_add, filledQtys, netPosition]

/-- And so does the sum of the positions that the PnL engine keeps. -/
theorem dispatch_getTotalPosition (event : Event) :
    (c.dispatch S clock event).1.pnlEngine.getTotalPosition =
      c.pnlEngine.getTotalPosition + netPosition (filledReports [event]) := by
  cases event with
  | executionReport report =>
    simp only [dispatch, onExecutionReport_pnlEngine, PnlEngine.getTotalPosition_updatePnl]
    by_cases h : report.status = .filled
    · simp [h, PnlEngine.getTotalPosition_onFill, filledReports, filledReport, netPosition,
        ExecutionReport.signedQty]
    · simp [h, filledReports, filledReport]
  | _ => exact (add_zero _).symm

/-- The fill goes to the position of the strategy that the report names. -/
theorem dispatch_position (event : Event) (id : ℕ) :
    ((c.dispatch S clock event).1.pnlEngine.stats id).position =
      (c.pnlEngine.stats id).position + netPosition (filledFor id [event]) := by
  rw [dispatch_bookedFor, foldl_add, netPosition]

end Components

namespace EventLoop
variable {σ : Type} (S : StrategyApi σ)

/-- The risk engine keeps the net position of the handled fills. -/
theorem risk_position (strategy : σ) (maxPosition : ℚ) (labels : List Label) :
    (run S (init strategy maxPosition) labels).1.components.risk.currentPosition =
      netPosition (filledReports (popped (run S (init strategy maxPosition) labels).2)) := by
  apply read_eq_popped (r := fun c => c.risk.currentPosition)
    (w := fun events => netPosition (filledReports events))
  · intro xs ys
    rw [filledReports_append, netPosition_append]
  · intro c event clock
    exact Components.dispatch_currentPosition S clock c event
  · rfl

/-- In every reachable state, whatever the answers of the queue, the risk engine, the PnL
engine and the Filled reports handled so far agree on the position, in total and for each
strategy. -/
theorem positions_agree (strategy : σ) (maxPosition : ℚ) (labels : List Label) :
    let final := run S (init strategy maxPosition) labels
    final.1.components.risk.currentPosition = final.1.components.pnlEngine.getTotalPosition ∧
    final.1.components.pnlEngine.getTotalPosition =
      netPosition (filledReports (popped final.2)) ∧
    ∀ id, (final.1.components.pnlEngine.stats id).position = netPosition
      ((filledReports (popped final.2)).filter (fun report => report.strategyId == id)) := by
  intro final
  have hrisk : final.1.components.risk.currentPosition =
      netPosition (filledReports (popped final.2)) := risk_position S strategy maxPosition labels
  have htotal : final.1.components.pnlEngine.getTotalPosition =
      netPosition (filledReports (popped final.2)) := by
    apply read_eq_popped (r := fun c => c.pnlEngine.getTotalPosition)
      (w := fun events => netPosition (filledReports events))
    · intro xs ys
      rw [filledReports_append, netPosition_append]
    · intro c event clock
      exact Components.dispatch_getTotalPosition S clock c event
    · exact PnlEngine.getTotalPosition_init
  refine ⟨hrisk.trans htotal.symm,htotal,?_⟩
  intro id
  apply read_eq_popped (r := fun c => (c.pnlEngine.stats id).position)
    (w := fun events => netPosition (filledFor id events))
  · intro xs ys
    rw [filledFor, filledFor, filledFor, filledReports_append, List.filter_append,
      netPosition_append]
  · intro c event clock
    exact Components.dispatch_position S clock c event id
  · rfl

end EventLoop
end HftEngine.Main
