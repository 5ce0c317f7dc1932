import HftEngine.Foundation.Double
import HftEngine.Main.Positions
import HftEngine.Main.Provenance
import HftEngine.Pnl.Marking

/-! Reports without a fill. The event loop marks the PnL engine at the price of every report,
also at the limit price of a New one and at the zero of a Cancelled or Rejected one. In double
precision the totals stay as they are where this price is the one of the last marking or no
position is open; in exact arithmetic it is enough, and necessary, that the open positions cancel
out. -/
set_option linter.unusedSectionVars false

namespace HftEngine.Main
open HftEngine.Core Strategy Pnl Exchange Fifo

section Generic
variable {σ α : Type} [Add α] [Sub α] [Mul α] [Div α] [Neg α] [LT α] [DecidableLT α] [LE α]
  [DecidableLE α] [Min α] [Max α] [∀ n, OfNat α n]

/-- Handling an event leaves the PnL engine as a price update does, or as it was. -/
theorem Components.dispatch_repriced (S : StrategyApi σ α) (clock : Clock) (c : Components σ α)
    {event : Event α} (h : c.pnlEngine.Repriced) :
    (c.dispatch S clock event).1.pnlEngine.Repriced := by
  cases event with
  | executionReport report =>
    rw [dispatch, onExecutionReport_pnlEngine]
    exact .updated _ _
  | _ => exact h

/-- The quantity check of the OMS. -/
theorem not_nonpos_of_validated {risk : Risk.RiskEngine α} {request : OrderRequest α}
    (h : Oms.OrderManager.validateOrder risk request = true) : ¬request.quantity ≤ 0 := by
  unfold Oms.OrderManager.validateOrder at h
  split_ifs at h with hquantity
  exact hquantity

namespace EventLoop
variable (S : StrategyApi σ α)

theorem repriced_after (strategy : σ) (maxPosition : α) (labels : List (Label α)) :
    (run S (init strategy maxPosition) labels).1.components.pnlEngine.Repriced := by
  apply run_invariant' (I := fun c _ _ => c.pnlEngine.Repriced)
  · intro c p tr event ok _ ih
    exact ih
  · intro c event p tr clock ops ih _ _
    exact Components.dispatch_repriced S clock c ih
  · exact .init

/-- Whatever passes the quantity check keeps its quantity up to the report of its fill. -/
theorem carried_quantity (strategy : σ) (maxPosition : α) (labels : List (Label α)) :
    Carried (fun order => ¬order.quantity ≤ 0)
      (run S (init strategy maxPosition) labels).1.components
      (run S (init strategy maxPosition) labels).1.pending := by
  apply run_invariant' (I := fun c p _ => Carried (fun order => ¬order.quantity ≤ 0) c p)
  · intro c p tr event ok hevent ih
    exact ih.input hevent ok
  · intro c event p tr clock ops ih hattempted _
    exact ih.handle (fun _ _ hvalid => not_nonpos_of_validated hvalid)
      (sublist_of_attempted hattempted)
  · exact Carried.init strategy maxPosition

/-- A report without quantity is no fill, and only marks the PnL engine. -/
theorem dispatch_emptyReport (hzero : (0 : α) ≤ 0) (strategy : σ) (maxPosition : α)
    (labels : List (Label α)) (clock : Clock) {report : ExecutionReport α} {rest : List (Event α)}
    (hnext : (run S (init strategy maxPosition) labels).1.pending =
      .executionReport report :: rest) (hqty : report.lastQty = 0) :
    ((run S (init strategy maxPosition) labels).1.components.dispatch S clock
      (.executionReport report)).1.pnlEngine =
        (run S (init strategy maxPosition) labels).1.components.pnlEngine.updatePnl
          report.lastPrice := by
  have hstatus : report.status ≠ .filled := by
    intro hfilled
    obtain ⟨order,horder,hfills⟩ := (carried_quantity S strategy maxPosition labels).pending
      (.executionReport report) (by rw [hnext]; exact List.mem_cons_self) hfilled
    apply horder
    rw [← hfills.lastQty, hqty]
    exact hzero
  rw [Components.dispatch, Components.onExecutionReport_pnlEngine, if_neg hstatus]

end EventLoop
end Generic

namespace Components
variable {σ : Type} (S : StrategyApi σ) (clock : Clock) (c : Components σ)

/-- Handling an event leaves the PnL engine marked at its last price. -/
theorem dispatch_marked {event : Event} (h : c.pnlEngine.Marked) :
    (c.dispatch S clock event).1.pnlEngine.Marked := by
  cases event with
  | executionReport report =>
    rw [dispatch, onExecutionReport_pnlEngine]
    exact PnlEngine.marked_updatePnl _ _
  | _ => exact h

end Components

namespace EventLoop

section Exact
variable {σ : Type} (S : StrategyApi σ)

theorem marked_after (strategy : σ) (maxPosition : ℚ) (labels : List Label) :
    (run S (init strategy maxPosition) labels).1.components.pnlEngine.Marked := by
  apply run_invariant' (I := fun c _ _ => c.pnlEngine.Marked)
  · intro c p tr event ok _ ih
    exact ih
  · intro c event p tr clock ops ih _ _
    exact Components.dispatch_marked S clock c ih
  · exact PnlEngine.marked_init

/-- In exact arithmetic, handling a report without quantity leaves total, peak and drawdown as
they were exactly when it carries the price of the last marking or no position is open on
balance. -/
theorem exact_report_unchanged_iff (strategy : σ) (maxPosition : ℚ) (labels : List Label)
    (clock : Clock) (report : ExecutionReport) (rest : List Event)
    (hnext : (run S (init strategy maxPosition) labels).1.pending =
      .executionReport report :: rest)
    (hqty : report.lastQty = 0) :
    let before := (run S (init strategy maxPosition) labels).1.components
    let after := (before.dispatch S clock (.executionReport report)).1
    (after.pnlEngine.getTotalPnl = before.pnlEngine.getTotalPnl ∧
      after.pnlEngine.peakEquity = before.pnlEngine.peakEquity ∧
      after.pnlEngine.maxDrawdown = before.pnlEngine.maxDrawdown) ↔
    report.lastPrice = before.pnlEngine.lastPrice ∨ before.pnlEngine.openPosition = 0 := by
  intro before after
  have hafter : after.pnlEngine = before.pnlEngine.updatePnl report.lastPrice :=
    dispatch_emptyReport S le_rfl strategy maxPosition labels clock hnext hqty
  rw [hafter]
  exact (marked_after S strategy maxPosition labels).updatePnl_unchanged_iff report.lastPrice

end Exact

section Doubles
variable {σ : Type} (S : StrategyApi σ Double)

theorem max_idempotent (x y : Double) : max (max x y) y = max x y := by
  change (if (if x < y then y else x) < y then y else if x < y then y else x) = _
  by_cases h : x < y
  · rw [if_pos h, if_neg (Double.lt_irrefl y)]
    exact (if_pos h).symm
  · rw [if_neg h, if_neg h]
    exact (if_neg h).symm

/-- In every reachable state, handling a report without quantity leaves total, peak and drawdown
exactly as they were if its price revalues no position. -/
theorem report_unchanged (strategy : σ) (maxPosition : Double) (labels : List (Label Double))
    (clock : Clock) (report : ExecutionReport Double) (rest : List (Event Double))
    (hnext : (run S (init strategy maxPosition) labels).1.pending =
      .executionReport report :: rest)
    (hqty : report.lastQty = 0)
    (hprice : ¬(run S (init strategy maxPosition) labels).1.components.pnlEngine.Revalues
      report.lastPrice) :
    let before := (run S (init strategy maxPosition) labels).1.components
    let after := (before.dispatch S clock (.executionReport report)).1
    after.pnlEngine.getTotalPnl = before.pnlEngine.getTotalPnl ∧
      after.pnlEngine.peakEquity = before.pnlEngine.peakEquity ∧
      after.pnlEngine.maxDrawdown = before.pnlEngine.maxDrawdown := by
  intro before after
  have hafter : after.pnlEngine = before.pnlEngine.updatePnl report.lastPrice :=
    dispatch_emptyReport S (by decide +kernel) strategy maxPosition labels clock hnext hqty
  rw [hafter]
  exact PnlEngine.updatePnl_unchanged max_idempotent (by decide +kernel)
    (repriced_after S strategy maxPosition labels) hprice

/-- A fill at 100.25, then a cancel whose report is handled next. -/
def fillThenCancel : List (Label Double) :=
  [.tick 100,.limit 7 .buy 101 1] ++ Label.processes 16 ++ [.cancel 7] ++ Label.processes 3

/-- The Cancelled report, without quantity, revalues the open position at zero. -/
theorem cancelled_report_moves_pnl :
    let before := (run (.silent Double) (init () 100) fillThenCancel).1
    let after := (before.components.dispatch (.silent Double) (fun _ => 0)
      (.executionReport ⟨7,0,2,[],.buy,0,0,0,0,.cancelled,0,0⟩)).1
    before.pending = [.executionReport ⟨7,0,2,[],.buy,0,0,0,0,.cancelled,0,0⟩] ∧
    before.components.pnlEngine.getTotalPnl = 0 ∧ after.pnlEngine.getTotalPnl = -401/4 ∧
    before.components.pnlEngine.maxDrawdown = 0 ∧ after.pnlEngine.maxDrawdown = 401/4 := by
  decide +kernel

/-- A fill at 100.25, then a limit order at that price which comes to rest. -/
def fillThenRest : List (Label Double) :=
  [.tick 100,.limit 7 .buy 101 1] ++ Label.processes 16 ++ [.limit 8 .sell (401/4) 1] ++
    Label.processes 8

/-- The New report carries the price of the last marking. -/
theorem report_unchanged_fillThenRest :
    let before := (run (.silent Double) (init () 100) fillThenRest).1.components
    let report : ExecutionReport Double := ⟨8,1,2,[],.sell,401/4,0,0,1,.new,0,0⟩
    let after := (before.dispatch (.silent Double) (fun _ => 0) (.executionReport report)).1
    after.pnlEngine.getTotalPnl = before.pnlEngine.getTotalPnl ∧
      after.pnlEngine.peakEquity = before.pnlEngine.peakEquity ∧
      after.pnlEngine.maxDrawdown = before.pnlEngine.maxDrawdown :=
  report_unchanged (.silent Double) () 100 fillThenRest (fun _ => 0)
    ⟨8,1,2,[],.sell,401/4,0,0,1,.new,0,0⟩ [] (by decide +kernel) rfl
    (fun h => h.1 (by decide +kernel))

end Doubles
end EventLoop
end HftEngine.Main
