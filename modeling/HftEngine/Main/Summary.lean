import HftEngine.Main.Orders
import HftEngine.Main.Positions
import HftEngine.Pnl.Accounting
import HftEngine.Pnl.Drawdown
import Mathlib.Algebra.BigOperators.Ring.Finset
import Mathlib.Data.List.Infix

/-! The final performance summary of main.cpp (analytics/backtest_metrics.hpp), and what its numbers
mean in terms of the execution reports that the processor thread has handled. -/
namespace HftEngine.Main
open HftEngine.Core Strategy Pnl Exchange Fifo MapSum AverageCost

/-- The `sharp_ratio` is a placeholder that nothing sets. -/
structure BacktestMetrics where
  totalPnl : ℚ
  tradeCount : ℕ
  winRate : ℚ
  maxDrawdown : ℚ
  sharpRatio : ℚ
  deriving DecidableEq, Repr

/-- What main.cpp computes after both threads are joined. -/
def Components.metrics {σ : Type} (c : Components σ) : BacktestMetrics where
  totalPnl := c.pnlEngine.getTotalPnl
  tradeCount := c.pnlEngine.getTotalTrades
  winRate := c.pnlEngine.getWinRate * 100
  maxDrawdown := c.pnlEngine.getMaxDrawdown
  sharpRatio := 0

/-- Profit of the fills among the reports at a price. -/
def profitAt (price : ℚ) (reports : List ExecutionReport) : ℚ :=
  ((reports.filter (fun report => report.status = .filled)).map
    (fun report => report.signedQty * (price - report.lastPrice))).sum

/-- The same at the price of the last report, whatever its status. -/
def equityAfter (reports : List ExecutionReport) : ℚ :=
  match reports.getLast? with
  | none => 0
  | some last => profitAt last.lastPrice reports

/-- The equity before the first report and after each of them. -/
def equityCurve (reports : List ExecutionReport) : List ℚ := reports.inits.map equityAfter

/-- The last report is a fill against the position that the fills before it have built up for its
strategy. -/
def closesPosition (reports : List ExecutionReport) : Bool :=
  match reports.getLast? with
  | none => false
  | some last => last.status = .filled ∧
      netPosition (reports.dropLast.filter (fun report =>
        report.status = .filled ∧ report.strategyId = last.strategyId)) * last.signedQty < 0

/-- How many of the reports close a position or a part of it. -/
def closingFills (reports : List ExecutionReport) : ℕ := reports.inits.countP closesPosition

def reportOf? : Event → Option ExecutionReport
  | .executionReport report => some report
  | _ => none

/-- The execution reports among events. -/
def reportsOf (events : List Event) : List ExecutionReport := events.filterMap reportOf?

@[simp] theorem reportsOf_append (xs ys : List Event) :
    reportsOf (xs ++ ys) = reportsOf xs ++ reportsOf ys := List.filterMap_append

/-- The calls that handling a report makes on the PnL engine. -/
def pnlCalls (report : ExecutionReport) : List PnlCall :=
  (if report.status = .filled then
    [.onFill report.strategyId report.side report.lastPrice report.lastQty] else []) ++
  [.updatePnl report.lastPrice]

theorem Components.dispatch_pnlEngine {σ : Type} (S : StrategyApi σ) (clock : Clock)
    (c : Components σ) (event : Event) : (c.dispatch S clock event).1.pnlEngine =
      ((reportsOf [event]).flatMap pnlCalls).foldl PnlEngine.apply c.pnlEngine := by
  cases event with
  | executionReport report =>
    rw [dispatch, onExecutionReport_pnlEngine]
    by_cases h : report.status = .filled <;>
      simp [h, reportsOf, reportOf?, pnlCalls, PnlEngine.apply]
  | _ => rfl

/-- The PnL engine has seen the calls of the handled reports. -/
theorem Unordered.pnlEngine_eq {σ : Type} {S : StrategyApi σ} {J : Event → Prop} {strategy : σ}
    {maxPosition : ℚ} {c : Components σ} {p : Multiset Event} {done : List Event}
    (h : Unordered S J strategy maxPosition c p done) :
    c.pnlEngine = PnlEngine.after ((reportsOf done).flatMap pnlCalls) := by
  induction h with
  | init => rfl
  | input _ _ _ ih => exact ih
  | lose _ _ ih => exact ih
  | handle clock event _ ih =>
    rw [Components.dispatch_pnlEngine, ih, PnlEngine.after, PnlEngine.after, reportsOf_append,
      List.flatMap_append, List.foldl_append]

/-- The fill of a report as a trade of a book. -/
def tradeOf (report : ExecutionReport) : Trade ℚ := ⟨report.signedQty,report.lastPrice⟩

theorem allFills_pnlCalls (reports : List ExecutionReport) :
    allFills (reports.flatMap pnlCalls) =
      (reports.filter (fun report => report.status = .filled)).map tradeOf := by
  induction reports with
  | nil => rfl
  | cons report reports ih =>
    have hsplit : allFills (pnlCalls report ++ reports.flatMap pnlCalls) =
        allFills (pnlCalls report) ++ allFills (reports.flatMap pnlCalls) := List.filterMap_append
    rw [List.flatMap_cons, hsplit, ih]
    by_cases h : report.status = .filled <;>
      simp [h, pnlCalls, allFills, PnlCall.trade, List.filterMap_cons, tradeOf,
        ExecutionReport.signedQty]

theorem fillsOf_pnlCalls (id : ℕ) (reports : List ExecutionReport) :
    Pnl.fillsOf id (reports.flatMap pnlCalls) = (reports.filter (fun report =>
      report.status = .filled ∧ report.strategyId = id)).map tradeOf := by
  induction reports with
  | nil => rfl
  | cons report reports ih =>
    have hsplit : Pnl.fillsOf id (pnlCalls report ++ reports.flatMap pnlCalls) =
        Pnl.fillsOf id (pnlCalls report) ++ Pnl.fillsOf id (reports.flatMap pnlCalls) :=
      List.filterMap_append
    rw [List.flatMap_cons, hsplit, ih]
    by_cases h : report.status = .filled <;> by_cases hid : report.strategyId = id <;>
      simp [h, hid, pnlCalls, Pnl.fillsOf, PnlCall.tradeOf, List.filterMap_cons, tradeOf,
        ExecutionReport.signedQty]

section
variable {L : ℚ} {reports : List ExecutionReport} {report : ExecutionReport}

/-- The fills among the reports trade whole lots. -/
def TradesLots (L : ℚ) (reports : List ExecutionReport) : Prop :=
  ∀ report ∈ reports, report.status = .filled → ∃ n : ℕ, 0 < n ∧ report.lastQty = n * L

theorem TradesLots.calls (h : TradesLots L reports) :
    ∀ call ∈ reports.flatMap pnlCalls, call.InLots L := by
  intro call hcall
  obtain ⟨report,hreport,hmem⟩ := List.mem_flatMap.mp hcall
  by_cases hfilled : report.status = .filled
  · simp only [pnlCalls, hfilled, if_true, List.cons_append, List.nil_append, List.mem_cons,
      List.not_mem_nil, or_false] at hmem
    cases hmem with
    | inl hfill =>
      rw [hfill]
      exact h report hreport hfilled
    | inr hmark =>
      rw [hmark]
      trivial
  · simp only [pnlCalls, hfilled, if_false, List.nil_append, List.mem_singleton] at hmem
    rw [hmem]
    trivial

theorem TradesLots.of_append {rest : List ExecutionReport} (h : TradesLots L (reports ++ rest)) :
    TradesLots L reports := fun report hreport => h report (List.mem_append_left _ hreport)

/-- The calls before the marking at the last report. -/
def callsBefore (reports : List ExecutionReport) (report : ExecutionReport) : List PnlCall :=
  reports.flatMap pnlCalls ++ if report.status = .filled then
    [.onFill report.strategyId report.side report.lastPrice report.lastQty] else []

theorem pnlCalls_concat (reports : List ExecutionReport) (report : ExecutionReport) :
    (reports ++ [report]).flatMap pnlCalls =
      callsBefore reports report ++ [.updatePnl report.lastPrice] := by
  rw [List.flatMap_append, List.flatMap_singleton, pnlCalls, callsBefore, List.append_assoc]

theorem profitAt_eq (price : ℚ) (reports : List ExecutionReport) :
    profitAt price reports = markToMarket (allFills (reports.flatMap pnlCalls)) price := by
  rw [allFills_pnlCalls, profitAt, markToMarket, List.map_map]
  rfl

theorem equityAfter_concat (reports : List ExecutionReport) (report : ExecutionReport) :
    equityAfter (reports ++ [report]) = profitAt report.lastPrice (reports ++ [report]) := by
  simp [equityAfter]

/-- Marking at a report shows the profit of the fills up to it. -/
theorem totalEquity_callsBefore (hL : epsilon < L) (h : TradesLots L (reports ++ [report])) :
    (PnlEngine.after (callsBefore reports report)).totalEquity report.lastPrice =
      equityAfter (reports ++ [report]) := by
  have hlots := h.calls
  rw [pnlCalls_concat] at hlots
  have hbefore : ∀ call ∈ callsBefore reports report, call.InLots L :=
    fun call hcall => hlots call (List.mem_append_left _ hcall)
  rw [equityAfter_concat, profitAt_eq, pnlCalls_concat, allFills_snoc_updatePnl,
    ← PnlEngine.sum_equity hL hbefore]
  exact PnlEngine.getTotalPnl_updatePnl hL hbefore report.lastPrice

theorem equityCurve_concat (reports : List ExecutionReport) (report : ExecutionReport) :
    equityCurve (reports ++ [report]) =
      equityCurve reports ++ [equityAfter (reports ++ [report])] := by
  simp [equityCurve, List.inits_append]

/-- The equities that the engine has computed are the equity curve of the reports. -/
theorem equities_eq (hL : epsilon < L) (h : TradesLots L reports) :
    PnlEngine.equities (reports.flatMap pnlCalls) = equityCurve reports := by
  induction reports using List.reverseRecOn with
  | nil => rfl
  | append_singleton reports report ih =>
    rw [pnlCalls_concat, PnlEngine.equities_updatePnl, totalEquity_callsBefore hL h,
      equityCurve_concat, ← ih h.of_append, callsBefore]
    split_ifs
    · rw [PnlEngine.equities_onFill]
    · rw [List.append_nil]

theorem getTotalPnl_eq (hL : epsilon < L) (h : TradesLots L reports) :
    (PnlEngine.after (reports.flatMap pnlCalls)).getTotalPnl = equityAfter reports := by
  cases reports using List.reverseRecOn with
  | nil => exact sumBy_empty _
  | append_singleton reports report =>
    rw [← totalEquity_callsBefore hL h, pnlCalls_concat, PnlEngine.after_snoc]
    rfl

/-- A fill that does not average closes, at least in part, and is counted. -/
theorem fill_trades (stats : StrategyStats) (side : OrderSide) (price quantity : ℚ)
    (hq : 0 < quantity) (hflat : stats.FlatIsZero) :
    (stats.fill side price quantity).trades =
      stats.trades + if stats.position * (quantity * side.sign) < 0 then 1 else 0 := by
  have hne : quantity * side.sign ≠ 0 := by
    cases side <;> simp [hq.ne']
  have hbranch := stats.averages_iff_adds price hne hflat
  have hadds : stats.book.Adds ⟨quantity * side.sign,price⟩ ↔
      ¬stats.position * (quantity * side.sign) < 0 := by
    unfold Book.Adds
    rw [not_lt, mul_nonneg_iff]
    constructor
    · rintro (⟨hp,hs⟩ | ⟨hp,hs⟩)
      · exact .inl ⟨hp,hs.le⟩
      · exact .inr ⟨hp,hs.le⟩
    · rintro (⟨hp,hs⟩ | ⟨hp,hs⟩)
      · exact .inl ⟨hp,lt_of_le_of_ne hs hne.symm⟩
      · exact .inr ⟨hp,lt_of_le_of_ne hs hne⟩
  by_cases hcloses : stats.position * (quantity * side.sign) < 0
  · have hnot : ¬stats.Averages (quantity * side.sign) := fun h =>
      hadds.mp (hbranch.mp h) hcloses
    rw [StrategyStats.fill_of_not_averages hnot, if_pos hcloses]
  · rw [StrategyStats.fill_of_averages (hbranch.mpr (hadds.mpr hcloses)), if_neg hcloses]
    rfl

theorem mark_trades (stats : StrategyStats) (price : ℚ) :
    (stats.mark price).trades = stats.trades := by
  unfold StrategyStats.mark
  split <;> rfl

theorem getTotalTrades_eq_sumBy (engine : PnlEngine) : (engine.getTotalTrades : ℤ) =
    sumBy (fun stats => (stats.trades : ℤ)) engine.strategyStats := by
  unfold PnlEngine.getTotalTrades
  rw [sumBy_eq_sum, Nat.cast_list_sum, List.map_map]
  rfl

theorem getTotalTrades_updatePnl (engine : PnlEngine) (price : ℚ) :
    (engine.updatePnl price).getTotalTrades = engine.getTotalTrades := by
  have hsum : ((engine.updatePnl price).getTotalTrades : ℤ) = engine.getTotalTrades := by
    rw [getTotalTrades_eq_sumBy, getTotalTrades_eq_sumBy, PnlEngine.updatePnl, sumBy_map]
    simp only [mark_trades]
  exact_mod_cast hsum

theorem getTotalTrades_onFill (engine : PnlEngine) (id : ℕ) (side : OrderSide)
    (price quantity : ℚ) (hq : 0 < quantity) (hflat : (engine.stats id).FlatIsZero) :
    (engine.onFill id side price quantity).getTotalTrades = engine.getTotalTrades +
      if (engine.stats id).position * (quantity * side.sign) < 0 then 1 else 0 := by
  have hsum : ((engine.onFill id side price quantity).getTotalTrades : ℤ) =
      engine.getTotalTrades + (if (engine.stats id).position * (quantity * side.sign) < 0
        then 1 else 0 : ℕ) := by
    have hinit : ((StrategyStats.init.trades : ℕ) : ℤ) = 0 := rfl
    rw [getTotalTrades_eq_sumBy, getTotalTrades_eq_sumBy, PnlEngine.onFill,
      sumBy_insert (fun stats : StrategyStats => (stats.trades : ℤ)) _ _ _ hinit,
      fill_trades _ side price quantity hq hflat]
    rw [PnlEngine.stats]
    push_cast
    ring
  exact_mod_cast hsum

/-- The position of a strategy is that of its fills. -/
theorem position_eq (hL : epsilon < L) (h : TradesLots L reports) (id : ℕ) :
    ((PnlEngine.after (reports.flatMap pnlCalls)).stats id).position =
      netPosition (reports.filter (fun report =>
        report.status = .filled ∧ report.strategyId = id)) := by
  have hbook := (PnlEngine.book_represents hL h.calls id).1
  rw [fillsOf_pnlCalls, netQty, List.map_map] at hbook
  exact hbook

theorem closingFills_concat (reports : List ExecutionReport) (report : ExecutionReport) :
    closingFills (reports ++ [report]) =
      closingFills reports + if closesPosition (reports ++ [report]) then 1 else 0 := by
  simp [closingFills, List.inits_append, List.countP_append, List.countP_cons]

theorem getTotalTrades_eq (hL : epsilon < L) (h : TradesLots L reports) :
    (PnlEngine.after (reports.flatMap pnlCalls)).getTotalTrades = closingFills reports := by
  induction reports using List.reverseRecOn with
  | nil => rfl
  | append_singleton reports report ih =>
    have hbefore := ih h.of_append
    rw [pnlCalls_concat, PnlEngine.after_snoc, PnlEngine.apply, getTotalTrades_updatePnl,
      closingFills_concat, ← hbefore, callsBefore]
    by_cases hfilled : report.status = .filled
    · obtain ⟨n,hn,hqty⟩ := h report (by simp) hfilled
      have hq : 0 < report.lastQty := pos_of_lots hL ⟨n,hn,hqty⟩
      have hflat : ((PnlEngine.after (reports.flatMap pnlCalls)).stats
          report.strategyId).FlatIsZero := fun hsmall =>
        PnlEngine.position_eq_zero_of_le hL h.of_append.calls report.strategyId hsmall.le
      rw [if_pos hfilled, PnlEngine.after_snoc, PnlEngine.apply,
        getTotalTrades_onFill _ _ _ _ _ hq hflat, position_eq hL h.of_append]
      simp [closesPosition, hfilled, ExecutionReport.signedQty]
    · rw [if_neg hfilled, List.append_nil]
      simp [closesPosition, hfilled]

end

namespace Unordered
variable {engine : StrategyEngine} {maxPosition : ℚ} {c : Components StrategyEngine}
  {p : Multiset Event} {done : List Event}

/-- Both strategies trade whole tenths. -/
theorem tradesLots
    (h : Unordered StrategyEngine.api Backtest.IsTick engine maxPosition c p done) :
    TradesLots (1/10) (reportsOf done) := by
  have hauthored := h.authored
    (Q := fun order => order.quantity = 1/10 ∨ order.quantity = 1/2) (I := fun _ => True)
    (fun _ _ horder => horder) (fun _ htick => htick) (fun _ _ _ _ => trivial)
    (fun c _ _ _ _ hpushed => (c.dispatch_drafted hpushed).author.imp And.right And.right) trivial
  intro report hreport hfilled
  obtain ⟨event,hevent,heq⟩ := List.mem_filterMap.mp hreport
  cases event with
  | executionReport report' =>
    obtain rfl := Option.some.inj heq
    obtain ⟨order,hquantity,hfills⟩ := hauthored.2.handled _ hevent hfilled
    rw [hfills.lastQty]
    cases hquantity with
    | inl htenth => exact ⟨1,by decide,by rw [htenth]; norm_num⟩
    | inr hhalf => exact ⟨5,by decide,by rw [hhalf]; norm_num⟩
  | _ => contradiction

/-- What the summary computes from the handled events, whatever their order and whatever is lost. -/
theorem summary (h : Unordered StrategyEngine.api Backtest.IsTick engine maxPosition c p done) :
    c.metrics.totalPnl = equityAfter (reportsOf done) ∧
    IsGreatest (Drawdown.falls (equityCurve (reportsOf done))) c.metrics.maxDrawdown ∧
    c.metrics.tradeCount = closingFills (reportsOf done) ∧
    c.risk.currentPosition = netPosition (filledReports done) ∧
    c.pnlEngine.getTotalPosition = netPosition (filledReports done) := by
  have hlots := h.tradesLots
  have hL : epsilon < 1/10 := by norm_num [epsilon]
  have happend : ∀ xs ys, netPosition (filledReports (xs ++ ys)) =
      netPosition (filledReports xs) + netPosition (filledReports ys) := by
    intro xs ys
    rw [filledReports_append, netPosition_append]
  dsimp only [Components.metrics]
  refine ⟨?_,?_,?_,?_,?_⟩
  · rw [h.pnlEngine_eq]
    exact getTotalPnl_eq hL hlots
  · rw [h.pnlEngine_eq, ← equities_eq hL hlots]
    exact (PnlEngine.tracks_after _).drawdown
  · rw [h.pnlEngine_eq]
    exact getTotalTrades_eq hL hlots
  · exact h.read_eq (r := fun c => c.risk.currentPosition)
      (w := fun events => netPosition (filledReports events)) happend
      (fun c event clock => c.dispatch_currentPosition StrategyEngine.api clock event) rfl
  · exact h.read_eq (r := fun c => c.pnlEngine.getTotalPosition)
      (w := fun events => netPosition (filledReports events)) happend
      (fun c event clock => c.dispatch_getTotalPosition StrategyEngine.api clock event)
      PnlEngine.getTotalPosition_init

end Unordered

namespace Backtest

/-- What the summary prints, whatever the strategies, the file, the interleaving of the threads and
the events that the queue refused: the total is the profit of all handled fills at the price of the
last handled report, the drawdown the largest fall of that equity from report to report, and the
trade count the number of handled fills that close a position. Risk and PnL engine end with the
position of these fills. -/
theorem summary_exact (engine : StrategyEngine) (maxPosition : ℚ)
    (file : Option (List Replay.Line)) (turns : List Turn) :
    let final := run StrategyEngine.api (init engine maxPosition file) turns
    let reports := reportsOf (popped final.2)
    final.1.components.metrics.totalPnl = equityAfter reports ∧
    IsGreatest (Drawdown.falls (equityCurve reports)) final.1.components.metrics.maxDrawdown ∧
    final.1.components.metrics.tradeCount = closingFills reports ∧
    final.1.components.risk.currentPosition = netPosition (filledReports (popped final.2)) ∧
    final.1.components.pnlEngine.getTotalPosition =
      netPosition (filledReports (popped final.2)) :=
  (unordered StrategyEngine.api engine maxPosition file turns).summary

end Backtest
end HftEngine.Main
