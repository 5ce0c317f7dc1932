import HftEngine.Main.OnlyMomentum
import HftEngine.Main.Workload
import HftEngine.Strategy.Turnover

/-! How much a backtest can trade. Every fill goes back to an order of its own, every order to a
signal of the momentum strategy, and every signal but the first to a movement of the prices in the
file. -/
namespace HftEngine.Strategy
open HftEngine.Core

namespace MomentumStrategy

/-- The strategy after ticks, which reads neither the book nor the position. -/
def afterTicks (mds : List MarketDataEvent) : MomentumStrategy × List StrategyEvent :=
  machine.run .init (mds.map (fun md => ⟨0,.init,fun _ => 0,md⟩))

/-- The number of orders it has submitted on them. -/
def orderCount (mds : List MarketDataEvent) : ℕ := (requestsOf (afterTicks mds).2).length

theorem orderCount_bounded {m : ℚ} (hm : 0 ≤ m) {mds : List MarketDataEvent}
    (hprices : ∀ md ∈ mds, m ≤ md.price) : (orderCount mds : ℚ) * m ≤
      m + 10000 * Variation.variation (mds.map MarketDataEvent.price) := by
  have hsame : tradePrices (mds.map (fun md => ⟨0,.init,fun _ => 0,md⟩)) =
      mds.map MarketDataEvent.price := by
    rw [tradePrices, List.map_map]
    rfl
  rw [← hsame]
  refine requests_bounded hm ?_
  rw [hsame]
  intro price hprice
  obtain ⟨md,hmd,rfl⟩ := List.mem_map.mp hprice
  exact hprices md hmd

end MomentumStrategy
end HftEngine.Strategy

namespace HftEngine.Main
open HftEngine.Core Strategy Exchange Fifo Replay

/-- A request or an order on its way, or a fill not yet handled. -/
def isLive : Event → Bool
  | .orderRequest _ => true
  | .validatedOrder _ => true
  | .executionReport report => report.status = .filled
  | _ => false

/-- How many of the events in flight are live. -/
def liveCount (p : Multiset Event) : ℕ := p.countP (fun event => isLive event = true)

theorem liveCount_coe (events : List Event) : liveCount events = events.countP isLive := by
  rw [liveCount, Multiset.coe_countP]
  simp only [Bool.decide_eq_true]

theorem liveCount_add (p q : Multiset Event) : liveCount (p + q) = liveCount p + liveCount q :=
  Multiset.countP_add _ p q

theorem liveCount_cons (event : Event) (p : Multiset Event) :
    liveCount (event ::ₘ p) = [event].countP isLive + liveCount p := by
  rw [← Multiset.singleton_add, liveCount_add, ← Multiset.coe_singleton, liveCount_coe]

/-- The momentum strategy is where the handled ticks have taken it, and each of its orders is on its
way, resting, or filled and handled, at most one of them. -/
structure Spent (c : Components StrategyEngine) (p : Multiset Event) (done : List Event) :
    Prop where
  book : c.orderBook = .init
  strategy : ∃ mm, c.strategy =
    [.marketMaker mm,.momentum (MomentumStrategy.afterTicks (ticksOf done)).1]
  orders : liveCount p + c.matchingEngine.restingOrders.length +
    (filledReports done).length ≤ MomentumStrategy.orderCount (ticksOf done)

/-- One more tick of the strategy in the words of the event loop. -/
theorem afterTicks_concat (mds : List MarketDataEvent) (md : MarketDataEvent) :
    (MomentumStrategy.afterTicks (mds ++ [md])).1 =
        momentumNext (MomentumStrategy.afterTicks mds).1 md ∧
      MomentumStrategy.orderCount (mds ++ [md]) = MomentumStrategy.orderCount mds +
        (momentumSignal (MomentumStrategy.afterTicks mds).1 md).toList.length := by
  have hsplit : MomentumStrategy.afterTicks (mds ++ [md]) =
      (momentumNext (MomentumStrategy.afterTicks mds).1 md,(MomentumStrategy.afterTicks mds).2 ++
        (momentumSignal (MomentumStrategy.afterTicks mds).1 md).toList.map
          (fun order => .orderRequest { order with signalTs := 0 })) := by
    have hlast := momentum_onMarketData (MomentumStrategy.afterTicks mds).1 .init (fun _ => 0) md
    rw [MomentumStrategy.afterTicks, List.map_append, Machine.run_append, List.map_singleton,
      Machine.run_cons, Machine.run_nil, List.append_nil]
    change (((MomentumStrategy.afterTicks mds).1.onMarketData .init (fun _ => 0) md).1,
      (MomentumStrategy.afterTicks mds).2 ++
        ((MomentumStrategy.afterTicks mds).1.onMarketData .init (fun _ => 0) md).2) = _
    rw [hlast]
  refine ⟨by rw [hsplit],?_⟩
  rw [MomentumStrategy.orderCount, hsplit, requestsOf, List.filterMap_append, List.length_append]
  cases momentumSignal (MomentumStrategy.afterTicks mds).1 md <;> rfl

theorem countP_reports_le (reports : List ExecutionReport) :
    (reports.map Event.executionReport).countP isLive ≤ reports.length := by
  refine List.countP_le_length.trans_eq ?_
  rw [List.length_map]

/-- An order on arrival is filled or rests, at most one of them. -/
theorem processOrder_live (e : MatchingEngine) (order : OrderRequest) :
    ((e.processOrder order).2.map Event.executionReport).countP isLive +
      (e.processOrder order).1.restingOrders.length ≤ 1 + e.restingOrders.length := by
  have hblank : ((e.processOrder order).2.map Event.executionReport).countP isLive =
      (((e.processOrder order).2.map blankTradeId).map Event.executionReport).countP isLive := by
    rw [List.map_map, List.countP_map, List.countP_map]
    rfl
  rw [hblank]
  cases e.processOrder_arrival order with
  | filled price _ hresting hreports =>
    rw [hresting, hreports]
    exact Nat.add_le_add_right (countP_reports_le _) _
  | rested hresting hreports =>
    rw [hresting, hreports, List.length_append, List.length_singleton]
    have hnone : ([MatchingEngine.reportOf order order.price 0 .new].map
        Event.executionReport).countP isLive = 0 := rfl
    omega
  | rejected hresting hreports =>
    rw [hresting, hreports]
    exact Nat.add_le_add_right (countP_reports_le _) _

namespace Spent
variable {c : Components StrategyEngine} {p : Multiset Event} {done : List Event} {event : Event}
  (clock : Clock)

/-- Only ticks change the strategy, and only by the signal that they bring. -/
theorem of_quiet (h : Spent c (event ::ₘ p) done) (hquiet : ticksOf [event] = [])
    (hstrategy : (c.wired clock event).1.strategy = c.strategy)
    (hlive : (c.wired clock event).2.countP isLive +
        (c.wired clock event).1.matchingEngine.restingOrders.length +
        (filledReports [event]).length ≤
      [event].countP isLive + c.matchingEngine.restingOrders.length) :
    Spent (c.wired clock event).1 (p + (c.wired clock event).2) (done ++ [event]) := by
  have hticks : ticksOf (done ++ [event]) = ticksOf done := by
    rw [ticksOf_append, hquiet, List.append_nil]
  refine ⟨(EventLoop.dispatch_orderBook _ clock c event).trans h.book,?_,?_⟩
  · rw [hticks, hstrategy]
    exact h.strategy
  · have horders := h.orders
    rw [liveCount_cons] at horders
    rw [hticks, liveCount_add, liveCount_coe, filledReports_append, List.length_append]
    omega

theorem tick (md : MarketDataEvent) (h : Spent c (.marketData md ::ₘ p) done) :
    Spent (c.wired clock (.marketData md)).1 (p + (c.wired clock (.marketData md)).2)
      (done ++ [.marketData md]) := by
  obtain ⟨mm,hstrategy⟩ := h.strategy
  obtain ⟨hnext,hpushes⟩ := Components.wired_signal clock h.book hstrategy md
  obtain ⟨hafter,hcount⟩ := afterTicks_concat (ticksOf done) md
  have hticks : ticksOf (done ++ [.marketData md]) = ticksOf done ++ [md] := ticksOf_append _ _
  refine ⟨(EventLoop.dispatch_orderBook _ clock c _).trans h.book,?_,?_⟩
  · rw [hticks, hafter]
    exact ⟨_,hnext⟩
  · have horders := h.orders
    have hdead : [Event.marketData md].countP isLive = 0 := rfl
    have hbalance := updateMarketPrice_balance c.matchingEngine md
    have hreports := countP_reports_le (c.matchingEngine.updateMarketPrice md).2
    have hengine : (c.wired clock (.marketData md)).1.matchingEngine =
        (c.matchingEngine.updateMarketPrice md).1 := rfl
    have hnofill : filledReports [.marketData md] = [] := rfl
    have hsignals : ((momentumSignal (MomentumStrategy.afterTicks (ticksOf done)).1 md).toList.map
        (fun order => Event.orderRequest { order with signalTs := clock 3 })).countP isLive ≤
        (momentumSignal (MomentumStrategy.afterTicks (ticksOf done)).1 md).toList.length :=
      List.countP_le_length.trans_eq (List.length_map _)
    rw [liveCount_cons, hdead] at horders
    rw [hticks, hcount, hpushes, hengine, liveCount_add, liveCount_coe, List.countP_append,
      filledReports_append, hnofill, List.append_nil]
    omega

theorem handle (h : Spent c (event ::ₘ p) done) :
    Spent (c.wired clock event).1 (p + (c.wired clock event).2) (done ++ [event]) := by
  cases event with
  | marketData md => exact h.tick clock md
  | orderRequest request =>
    refine h.of_quiet clock rfl rfl ?_
    cases hv : Oms.OrderManager.validateOrder c.risk request with
    | true =>
      rw [Components.wired, Components.dispatch, Components.onOrderRequest_accepted clock c hv]
      exact Nat.le_refl _
    | false =>
      rw [Components.wired, Components.dispatch, Components.onOrderRequest_rejected clock c hv]
      exact (Nat.zero_add _).trans_le (Nat.le_add_left _ 1)
  | validatedOrder order =>
    exact h.of_quiet clock rfl rfl (processOrder_live c.matchingEngine order)
  | cancelOrder orderId => exact h.of_quiet clock rfl rfl (Nat.le_refl _)
  | executionReport report =>
    have hsame : (c.wired clock (.executionReport report)).1.strategy = c.strategy := by
      simp only [Components.wired, Components.dispatch, Components.onExecutionReport]
      split <;> rfl
    refine h.of_quiet clock rfl hsame ?_
    rw [Components.wired, Components.dispatch, Components.onExecutionReport_matchingEngine,
      Components.onExecutionReport_pushes]
    by_cases hfilled : report.status = .filled <;>
      simp [isLive, hfilled, filledReports, filledReport, StrategyEngine.api, Nat.add_comm]

end Spent

/-- The wired system, in any order of events and whatever is lost. -/
theorem Unordered.spent {J : Event → Prop} (hticks : ∀ event, J event → Backtest.IsTick event)
    {maxPosition : ℚ} {c : Components StrategyEngine} {p : Multiset Event} {done : List Event}
    (h : Unordered StrategyEngine.api J StrategyEngine.main maxPosition c p done) :
    Spent c p done := by
  induction h with
  | init => exact ⟨rfl,⟨.init,rfl⟩,Nat.le_refl _⟩
  | input event hevent _ ih =>
    have hdead : [event].countP isLive = 0 := by
      have htick := hticks event hevent
      cases event with
      | marketData md => rfl
      | _ => exact htick.elim
    refine ⟨ih.book,ih.strategy,?_⟩
    rw [liveCount_cons, hdead, Nat.zero_add]
    exact ih.orders
  | lose hle _ ih =>
    have hfewer : liveCount _ ≤ liveCount _ := Multiset.countP_le_of_le _ hle
    have horders := ih.orders
    exact ⟨ih.book,ih.strategy,by omega⟩
  | handle clock event _ ih => exact ih.handle clock

theorem filledReports_eq (events : List Event) : filledReports events =
    (reportsOf events).filter (fun report => report.status = .filled) := by
  induction events with
  | nil => rfl
  | cons event events ih =>
    cases event with
    | executionReport report =>
      by_cases hfilled : report.status = .filled
      · simpa [reportsOf, reportOf?, filledReports, filledReport, hfilled] using ih
      · simpa [reportsOf, reportOf?, filledReports, filledReport, hfilled] using ih
    | _ => simpa [reportsOf, reportOf?, filledReports, filledReport, List.filterMap_cons] using ih

/-- A position is closed by fills only. -/
theorem closingFills_le (reports : List ExecutionReport) :
    closingFills reports ≤ (reports.filter (fun report => report.status = .filled)).length := by
  induction reports using List.reverseRecOn with
  | nil => exact Nat.le_refl _
  | append_singleton reports report ih =>
    rw [closingFills_concat, List.filter_append, List.length_append]
    by_cases hfilled : report.status = .filled
    · rw [List.filter_singleton]
      simp only [hfilled]
      split <;> simp <;> omega
    · simpa [closesPosition, hfilled] using ih

namespace Backtest

/-- Prices that hardly move are hardly traded: if no price in the file is below `m`, all fills but
one, and all trades in the summary, take price movements of `m` in ten thousand each. -/
theorem turnover_bounded {m : ℚ} (hm : 0 ≤ m) (maxPosition : ℚ) {lines : List Line}
    (hrows : ∀ line ∈ lines, (rowEvent (α := ℚ) line).isSome = true)
    (hprices : ∀ md ∈ lines.filterMap rowEvent, m ≤ md.price) (turns : List Turn) :
    let final := run StrategyEngine.api (init StrategyEngine.main maxPosition (some lines)) turns
    let fills := filledReports (popped final.2)
    final.1.components.metrics.tradeCount ≤ fills.length ∧
      (fills.length : ℚ) * m ≤ m + 10000 *
        Variation.variation ((lines.filterMap rowEvent).map MarketDataEvent.price) := by
  intro final fills
  have hunordered : Unordered StrategyEngine.api IsTick StrategyEngine.main maxPosition
      final.1.components final.1.inFlight (popped final.2) :=
    unordered StrategyEngine.api StrategyEngine.main maxPosition (some lines) turns
  have hspent := hunordered.spent (fun _ htick => htick)
  have hreplayed := replayed_rows StrategyEngine.api StrategyEngine.main maxPosition turns
    (fun line hline => .inr (hrows line hline))
  have hsub := (ticksOf_popped_sublist StrategyEngine.api StrategyEngine.main maxPosition
    (some lines) turns).trans hreplayed.sublist
  constructor
  · have htrades : final.1.components.metrics.tradeCount =
        closingFills (reportsOf (popped final.2)) := hunordered.summary.2.2.1
    have hfills : fills = (reportsOf (popped final.2)).filter
        (fun report => report.status = .filled) := filledReports_eq _
    rw [htrades, hfills]
    exact closingFills_le _
  · have hbound := MomentumStrategy.orderCount_bounded hm
      (fun md hmd => hprices md (hsub.subset hmd))
    have hvaries := Variation.variation_le_of_sublist (hsub.map MarketDataEvent.price)
    have hfills : fills.length ≤ MomentumStrategy.orderCount (ticksOf (popped final.2)) :=
      le_trans (Nat.le_add_left _ _) hspent.orders
    have hcast : (fills.length : ℚ) ≤ MomentumStrategy.orderCount (ticksOf (popped final.2)) :=
      Nat.cast_le.mpr hfills
    have hscaled := mul_le_mul_of_nonneg_right hcast hm
    linarith

/-- Two fills, one of which closes a position. -/
theorem turnover_bounded_signals :
    let final := run StrategyEngine.api (init StrategyEngine.main 100 (some signalFile)) signalTurns
    let fills := filledReports (popped final.2)
    fills.length = 2 ∧ final.1.components.metrics.tradeCount ≤ fills.length ∧
      (fills.length : ℚ) * 100 ≤ 100 + 10000 *
        Variation.variation ((signalFile.filterMap rowEvent).map MarketDataEvent.price) :=
  ⟨by decide +kernel,turnover_bounded (by norm_num) 100 (by decide +kernel) (by decide +kernel) _⟩

end Backtest
end HftEngine.Main
