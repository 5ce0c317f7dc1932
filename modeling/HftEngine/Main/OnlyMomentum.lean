import HftEngine.Main.Feeding
import HftEngine.Main.LongOrFlat
import HftEngine.Main.Summary

/-! What main.cpp leaves idle. Nothing ever enters the order book, so the market maker never quotes,
no order is ever cancelled or rejected, and all that is traded and summed up is the momentum
strategy's. -/
namespace HftEngine.Main
open HftEngine.Core Strategy Pnl Exchange Fifo MapSum AverageCost

/-- Ticks, and what becomes of the orders of the momentum strategy once these events have been
handled: a request, its validated copy, and the report of a validated order as resting or filled. -/
def OfMomentum (handled : List Event) : Event → Prop
  | .marketData _ => True
  | .orderRequest request => IsMomentum request
  | .validatedOrder order => IsMomentum order ∧
    ∃ request, .orderRequest request ∈ handled ∧ order = { request with orderTs := order.orderTs }
  | .executionReport report => ∃ order price, IsMomentum order ∧
    .validatedOrder order ∈ handled ∧
    (blankTradeId report = MatchingEngine.reportOf order price order.quantity .filled ∨
      blankTradeId report = MatchingEngine.reportOf order price 0 .new)
  | .cancelOrder _ => False

/-- Each event is one of these, as seen from the events before it. -/
def AllOfMomentum (events : List Event) : Prop :=
  ∀ before event after, events = before ++ event :: after → OfMomentum before event

theorem OfMomentum.mono {handled handled' : List Event} {event : Event}
    (h : OfMomentum handled event) (hsub : handled ⊆ handled') : OfMomentum handled' event := by
  cases event with
  | validatedOrder order =>
    obtain ⟨hmomentum,request,hrequest,heq⟩ := h
    exact ⟨hmomentum,request,hsub hrequest,heq⟩
  | executionReport report =>
    obtain ⟨order,price,hmomentum,horder,hreport⟩ := h
    exact ⟨order,price,hmomentum,hsub horder,hreport⟩
  | _ => exact h

theorem OfMomentum.strategyId {handled : List Event} {report : ExecutionReport}
    (h : OfMomentum handled (.executionReport report)) : report.strategyId = 2 := by
  obtain ⟨order,price,hmomentum,-,hfilled | hnew⟩ := h
  · have hid : report.strategyId = order.strategyId := congrArg ExecutionReport.strategyId hfilled
    rw [hid, hmomentum.strategyId]
  · have hid : report.strategyId = order.strategyId := congrArg ExecutionReport.strategyId hnew
    rw [hid, hmomentum.strategyId]

namespace AllOfMomentum

theorem nil : AllOfMomentum [] := by
  intro before event after h
  simp at h

theorem concat {events : List Event} {event : Event} (h : AllOfMomentum events)
    (hevent : OfMomentum events event) : AllOfMomentum (events ++ [event]) := by
  intro before e after heq
  rcases List.eq_nil_or_concat after with rfl | ⟨rest,last,rfl⟩
  · obtain ⟨rfl,hlast⟩ := List.append_inj' heq rfl
    obtain rfl : event = e := by simpa using hlast
    exact hevent
  · have hsplit : events ++ [event] = (before ++ e :: rest) ++ [last] := by
      rw [heq, List.concat_eq_append, List.append_assoc, List.cons_append]
    exact h before e rest (List.append_inj' hsplit rfl).1

theorem mem {events : List Event} (h : AllOfMomentum events) :
    ∀ event ∈ events, OfMomentum events event := by
  intro event hevent
  obtain ⟨before,after,rfl⟩ := List.append_of_mem hevent
  exact (h before event after rfl).mono (List.subset_append_left _ _)

end AllOfMomentum

/-- The market maker has seen positions and nothing else. -/
def MarketMakerIdle (engine : StrategyEngine) : Prop :=
  ∃ position s, engine =
    [.marketMaker { MarketMakerStrategy.init with currentPosition := position },.momentum s]

/-- Components, events in flight and handled events of a system in which only the momentum strategy
trades. -/
structure OnlyMomentum (c : Components StrategyEngine) (p : Multiset Event) (done : List Event) :
    Prop where
  book : c.orderBook = .init
  strategy : MarketMakerIdle c.strategy
  resting : ∀ order ∈ c.matchingEngine.restingOrders,
    IsMomentum order ∧ .validatedOrder order ∈ done
  inFlight : ∀ event ∈ p, OfMomentum done event
  handled : AllOfMomentum done
  entries : ∀ id ∈ c.pnlEngine.strategyStats, id = 2

/-- A limit order is never rejected. -/
theorem processOrder_limit {e : MatchingEngine} {order : OrderRequest} {report : ExecutionReport}
    (hlimit : order.type = .limit) (h : report ∈ (e.processOrder order).2) : ∃ price,
      blankTradeId report = MatchingEngine.reportOf order price order.quantity .filled ∨
      blankTradeId report = MatchingEngine.reportOf order price 0 .new := by
  have hprocess : e.processOrder order = e.matchLimitOrder order := by
    simp [MatchingEngine.processOrder, hlimit]
  rw [hprocess, MatchingEngine.matchLimitOrder] at h
  cases hmatch : e.limitMatch order with
  | some price =>
    rw [hmatch] at h
    obtain rfl := List.mem_singleton.mp h
    exact ⟨price,.inl rfl⟩
  | none =>
    rw [hmatch] at h
    obtain rfl := List.mem_singleton.mp h
    exact ⟨order.price,.inr rfl⟩

namespace OnlyMomentum
variable {c : Components StrategyEngine} {p : Multiset Event} {done : List Event} {event : Event}
  (clock : Clock)

/-- What a handler pushes. -/
theorem dispatch_pushes (h : OnlyMomentum c (event ::ₘ p) done) :
    ∀ pushed ∈ (c.wired clock event).2, OfMomentum (done ++ [event]) pushed := by
  have hevent : OfMomentum done event := h.inFlight event (Multiset.mem_cons_self event p)
  have hlast : event ∈ done ++ [event] := List.mem_append_right _ (List.mem_singleton_self event)
  obtain ⟨position,s,hstrategy⟩ := h.strategy
  intro pushed hpushed
  cases event with
  | marketData md =>
    rw [(Components.wired_signal clock h.book hstrategy md).2] at hpushed
    cases List.mem_append.mp hpushed with
    | inl hsignal =>
      obtain ⟨order,horder,rfl⟩ := List.mem_map.mp hsignal
      have hmomentum := (momentumSignal_turns s md).2 order (Option.mem_toList.mp horder)
      exact ⟨hmomentum.strategyId,hmomentum.type,hmomentum.quantity⟩
    | inr hreport =>
      obtain ⟨report,hmem,rfl⟩ := List.mem_map.mp hreport
      obtain ⟨order,horder,-,hblank⟩ := c.matchingEngine.updateMarketPrice_mem hmem
      obtain ⟨hmomentum,hhandled⟩ := h.resting order horder
      exact ⟨order,_,hmomentum,List.mem_append_left _ hhandled,.inl hblank⟩
  | orderRequest request =>
    have hrequest : IsMomentum request := hevent
    cases hv : Oms.OrderManager.validateOrder c.risk request with
    | true =>
      rw [Components.wired, Components.dispatch,
        Components.onOrderRequest_accepted clock c hv] at hpushed
      rw [List.mem_singleton.mp hpushed]
      exact ⟨⟨hrequest.strategyId,hrequest.type,hrequest.quantity⟩,request,hlast,rfl⟩
    | false =>
      rw [Components.wired, Components.dispatch,
        Components.onOrderRequest_rejected clock c hv] at hpushed
      exact absurd hpushed List.not_mem_nil
  | validatedOrder order =>
    obtain ⟨report,hmem,rfl⟩ := List.mem_map.mp hpushed
    obtain ⟨price,hreport⟩ := processOrder_limit hevent.1.type hmem
    exact ⟨order,price,hevent.1,hlast,hreport⟩
  | cancelOrder orderId => exact hevent.elim
  | executionReport report => exact absurd hpushed List.not_mem_nil

/-- Only a tick reaches the strategies. -/
theorem dispatch_strategy (h : OnlyMomentum c (event ::ₘ p) done) :
    MarketMakerIdle (c.wired clock event).1.strategy := by
  obtain ⟨position,s,hstrategy⟩ := h.strategy
  cases event with
  | marketData md =>
    rw [(Components.wired_signal clock h.book hstrategy md).1]
    exact ⟨_,_,rfl⟩
  | executionReport report =>
    have hsame : (c.wired clock (.executionReport report)).1.strategy = c.strategy := by
      simp only [Components.wired, Components.dispatch, Components.onExecutionReport]
      split <;> rfl
    rw [hsame]
    exact ⟨position,s,hstrategy⟩
  | _ => exact ⟨position,s,hstrategy⟩

theorem dispatch_resting (h : OnlyMomentum c (event ::ₘ p) done) :
    ∀ order ∈ (c.wired clock event).1.matchingEngine.restingOrders,
      IsMomentum order ∧ .validatedOrder order ∈ done ++ [event] := by
  have hevent : OfMomentum done event := h.inFlight event (Multiset.mem_cons_self event p)
  have hbefore : ∀ order ∈ c.matchingEngine.restingOrders,
      IsMomentum order ∧ .validatedOrder order ∈ done ++ [event] := by
    intro order horder
    obtain ⟨hmomentum,hhandled⟩ := h.resting order horder
    exact ⟨hmomentum,List.mem_append_left _ hhandled⟩
  cases event with
  | marketData md =>
    intro order horder
    simp only [Components.wired, Components.dispatch, Components.onMarketData,
      MatchingEngine.updateMarketPrice_restingOrders] at horder
    exact hbefore order (List.mem_of_mem_filter horder)
  | validatedOrder order =>
    have hold : (c.matchingEngine.processOrder order).1.restingOrders =
        c.matchingEngine.restingOrders →
        ∀ o ∈ (c.matchingEngine.processOrder order).1.restingOrders,
          IsMomentum o ∧ .validatedOrder o ∈ done ++ [.validatedOrder order] := by
      intro hsame
      rw [hsame]
      exact hbefore
    cases c.matchingEngine.processOrder_arrival order with
    | filled _ _ hresting => exact hold hresting
    | rejected hresting => exact hold hresting
    | rested hresting =>
      intro o ho
      simp only [Components.wired, Components.dispatch, Components.onValidatedOrder,
        hresting] at ho
      cases List.mem_append.mp ho with
      | inl hrest => exact hbefore o hrest
      | inr hnew =>
        rw [List.mem_singleton.mp hnew]
        exact ⟨hevent.1,List.mem_append_right _ (List.mem_singleton_self _)⟩
  | executionReport report =>
    rw [Components.wired, Components.dispatch, Components.onExecutionReport_matchingEngine]
    exact hbefore
  | _ => exact hbefore

/-- Only the fills of the strategy get an entry. -/
theorem dispatch_entries (h : OnlyMomentum c (event ::ₘ p) done) :
    ∀ id ∈ (c.wired clock event).1.pnlEngine.strategyStats, id = 2 := by
  have hevent : OfMomentum done event := h.inFlight event (Multiset.mem_cons_self event p)
  cases event with
  | executionReport report =>
    intro id hid
    rw [Components.wired, Components.dispatch, Components.onExecutionReport_pnlEngine,
      PnlEngine.updatePnl, Std.TreeMap.mem_map] at hid
    by_cases hfilled : report.status = .filled
    · rw [if_pos hfilled, PnlEngine.onFill, Std.TreeMap.mem_insert,
        Std.LawfulEqOrd.compare_eq_iff_eq] at hid
      cases hid with
      | inl hreported => rw [← hreported, hevent.strategyId]
      | inr hbefore => exact h.entries id hbefore
    · rw [if_neg hfilled] at hid
      exact h.entries id hid
  | _ => exact h.entries

theorem handle (h : OnlyMomentum c (event ::ₘ p) done) :
    OnlyMomentum (c.wired clock event).1 (p + (c.wired clock event).2) (done ++ [event]) where
  book := (EventLoop.dispatch_orderBook _ clock c event).trans h.book
  strategy := h.dispatch_strategy clock
  resting := h.dispatch_resting clock
  inFlight e he := by
    cases Multiset.mem_add.mp he with
    | inl hold =>
      exact (h.inFlight e (Multiset.mem_cons_of_mem hold)).mono (List.subset_append_left _ _)
    | inr hnew => exact h.dispatch_pushes clock e (Multiset.mem_coe.mp hnew)
  handled := h.handled.concat (h.inFlight event (Multiset.mem_cons_self event p))
  entries := h.dispatch_entries clock

end OnlyMomentum

/-- The wired system, in any order of events and whatever is lost. -/
theorem Unordered.onlyMomentum {J : Event → Prop}
    (hticks : ∀ event, J event → Backtest.IsTick event)
    {maxPosition : ℚ} {c : Components StrategyEngine} {p : Multiset Event} {done : List Event}
    (h : Unordered StrategyEngine.api J StrategyEngine.main maxPosition c p done) :
    OnlyMomentum c p done := by
  induction h with
  | init =>
    exact ⟨rfl,⟨0,.init,rfl⟩,fun _ h => absurd h List.not_mem_nil,
      fun _ h => absurd h (Multiset.notMem_zero _),.nil,
      fun _ h => absurd h Std.TreeMap.not_mem_emptyc⟩
  | input event hevent _ ih =>
    refine ⟨ih.book,ih.strategy,ih.resting,?_,ih.handled,ih.entries⟩
    intro e he
    cases Multiset.mem_cons.mp he with
    | inl hnew =>
      rw [hnew]
      have htick := hticks event hevent
      cases event <;> trivial
    | inr hold => exact ih.inFlight e hold
  | lose hle _ ih =>
    exact ⟨ih.book,ih.strategy,ih.resting,fun e he => ih.inFlight e (Multiset.mem_of_le hle he),
      ih.handled,ih.entries⟩
  | handle clock event _ ih => exact ih.handle clock

section
variable {engine : PnlEngine}

/-- With fills of one strategy only, the map is empty or has its entry. -/
theorem toList_of_entries (h : ∀ id ∈ engine.strategyStats, id = 2) :
    engine.strategyStats.toList = [] ∧ engine.stats 2 = .init ∨
      engine.strategyStats.toList = [(2,engine.stats 2)] := by
  have hall : engine.strategyStats.toList.filter (fun entry => 2 == entry.1) =
      engine.strategyStats.toList := by
    rw [List.filter_eq_self]
    rintro ⟨id,stats⟩ hentry
    have hmem : id ∈ engine.strategyStats := by
      rw [Std.TreeMap.mem_iff_isSome_getElem?,
        Std.TreeMap.mem_toList_iff_getElem?_eq_some.mp hentry]
      rfl
    rw [h id hmem]
    rfl
  cases hget : engine.strategyStats[2]? with
  | none =>
    left
    have hstats : engine.stats 2 = .init := by
      rw [PnlEngine.stats, Std.TreeMap.getD_eq_getD_getElem?, hget, Option.getD_none]
    refine ⟨?_,hstats⟩
    rw [← hall, List.filter_eq_nil_iff]
    rintro ⟨id,stats⟩ hentry hid
    obtain rfl : 2 = id := eq_of_beq hid
    rw [Std.TreeMap.mem_toList_iff_getElem?_eq_some.mp hentry] at hget
    contradiction
  | some stats =>
    right
    have hentry : (2,stats) ∈ engine.strategyStats.toList :=
      Std.TreeMap.mem_toList_iff_getElem?_eq_some.mpr hget
    rw [PnlEngine.stats_of_mem hentry, ← hall]
    exact filter_key_eq_singleton (distinct_toList _) hentry

/-- Profit is realised only by fills that are counted. -/
theorem realizedPnl_eq_zero {calls : List PnlCall} {id : ℕ}
    (h : ((PnlEngine.after calls).stats id).trades = 0) :
    ((PnlEngine.after calls).stats id).realizedPnl = 0 := by
  induction calls using List.reverseRecOn with
  | nil => rfl
  | append_singleton calls call ih =>
    rw [PnlEngine.after_snoc] at h ⊢
    cases call with
    | updatePnl price =>
      rw [PnlEngine.apply, PnlEngine.stats_updatePnl, mark_trades] at h
      rw [PnlEngine.apply, PnlEngine.stats_updatePnl, StrategyStats.mark_realizedPnl]
      exact ih h
    | onFill strategyId side price quantity =>
      rw [PnlEngine.apply, PnlEngine.stats_onFill] at h ⊢
      by_cases hid : id = strategyId
      · subst hid
        rw [if_pos rfl] at h ⊢
        by_cases haverages :
            ((PnlEngine.after calls).stats id).Averages (quantity * side.sign)
        · rw [StrategyStats.fill_of_averages haverages] at h ⊢
          exact ih h
        · rw [StrategyStats.fill_of_not_averages haverages] at h
          contradiction
      · rw [if_neg hid] at h ⊢
        exact ih h

/-- One strategy with profit realised counts for half. -/
theorem getWinRate_of_entries {calls : List PnlCall} (hengine : engine = PnlEngine.after calls)
    (h : ∀ id ∈ engine.strategyStats, id = 2) :
    engine.getWinRate * 100 = if 0 < (engine.stats 2).realizedPnl then 50 else 0 := by
  have htrades : 0 < (engine.stats 2).realizedPnl → (engine.stats 2).trades ≠ 0 := by
    intro hwin hzero
    rw [hengine] at hwin hzero
    exact absurd (realizedPnl_eq_zero hzero) hwin.ne'
  cases toList_of_entries h with
  | inl hempty =>
    rw [hempty.2]
    simp [PnlEngine.getWinRate, PnlEngine.getTotalTrades, hempty.1, StrategyStats.init]
  | inr hone =>
    by_cases hwin : 0 < (engine.stats 2).realizedPnl
    · have hcounted := Nat.pos_of_ne_zero (htrades hwin)
      simp only [PnlEngine.getWinRate, PnlEngine.getTotalTrades, hone, gt_iff_lt, hwin,
        List.map_cons, List.map_nil, List.sum_singleton, hcounted, if_true, decide_true,
        List.filter_cons, List.filter_nil, List.length_singleton]
      norm_num
    · simp [PnlEngine.getWinRate, PnlEngine.getTotalTrades, hone, hwin]

end

/-- All fills are fills of the one strategy. -/
theorem filter_reportsOf {events : List Event}
    (h : ∀ report, .executionReport report ∈ events → report.strategyId = 2) :
    (reportsOf events).filter (fun report => report.status = .filled ∧ report.strategyId = 2) =
      filledReports events := by
  induction events with
  | nil => rfl
  | cons event events ih =>
    have hrest := ih (fun report hreport => h report (List.mem_cons_of_mem _ hreport))
    cases event with
    | executionReport report =>
      have hid := h report List.mem_cons_self
      by_cases hfilled : report.status = .filled
      · simpa [reportsOf, reportOf?, filledReports, filledReport, hfilled, hid] using hrest
      · simpa [reportsOf, reportOf?, filledReports, filledReport, hfilled] using hrest
    | _ =>
      simpa [reportsOf, reportOf?, filledReports, filledReport, List.filterMap_cons] using hrest

/-- The win rate in the summary of the wired system. -/
theorem Unordered.winRate {maxPosition : ℚ} {c : Components StrategyEngine} {p : Multiset Event}
    {done : List Event}
    (h : Unordered StrategyEngine.api Backtest.IsTick StrategyEngine.main maxPosition c p done) :
    c.metrics.winRate =
      if 0 < (Book.ofTrades ((filledReports done).map tradeOf)).realized then 50 else 0 := by
  have honly := h.onlyMomentum (fun _ htick => htick)
  rw [Components.metrics]
  dsimp only
  rw [getWinRate_of_entries h.pnlEngine_eq honly.entries, h.pnlEngine_eq,
    ← filter_reportsOf (fun report hreport => (honly.handled.mem _ hreport).strategyId),
    ← fillsOf_pnlCalls, ← PnlEngine.book_eq
      (by norm_num [epsilon]) h.tradesLots.calls 2]
  rfl

namespace Backtest

/-- In every backtest that main.cpp runs, the market maker stays idle. What is handled are events
that the replay has pushed, in their order, which are rows of the file if it has no malformed line,
limit orders of the momentum strategy for a half, and reports of handled ones as resting or filled.
The win rate printed is 50 % if these fills have realised a profit at average cost, and 0 %
otherwise. -/
theorem only_momentum_trades (maxPosition : ℚ) (file : Option (List Replay.Line))
    (turns : List Turn) :
    let final := run StrategyEngine.api (init StrategyEngine.main maxPosition file) turns
    let fills := filledReports (popped final.2)
    let pushed := replayed StrategyEngine.api StrategyEngine.main maxPosition file turns
    MarketMakerIdle final.1.components.strategy ∧
    AllOfMomentum (popped final.2) ∧
    (ticksOf (popped final.2)).Sublist pushed ∧
    (∀ lines, file = some lines → (∀ line ∈ lines, Replay.Acceptable line) →
      pushed <+: lines.filterMap Replay.rowEvent) ∧
    final.1.components.metrics.winRate =
      if 0 < (Book.ofTrades (fills.map tradeOf)).realized then 50 else 0 := by
  intro final fills pushed
  have hunordered := unordered StrategyEngine.api StrategyEngine.main maxPosition file turns
  have honly := hunordered.onlyMomentum (fun _ htick => htick)
  refine ⟨honly.strategy,honly.handled,ticksOf_popped_sublist ..,?_,hunordered.winRate⟩
  rintro lines rfl hlines
  exact replayed_rows _ _ _ _ hlines

/-- A file on which the momentum strategy buys, sells with a profit and buys again. -/
def signalFile : List Replay.Line :=
  List.replicate 49 "B,100,1,1,0".toList ++ List.replicate 3 "B,102,1,1,0".toList ++
    List.replicate 10 "B,200,1,1,0".toList ++ List.replicate 10 "B,110,1,1,0".toList ++
      List.replicate 2 "B,300,1,1,0".toList

/-- The feed thread moves slowly enough for the processor thread to keep up, until the second buy
order is open. -/
def signalTurns : List Turn :=
  (List.replicate 150
    (.feed ⟨[],0,0,0,false⟩ :: List.replicate 8 (.processor (fun _ => 0)))).flatten

end Backtest
end HftEngine.Main
