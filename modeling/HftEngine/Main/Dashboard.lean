import HftEngine.Main.OnlyMomentum
import HftEngine.Main.OpenOrders
import HftEngine.Ui.TerminalUi
import Mathlib.Data.List.DropRight

/-! What the UI loop of main.cpp shows, told by the events that the processor thread has handled. -/
namespace HftEngine.Main
open HftEngine.Core Book Strategy Pnl Oms Fifo MapSum Ui

/-- An append to the last `n` items that drops the first one when there are too many. -/
theorem rtake_concat {α : Type*} (n : ℕ) (xs : List α) (x : α) :
    (xs ++ [x]).rtake n = if (xs.rtake n ++ [x]).length > n then (xs.rtake n ++ [x]).drop 1
      else xs.rtake n ++ [x] := by
  by_cases hn : n ≤ xs.length
  · have hlong : (xs.rtake n ++ [x]).length > n := by
      simp only [List.rtake, List.length_append, List.length_drop, List.length_singleton]
      omega
    rw [if_pos hlong]
    cases n with
    | zero => simp [List.rtake]
    | succ n =>
      have hsome : 1 ≤ (xs.rtake (n + 1)).length := by
        simp only [List.rtake, List.length_drop]
        omega
      rw [List.rtake_concat_succ, List.drop_append_of_le_length hsome, List.rtake, List.rtake,
        List.drop_drop]
      congr 2
      omega
  · have hshort : ¬(xs.rtake n ++ [x]).length > n := by
      simp only [List.rtake, List.length_append, List.length_drop, List.length_singleton]
      omega
    rw [if_neg hshort, List.rtake, List.rtake, List.length_append, List.length_singleton]
    have hzero : xs.length + 1 - n = 0 := by omega
    have hzero' : xs.length - n = 0 := by omega
    rw [hzero, hzero', List.drop_zero, List.drop_zero]

theorem Components.dispatch_tradeHistory {σ : Type} (S : StrategyApi σ) (clock : Clock)
    (c : Components σ) (event : Event) : (c.dispatch S clock event).1.tradeHistory =
      match filledReport event with
      | some report => (c.recordHistory report).tradeHistory
      | none => c.tradeHistory := by
  cases event with
  | executionReport report =>
    by_cases h : report.status = .filled <;>
      simp [dispatch, onExecutionReport, filledReport, h, recordFill, recordHistory]
  | _ => rfl

/-- The history keeps the last 1000 fills. -/
theorem Unordered.tradeHistory {σ : Type} {S : StrategyApi σ} {J : Event → Prop} {strategy : σ}
    {maxPosition : ℚ} {c : Components σ} {p : Multiset Event} {done : List Event}
    (h : Unordered S J strategy maxPosition c p done) :
    c.tradeHistory = (filledReports done).rtake 1000 := by
  induction h with
  | init => rfl
  | input _ _ _ ih => exact ih
  | lose _ _ ih => exact ih
  | handle clock event _ ih =>
    rw [Components.dispatch_tradeHistory, filledReports_append]
    cases hfilled : filledReport event with
    | none =>
      have hnone : filledReports [event] = [] := by simp [filledReports, hfilled]
      rw [hnone, List.append_nil]
      exact ih
    | some report =>
      have hone : filledReports [event] = [report] := by simp [filledReports, hfilled]
      rw [hone, rtake_concat, ← ih]
      rfl

/-- A strategy has an entry once it has a fill. -/
theorem mem_strategyStats_iff (id : ℕ) (calls : List PnlCall) :
    id ∈ (PnlEngine.after calls).strategyStats ↔ Pnl.fillsOf id calls ≠ [] := by
  induction calls using List.reverseRecOn with
  | nil => exact iff_of_false Std.TreeMap.not_mem_emptyc (fun h => h rfl)
  | append_singleton calls call ih =>
    rw [PnlEngine.after_snoc]
    cases call with
    | updatePnl price =>
      rw [PnlEngine.apply, PnlEngine.updatePnl, Std.TreeMap.mem_map, fillsOf_snoc_updatePnl]
      exact ih
    | onFill strategyId side price quantity =>
      rw [PnlEngine.apply, PnlEngine.onFill, Std.TreeMap.mem_insert, compare_eq_iff_eq,
        fillsOf_snoc_onFill, ih]
      by_cases hid : strategyId = id <;> simp [hid]

/-- The order is requested, and not reported as filled or rejected since. -/
def StillOpen (done : List Event) (order : OrderRequest) : Prop :=
  ∃ before after : List Event, done = before ++ .orderRequest order :: after ∧
    order.orderId ∉ closedIds after

theorem StillOpen.snoc {done : List Event} {order : OrderRequest} (h : StillOpen done order)
    {event : Event} (hevent : closedId event ≠ some order.orderId) :
    StillOpen (done ++ [event]) order := by
  obtain ⟨before,after,rfl,hopen⟩ := h
  refine ⟨before,after ++ [event],by simp,?_⟩
  rw [closedIds_append, List.mem_append, not_or]
  refine ⟨hopen,?_⟩
  intro hclosed
  obtain ⟨closing,hmem,hid⟩ := List.mem_filterMap.mp hclosed
  rw [List.mem_singleton.mp hmem] at hid
  exact hevent hid

/-- The table holds open orders under their ids. -/
def HoldsOpen (om : OrderManager) (done : List Event) : Prop :=
  ∀ (id : ℕ) (order : OrderRequest), om.activeOrders[id]? = some order →
    order.orderId = id ∧ StillOpen done order

namespace HoldsOpen
variable {om : OrderManager} {done : List Event}

theorem snoc (h : HoldsOpen om done) {event : Event} (hevent : closedId event = none) :
    HoldsOpen om (done ++ [event]) := by
  intro id order hget
  obtain ⟨hid,hopen⟩ := h id order hget
  refine ⟨hid,hopen.snoc ?_⟩
  rw [hevent]
  exact (Option.some_ne_none _).symm

theorem handleOrderRequest (h : HoldsOpen om done) (risk : Risk.RiskEngine) (clock : Clock)
    (request : OrderRequest) :
    HoldsOpen (om.handleOrderRequest risk clock request).1 (done ++ [.orderRequest request]) := by
  have hold : HoldsOpen om (done ++ [.orderRequest request]) := h.snoc rfl
  unfold OrderManager.handleOrderRequest
  split
  · intro id order hget
    dsimp only at hget
    rw [Std.TreeMap.getElem?_insert] at hget
    split at hget
    · rename_i hid
      obtain rfl := Option.some.inj hget
      exact ⟨compare_eq_iff_eq.mp hid,done,[],rfl,List.not_mem_nil⟩
    · exact hold id order hget
  · exact hold

theorem handleExecutionReport (h : HoldsOpen om done) (report : ExecutionReport) :
    HoldsOpen (om.handleExecutionReport report) (done ++ [.executionReport report]) := by
  intro id order hget
  have hmem : id ∈ (om.handleExecutionReport report).activeOrders := by
    rw [Std.TreeMap.mem_iff_isSome_getElem?, hget]
    rfl
  obtain ⟨-,hnot⟩ := (Components.mem_handleExecutionReport om report id).mp hmem
  have hbefore : om.activeOrders[id]? = some order := by
    unfold OrderManager.handleExecutionReport at hget
    split at hget
    · split at hget
      · dsimp only at hget
        rw [Std.TreeMap.getElem?_erase] at hget
        split at hget
        · contradiction
        · exact hget
      · exact hget
    · exact hget
  obtain ⟨hid,hopen⟩ := h id order hbefore
  refine ⟨hid,hopen.snoc ?_⟩
  intro hclosed
  unfold closedId at hclosed
  dsimp only at hclosed
  split at hclosed
  · rename_i hstatus
    apply hnot
    refine ⟨(Option.some.inj hclosed).trans hid,?_⟩
    cases hstatus with
    | inl hfilled => exact .inl hfilled
    | inr hrejected => exact .inr (.inr hrejected)
  · contradiction

theorem mem_getActiveOrders (h : HoldsOpen om done) {order : OrderRequest}
    (horder : order ∈ om.getActiveOrders) : StillOpen done order := by
  obtain ⟨⟨id,order'⟩,hentry,rfl⟩ := List.mem_map.mp horder
  exact (h id order' (Std.TreeMap.mem_toList_iff_getElem?_eq_some.mp hentry)).2

end HoldsOpen

/-- The open orders on the screen are open, whatever the strategies do and whatever is lost. -/
theorem Unordered.holdsOpen {σ : Type} {S : StrategyApi σ} {J : Event → Prop} {strategy : σ}
    {maxPosition : ℚ} {c : Components σ} {p : Multiset Event} {done : List Event}
    (h : Unordered S J strategy maxPosition c p done) : HoldsOpen c.orderManager done := by
  induction h with
  | init =>
    intro id order hget
    have hnone : (OrderManager.init.activeOrders)[id]? = none := Std.TreeMap.getElem?_emptyc
    rw [Components.init, hnone] at hget
    contradiction
  | input _ _ _ ih => exact ih
  | lose _ _ ih => exact ih
  | @handle c _ _ clock event _ ih =>
    rw [Components.dispatch_orderManager]
    cases event with
    | orderRequest request => exact ih.handleOrderRequest c.risk clock request
    | executionReport report => exact ih.handleExecutionReport report
    | _ => exact ih.snoc rfl

section
variable {maxPosition : ℚ} {c : Components StrategyEngine} {p : Multiset Event} {done : List Event}

/-- The row of the momentum strategy, which repeats the totals, is there once it has a fill. -/
theorem Unordered.attribution
    (h : Unordered StrategyEngine.api Backtest.IsTick StrategyEngine.main maxPosition c p done) :
    c.pnlEngine.strategyStats.toList.map
        (fun entry => TerminalUi.strategyContent entry.1 entry.2) =
      if filledReports done = [] then [] else
        [.strategy 2 "Momentum  " (equityAfter (reportsOf done))
          (netPosition (filledReports done)) (closingFills (reportsOf done))] := by
  have honly := h.onlyMomentum (fun _ htick => htick)
  obtain ⟨hpnl,-,htrades,-,hposition⟩ := h.summary
  have hmem : 2 ∈ c.pnlEngine.strategyStats ↔ filledReports done ≠ [] := by
    rw [h.pnlEngine_eq, mem_strategyStats_iff, fillsOf_pnlCalls,
      filter_reportsOf (fun report hreport => (honly.handled.mem _ hreport).strategyId), Ne,
      List.map_eq_nil_iff]
  cases toList_of_entries honly.entries with
  | inl hempty =>
    have hnone : filledReports done = [] := by
      by_contra hsome
      have hentry := Std.TreeMap.mem_iff_isSome_getElem?.mp (hmem.mpr hsome)
      obtain ⟨stats,hget⟩ := Option.isSome_iff_exists.mp hentry
      have hlisted := Std.TreeMap.mem_toList_iff_getElem?_eq_some.mpr hget
      rw [hempty.1] at hlisted
      exact absurd hlisted List.not_mem_nil
    rw [hempty.1, if_pos hnone, List.map_nil]
  | inr hone =>
    have hsome : filledReports done ≠ [] := by
      rw [← hmem, Std.TreeMap.mem_iff_isSome_getElem?]
      have hlisted : (2,c.pnlEngine.stats 2) ∈ c.pnlEngine.strategyStats.toList := by
        rw [hone]
        exact List.mem_singleton_self _
      rw [Std.TreeMap.mem_toList_iff_getElem?_eq_some.mp hlisted]
      rfl
    have hequity : (c.pnlEngine.stats 2).equity = equityAfter (reportsOf done) := by
      rw [← hpnl, Components.metrics]
      simp [PnlEngine.getTotalPnl, sumBy_eq_sum, hone]
    have hheld : (c.pnlEngine.stats 2).position = netPosition (filledReports done) := by
      rw [← hposition]
      simp [PnlEngine.getTotalPosition, sumBy_eq_sum, hone]
    have hcount : (c.pnlEngine.stats 2).trades = closingFills (reportsOf done) := by
      rw [← htrades, Components.metrics]
      simp [PnlEngine.getTotalTrades, hone]
    rw [hone, if_neg hsome, List.map_singleton, ← hequity, ← hheld, ← hcount]
    rfl

/-- Whatever is open is an order of the momentum strategy. -/
theorem StillOpen.isMomentum {order : OrderRequest} (h : StillOpen done order)
    (hhandled : AllOfMomentum done) : IsMomentum order := by
  obtain ⟨before,after,heq,-⟩ := h
  exact hhandled before (.orderRequest order) after heq

end

namespace Backtest

/-- What an update of the screen shows between two handled events, with the open orders in the order
in which the table is read. -/
def dashboard {σ : Type} (s : Backtest σ) (eventsPerSec : ℕ) (openOrders : List OrderRequest) :
    List Printed :=
  TerminalUi.update s.components.orderBook s.components.pnlEngine.getTotalPnl
    s.components.pnlEngine.getTotalPosition s.components.pnlEngine.strategyStats
    s.components.latencyMonitor.getTotalLatencyStats.2.p99Ns s.queue.length eventsPerSec openOrders
    s.components.tradeHistory

/-- The screen of a backtest in every interleaving: in each of its two columns a line is printed
below those before it, so that only a line which is too long for the left column meets another; the
totals and, once there is a fill, the one row of the attribution are those of the handled reports;
the book is empty; the trades are the last 8 handled fills; and the orders shown as open are orders
of the momentum strategy that have not been closed. -/
theorem dashboard_exact (maxPosition : ℚ) (file : Option (List Replay.Line)) (turns : List Turn)
    (eventsPerSec : ℕ) {openOrders : List OrderRequest}
    (hopen : openOrders.Perm (run StrategyEngine.api (init StrategyEngine.main maxPosition file)
      turns).1.components.orderManager.getActiveOrders) :
    let final := run StrategyEngine.api (init StrategyEngine.main maxPosition file) turns
    let reports := reportsOf (popped final.2)
    let fills := filledReports (popped final.2)
    let screen := final.1.dashboard eventsPerSec openOrders
    TopDown screen ∧ (∀ line ∈ screen, line.column = 0 ∨ line.column = 50) ∧
    valuesOf screen =
      [.totals (netPosition fills) (equityAfter reports)] ++
      (if fills = [] then [] else [.strategy 2 "Momentum  " (equityAfter reports)
        (netPosition fills) (closingFills reports)]) ++
      [.microstructure 0 0] ++ (openOrders.take 8).map TerminalUi.orderContent ++
      (fills.reverse.take 8).map TerminalUi.tradeContent ++
      [.throughput eventsPerSec final.1.queue.length,
        .latency final.1.components.latencyMonitor.getTotalLatencyStats.2.p99Ns] ∧
    ∀ order ∈ openOrders.take 8, IsMomentum order ∧ StillOpen (popped final.2) order := by
  intro final reports fills screen
  have hunordered := unordered StrategyEngine.api StrategyEngine.main maxPosition file turns
  have honly := hunordered.onlyMomentum (fun _ htick => htick)
  obtain ⟨hpnl,-,-,-,hposition⟩ := hunordered.summary
  obtain ⟨left,right,hfilled⟩ : ∃ left right, Filled screen left right :=
    TerminalUi.filled_update ..
  refine ⟨hfilled.topDown,fun line hline => (hfilled.places line hline).imp And.left And.left,?_,?_⟩
  · have hhistory : final.1.components.tradeHistory.reverse.take 8 = fills.reverse.take 8 := by
      rw [hunordered.tradeHistory, List.rtake_eq_reverse_take_reverse, List.reverse_reverse,
        List.take_take]
      rfl
    have htotal : final.1.components.pnlEngine.getTotalPnl = equityAfter reports := hpnl
    dsimp only [screen, dashboard]
    rw [TerminalUi.valuesOf_update, hunordered.attribution, honly.book, hhistory, htotal,
      hposition]
    simp only [OrderBook.init, OrderBook.getTopAsks, OrderBook.getTopBids, List.take_nil,
      List.reverse_nil, List.map_nil, List.append_nil]
    rfl
  · intro order horder
    have hactive := hopen.mem_iff.mp (List.mem_of_mem_take horder)
    have hstill := hunordered.holdsOpen.mem_getActiveOrders hactive
    exact ⟨hstill.isMomentum honly.handled,hstill⟩

/-- A backtest with two fills and an order that is still open. -/
theorem dashboard_exact_signals :
    let final := run StrategyEngine.api (init StrategyEngine.main 100 (some signalFile)) signalTurns
    let openOrders := final.1.components.orderManager.getActiveOrders
    let reports := reportsOf (popped final.2)
    let fills := filledReports (popped final.2)
    let screen := final.1.dashboard 50 openOrders
    (fills.length = 2 ∧ openOrders.length = 1 ∧ closingFills reports = 1) ∧
    TopDown screen ∧ (∀ line ∈ screen, line.column = 0 ∨ line.column = 50) ∧
    valuesOf screen =
      [.totals (netPosition fills) (equityAfter reports)] ++
      (if fills = [] then [] else [.strategy 2 "Momentum  " (equityAfter reports)
        (netPosition fills) (closingFills reports)]) ++
      [.microstructure 0 0] ++ (openOrders.take 8).map TerminalUi.orderContent ++
      (fills.reverse.take 8).map TerminalUi.tradeContent ++
      [.throughput 50 final.1.queue.length,
        .latency final.1.components.latencyMonitor.getTotalLatencyStats.2.p99Ns] ∧
    ∀ order ∈ openOrders.take 8, IsMomentum order ∧ StillOpen (popped final.2) order :=
  ⟨by decide +kernel,dashboard_exact 100 _ _ 50 (List.Perm.refl _)⟩

end Backtest
end HftEngine.Main
