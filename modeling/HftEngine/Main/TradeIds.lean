import HftEngine.Exchange.Conservation
import HftEngine.Main.History
import HftEngine.Strategy.OrderIds

/-! Trade ids over whole runs. The exchange numbers its reports from one on, the queue keeps their
order and may drop some of them, so a gap in the ids that are handled is a report that was lost. -/
namespace HftEngine.Exchange
open HftEngine.Core

namespace MatchingEngine

/-- Reports numbered one after another from the id that is next. -/
structure Numbers (e : MatchingEngine) (result : MatchingEngine × List ExecutionReport) : Prop where
  ids : result.2.map ExecutionReport.tradeId = List.range' e.nextTradeId result.2.length
  next : result.1.nextTradeId = e.nextTradeId + result.2.length

theorem numbers_sweep (e : MatchingEngine) (orders : List OrderRequest) :
    Numbers e ((e.sweep orders).1,(e.sweep orders).2.2) := by
  induction orders generalizing e with
  | nil => exact ⟨rfl,rfl⟩
  | cons order rest ih =>
    rw [sweep_cons]
    by_cases h : e.crosses order = true
    · rw [if_pos h]
      obtain ⟨hids,hnext⟩ := ih (e.emitExecution order (e.oppositePrice order.side) order.quantity
        .filled order.signalTs order.orderTs).1
      constructor
      · simp only [List.map_cons, List.length_cons, List.range'_succ]
        exact congrArg (e.nextTradeId :: ·) hids
      · simp only [List.length_cons] at hnext ⊢
        rw [hnext, Nat.add_comm _ 1, ← Nat.add_assoc]
        rfl
    · rw [if_neg h]
      exact ih e

theorem numbers_updateMarketPrice (e : MatchingEngine) (md : MarketDataEvent) :
    Numbers e (e.updateMarketPrice md) := by
  rw [updateMarketPrice_eq]
  exact ⟨((e.priced md).numbers_sweep e.restingOrders).ids,
    ((e.priced md).numbers_sweep e.restingOrders).next⟩

theorem numbers_processOrder (e : MatchingEngine) (order : OrderRequest) :
    Numbers e (e.processOrder order) := by
  cases htype : order.type with
  | market =>
    simp only [processOrder, htype, if_true, matchMarketOrder]
    split_ifs <;> exact ⟨rfl,rfl⟩
  | limit =>
    simp only [processOrder, htype, reduceCtorEq, if_false, matchLimitOrder]
    cases e.limitMatch order <;> exact ⟨rfl,rfl⟩

end MatchingEngine
end HftEngine.Exchange

namespace HftEngine.Main
open HftEngine.Core Strategy Exchange Fifo

/-- The `trade_id` of a report. The counter is unbounded here; what a report carries is its value
modulo the word size. -/
def tradeId? : Event → Option ℕ
  | .executionReport report => some (report.tradeId % wordSize)
  | _ => none

def tradeIds (events : List Event) : List ℕ := events.filterMap tradeId?

@[simp] theorem tradeIds_append (xs ys : List Event) :
    tradeIds (xs ++ ys) = tradeIds xs ++ tradeIds ys := List.filterMap_append ..

theorem tradeIds_input {event : Event} (h : IsInput event) : tradeIds [event] = [] := by
  cases event <;> first | rfl | exact h.elim

theorem tradeIds_reports (reports : List ExecutionReport) :
    tradeIds (reports.map .executionReport) =
      (reports.map ExecutionReport.tradeId).map (· % wordSize) := by
  rw [tradeIds, List.filterMap_map, List.map_map]
  exact congrFun List.filterMap_eq_map' reports

theorem tradeIds_signals (signals : List StrategyEvent) :
    tradeIds (signals.map StrategyEvent.toEvent) = [] :=
  filterMap_signals tradeId? (fun event hevent => by
    cases event <;> first | rfl | exact hevent.elim) signals

/-- The ids of the first `n` reports. -/
def firstIds (n : ℕ) : List ℕ := (List.range' 1 n).map (· % wordSize)

theorem tradeIds_of_numbers {e : MatchingEngine} {result : MatchingEngine × List ExecutionReport}
    (h : e.Numbers result) {n : ℕ} (hn : e.nextTradeId = n + 1) :
    ∃ k, result.1.nextTradeId = n + k + 1 ∧
      firstIds n ++ tradeIds (result.2.map .executionReport) = firstIds (n + k) := by
  refine ⟨result.2.length,by rw [h.next, hn]; omega,?_⟩
  rw [tradeIds_reports, h.ids, hn, firstIds, firstIds, ← List.map_append, Nat.add_comm n 1,
    List.range'_append_1]

variable {σ : Type} (S : StrategyApi σ)

/-- The handlers number their reports from where the exchange stands. -/
theorem Components.dispatch_tradeIds (clock : Clock) (c : Components σ) (event : Event) {n : ℕ}
    (hn : c.matchingEngine.nextTradeId = n + 1) :
    ∃ k, (c.dispatch S clock event).1.matchingEngine.nextTradeId = n + k + 1 ∧
      firstIds n ++ tradeIds (c.dispatch S clock event).2 = firstIds (n + k) := by
  cases event with
  | marketData md =>
    obtain ⟨k,hnext,hids⟩ := tradeIds_of_numbers (c.matchingEngine.numbers_updateMarketPrice md) hn
    refine ⟨k,hnext,?_⟩
    rw [← hids, dispatch, onMarketData, tradeIds_append, tradeIds_signals]
    rfl
  | orderRequest request =>
    refine ⟨0,hn,?_⟩
    have hnone : tradeIds (c.dispatch S clock (.orderRequest request)).2 = [] := by
      cases hv : Oms.OrderManager.validateOrder c.risk request with
      | true =>
        rw [dispatch, onOrderRequest_accepted clock c hv]
        rfl
      | false =>
        rw [dispatch, onOrderRequest_rejected clock c hv]
        rfl
    rw [hnone, List.append_nil, Nat.add_zero]
  | validatedOrder order =>
    exact tradeIds_of_numbers (c.matchingEngine.numbers_processOrder order) hn
  | cancelOrder orderId =>
    have hnumbers : c.matchingEngine.Numbers (c.matchingEngine.cancelOrder orderId) := ⟨rfl,rfl⟩
    exact tradeIds_of_numbers hnumbers hn
  | executionReport report =>
    refine ⟨0,?_,?_⟩
    · rw [dispatch, onExecutionReport_matchingEngine, hn, Nat.add_zero]
    · rw [dispatch, onExecutionReport_pushes, tradeIds_signals, List.append_nil, Nat.add_zero]

/-- As long as the counter does not come round, the ids are in order. -/
theorem firstIds_pairwise {n : ℕ} (hn : n < wordSize) : (firstIds n).Pairwise (· < ·) := by
  have hsame : firstIds n = List.range' 1 n := by
    calc
      firstIds n = (List.range' 1 n).map id := List.map_congr_left fun id hid => by
        have hbound := (List.mem_range'_1.mp hid).2
        exact Nat.mod_eq_of_lt (by omega)
      _ = List.range' 1 n := List.map_id _
  rw [hsame]
  exact List.pairwise_lt_range'

namespace EventLoop

/-- Reports are numbered in the order in which they are pushed. -/
theorem tradeIds_attempted (strategy : σ) (maxPosition : ℚ) (labels : List Label) :
    ∃ n, (run S (init strategy maxPosition) labels).1.components.matchingEngine.nextTradeId =
        n + 1 ∧
      tradeIds (attempted (run S (init strategy maxPosition) labels).2) = firstIds n := by
  apply run_invariant' (I := fun c _ tr => ∃ n, c.matchingEngine.nextTradeId = n + 1 ∧
    tradeIds (attempted tr) = firstIds n)
  · rintro c p tr event ok hevent ⟨n,hn,hids⟩
    refine ⟨n,hn,?_⟩
    rw [attempted_append, tradeIds_append, hids, attempted_push, attempted_nil,
      tradeIds_input hevent, List.append_nil]
  · rintro c event p tr clock ops ⟨n,hn,hids⟩ hattempted _
    obtain ⟨k,hnext,hmore⟩ := c.dispatch_tradeIds S clock event hn
    refine ⟨n + k,hnext,?_⟩
    rw [attempted_append, tradeIds_append, hids, attempted_pop, hattempted, hmore]
  · exact ⟨0,rfl,rfl⟩

/-- In every run the reports are numbered from one on; each of them is handled, pending or dropped
by the queue; and unless the 64-bit counter comes round, reports are handled in the order of their
ids, none of them twice. -/
theorem trade_ids_accounted (strategy : σ) (maxPosition : ℚ) (labels : List Label) :
    let final := run S (init strategy maxPosition) labels
    ∃ n, tradeIds (attempted final.2) = firstIds n ∧
      (tradeIds (popped final.2) ++ tradeIds final.1.pending ++ tradeIds (refused final.2)).Perm
        (firstIds n) ∧
      (n < wordSize →
        (tradeIds (popped final.2) ++ tradeIds final.1.pending).Pairwise (· < ·)) := by
  obtain ⟨n,-,hids⟩ := tradeIds_attempted S strategy maxPosition labels
  have hfifo := congrArg tradeIds (accepted_eq (S := S) strategy maxPosition labels)
  rw [tradeIds_append] at hfifo
  dsimp only
  refine ⟨n,hids,?_,?_⟩
  · have hperm := (attempted_perm (run S (init strategy maxPosition) labels).2).filterMap tradeId?
    rw [← hfifo, ← tradeIds_append, ← hids]
    exact hperm.symm
  · intro hsmall
    have hsublist := (accepted_sublist (run S (init strategy maxPosition) labels).2).filterMap
      tradeId?
    rw [← hfifo]
    refine List.Pairwise.sublist hsublist ?_
    change (tradeIds (attempted (run S (init strategy maxPosition) labels).2)).Pairwise (· < ·)
    rw [hids]
    exact firstIds_pairwise hsmall

end EventLoop
end HftEngine.Main
