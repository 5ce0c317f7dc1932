import HftEngine.Exchange.ExecutionPrice

/-! The two crossing tests of the exchange against each other. An arriving order is tested with a
guard on the sign of the opposite price, a resting order without one. Where the guard holds, the
tests agree, and it makes no difference whether an order arrives before or after a price update. -/
set_option linter.unusedSectionVars false

namespace HftEngine.Exchange
open HftEngine.Core Number

section Generic
variable {α : Type} [Add α] [Sub α] [Div α] [LT α] [DecidableLT α] [LE α] [DecidableLE α]
  [∀ n, OfNat α n]

namespace MatchingEngine
variable (e : MatchingEngine α)

/-- The test on arrival is the test of the sweep, guarded by a positive opposite price. -/
theorem limitMatch_eq (order : OrderRequest α) : e.limitMatch order =
    if 0 < e.oppositePrice order.side ∧ e.crosses order = true
    then some (e.oppositePrice order.side) else none := by
  unfold limitMatch crosses oppositePrice
  cases order.side <;> simp

/-- At a positive market price an order with a positive price that crosses meets the guard. -/
theorem oppositePrice_pos_of_crosses [Arithmetic α] {md : MarketDataEvent α} (hmd : 0 < md.price)
    {order : OrderRequest α} (hprice : 0 < order.price)
    (h : (e.priced md).crosses order = true) : 0 < (e.priced md).oppositePrice order.side := by
  have hlimit := (e.priced md).withinLimit_of_crosses h
  unfold WithinLimit at hlimit
  cases hside : order.side with
  | buy => exact Arithmetic.add_pos hmd Arithmetic.quarter_pos
  | sell =>
    rw [hside] at hlimit
    exact Arithmetic.lt_of_lt_of_le hprice hlimit

/-- After a positive market price the test on arrival is the test of the sweep. -/
theorem updateMarketPrice_limitMatch [Arithmetic α] {md : MarketDataEvent α} (hmd : 0 < md.price)
    {order : OrderRequest α} (hprice : 0 < order.price) :
    (e.updateMarketPrice md).1.limitMatch order = if (e.priced md).crosses order = true
      then some ((e.priced md).oppositePrice order.side) else none := by
  have hsame : (e.updateMarketPrice md).1.limitMatch order = (e.priced md).limitMatch order :=
    limitMatch_of_prices (e.updateMarketPrice_bestBid md) (e.updateMarketPrice_bestAsk md)
  rw [hsame, limitMatch_eq]
  by_cases hcrosses : (e.priced md).crosses order = true
  · rw [if_pos hcrosses, if_pos ⟨e.oppositePrice_pos_of_crosses hmd hprice hcrosses,hcrosses⟩]
  · rw [if_neg hcrosses, if_neg (fun h => hcrosses h.2)]

/-- An order that does not match on arrival is appended to the resting list. -/
theorem processOrder_resting {order : OrderRequest α} (hlimit : order.type = .limit)
    (hmatch : e.limitMatch order = none) : e.processOrder order =
      ({ e with
          nextTradeId := e.nextTradeId + 1
          restingOrders := e.restingOrders ++ [order] },
        [{ reportOf order order.price 0 .new with tradeId := e.nextTradeId }]) := by
  simp only [processOrder, hlimit, reduceCtorEq, if_false, matchLimitOrder, hmatch]
  rfl

/-- An order that matches on arrival is filled there. -/
theorem processOrder_matching {order : OrderRequest α} {price : α} (hlimit : order.type = .limit)
    (hmatch : e.limitMatch order = some price) : e.processOrder order =
      ({ e with nextTradeId := e.nextTradeId + 1 },
        [{ reportOf order price order.quantity .filled with tradeId := e.nextTradeId }]) := by
  simp only [processOrder, hlimit, reduceCtorEq, if_false, matchLimitOrder, hmatch]
  rfl

end MatchingEngine

/-- The Filled reports of a price update, without their trade ids. -/
theorem updateMarketPrice_fills (e : MatchingEngine α) (md : MarketDataEvent α) :
    (reportsWith .filled (e.updateMarketPrice md).2).map blankTradeId =
      (e.restingOrders.filter (e.priced md).crosses).map (e.priced md).fillOf := by
  have hreports := e.updateMarketPrice_reports md
  rw [reportsWith_batch hreports (fun _ => rfl), if_pos rfl, hreports]

section Arrival
variable (e : MatchingEngine α) {md : MarketDataEvent α} {order : OrderRequest α}

/-- An order that arrives after a positive market price is filled exactly if the sweep would have
filled it. -/
theorem updateMarketPrice_arrival_fills [Arithmetic α] (hlimit : order.type = .limit)
    (hprice : 0 < order.price) (hmd : 0 < md.price) :
    (reportsWith .filled ((e.updateMarketPrice md).1.processOrder order).2).map blankTradeId =
      ([order].filter (e.priced md).crosses).map (e.priced md).fillOf := by
  have hafter := e.updateMarketPrice_limitMatch hmd hprice
  by_cases hcrosses : (e.priced md).crosses order = true
  · rw [if_pos hcrosses] at hafter
    rw [MatchingEngine.processOrder_matching _ hlimit hafter, List.filter_cons_of_pos hcrosses]
    rfl
  · rw [if_neg hcrosses] at hafter
    rw [MatchingEngine.processOrder_resting _ hlimit hafter, List.filter_cons_of_neg hcrosses]
    rfl

/-- It comes to rest exactly if the sweep would have kept it. -/
theorem updateMarketPrice_arrival_resting [Arithmetic α] (hlimit : order.type = .limit)
    (hprice : 0 < order.price) (hmd : 0 < md.price) :
    ((e.updateMarketPrice md).1.processOrder order).1.restingOrders =
      (e.restingOrders ++ [order]).filter (fun order => !(e.priced md).crosses order) := by
  have hafter := e.updateMarketPrice_limitMatch hmd hprice
  rw [List.filter_append, List.filter_singleton]
  by_cases hcrosses : (e.priced md).crosses order = true
  · rw [if_pos hcrosses] at hafter
    rw [MatchingEngine.processOrder_matching _ hlimit hafter, hcrosses]
    simp
  · rw [if_neg hcrosses] at hafter
    rw [MatchingEngine.processOrder_resting _ hlimit hafter, eq_false_of_ne_true hcrosses]
    simp

end Arrival

/-- What two runs have in common that fill the same orders in the same order, at the same prices
and quantities, and end with the same book. -/
structure SameFills (first second : MatchingEngine α × List (ExecutionReport α)) : Prop where
  fills : (reportsWith .filled first.2).map blankTradeId =
    (reportsWith .filled second.2).map blankTradeId
  restingOrders : first.1.restingOrders = second.1.restingOrders
  currentBestBid : first.1.currentBestBid = second.1.currentBestBid
  currentBestAsk : first.1.currentBestAsk = second.1.currentBestAsk

/-- For a limit order that does not match yet it makes no difference whether it arrives before or
after the next market price. -/
theorem arrival_update_comm [Arithmetic α] (e : MatchingEngine α) (order : OrderRequest α)
    (md : MarketDataEvent α) (hlimit : order.type = .limit) (hprice : 0 < order.price)
    (hmatch : e.limitMatch order = none) (hmd : 0 < md.price) :
    SameFills (MatchingEngine.machine.run e [.processOrder order,.updateMarketPrice md])
      (MatchingEngine.machine.run e [.updateMarketPrice md,.processOrder order]) := by
  have hrested := e.processOrder_resting hlimit hmatch
  have harrival := processOrder_prices (e.updateMarketPrice md).1 order
  -- the price first: the order meets the guarded test
  have hsecond := updateMarketPrice_arrival_fills e hlimit hprice hmd
  have hkept := updateMarketPrice_arrival_resting e hlimit hprice hmd
  -- the order first: it is the last one that the sweep meets
  refine ⟨?_,?_,?_,?_⟩
  · simp only [MatchingEngine.machine, Machine.run_cons, Machine.run_nil, MatchingEngine.call,
      hrested, List.append_nil, reportsWith_append, List.map_append, updateMarketPrice_fills,
      hsecond, List.filter_append]
    rfl
  · simp only [MatchingEngine.machine, Machine.run_cons, Machine.run_nil, MatchingEngine.call,
      hrested, hkept, MatchingEngine.updateMarketPrice_restingOrders]
    rfl
  · simp [MatchingEngine.machine, MatchingEngine.call, harrival.1,
      MatchingEngine.updateMarketPrice_bestBid]
  · simp [MatchingEngine.machine, MatchingEngine.call, harrival.2,
      MatchingEngine.updateMarketPrice_bestAsk]

end Generic

/-- A buy at 100 arrives before or after the ask falls to 100, which also fills a resting buy. -/
theorem arrival_update_comm_boundary :
    SameFills (α := Double)
      (MatchingEngine.machine.run ⟨101,102,2,[⟨1,0,['B'],.buy,.limit,101,1,0,0⟩]⟩
        [.processOrder ⟨2,0,['B'],.buy,.limit,100,1,0,0⟩,
          .updateMarketPrice ⟨['B'],399/4,1,0,false⟩])
      (MatchingEngine.machine.run ⟨101,102,2,[⟨1,0,['B'],.buy,.limit,101,1,0,0⟩]⟩
        [.updateMarketPrice ⟨['B'],399/4,1,0,false⟩,
          .processOrder ⟨2,0,['B'],.buy,.limit,100,1,0,0⟩]) :=
  arrival_update_comm _ _ _ rfl (by decide +kernel) (by decide +kernel) (by decide +kernel)

end HftEngine.Exchange
