import HftEngine.Exchange.MatchingEngine
import Mathlib.Tactic.NormNum

/-! What the exchange operations do to the resting list and which reports they emit. Trade
ids are the only part of a report that depends on earlier emissions, so reports are compared
after blanking them. -/
namespace HftEngine.Exchange
open HftEngine.Core
variable {α : Type}

namespace MatchingEngine

/-- The best price on the other side of an order. -/
def oppositePrice (e : MatchingEngine α) : OrderSide → α
  | .buy => e.currentBestAsk
  | .sell => e.currentBestBid

/-- The sweep's test for a resting order, without a test of the sign of the price. -/
def crosses [LE α] [DecidableLE α] (e : MatchingEngine α) (order : OrderRequest α) : Bool :=
  match order.side with
  | .buy => decide (order.price ≥ e.currentBestAsk)
  | .sell => decide (order.price ≤ e.currentBestBid)

/-- The engine once the new best prices are set and before the sweep. -/
def priced [Add α] [Sub α] [Div α] [∀ n, OfNat α n] (e : MatchingEngine α)
    (md : MarketDataEvent α) : MatchingEngine α :=
  { e with currentBestBid := md.price - 1/2/2, currentBestAsk := md.price + 1/2/2 }

/-- The report of an order, with trade id zero. -/
def reportOf [∀ n, OfNat α n] (order : OrderRequest α) (price quantity : α)
    (status : OrderStatus) : ExecutionReport α :=
  { orderId := order.orderId
    strategyId := order.strategyId
    tradeId := 0
    symbol := order.symbol
    side := order.side
    lastPrice := price
    lastQty := quantity
    cumulativeQty := quantity
    leavesQty := if status = .filled then 0 else order.quantity
    status := status
    signalTs := order.signalTs
    orderTs := order.orderTs }

end MatchingEngine

/-- A report without its trade id. -/
def blankTradeId (report : ExecutionReport α) : ExecutionReport α := { report with tradeId := 0 }

/-- The report says that the whole order was filled at once. -/
structure Fills [∀ n, OfNat α n] (order : OrderRequest α) (report : ExecutionReport α) :
    Prop where
  status : report.status = .filled
  orderId : report.orderId = order.orderId
  strategyId : report.strategyId = order.strategyId
  symbol : report.symbol = order.symbol
  side : report.side = order.side
  lastQty : report.lastQty = order.quantity
  cumulativeQty : report.cumulativeQty = order.quantity
  leavesQty : report.leavesQty = 0
  signalTs : report.signalTs = order.signalTs
  orderTs : report.orderTs = order.orderTs

theorem fills_of_blank [∀ n, OfNat α n] {order : OrderRequest α} {report : ExecutionReport α}
    {price : α}
    (h : blankTradeId report = MatchingEngine.reportOf order price order.quantity .filled) :
    Fills order report where
  status := congrArg (·.status) h
  orderId := congrArg (·.orderId) h
  strategyId := congrArg (·.strategyId) h
  symbol := congrArg (·.symbol) h
  side := congrArg (·.side) h
  lastQty := congrArg (·.lastQty) h
  cumulativeQty := congrArg (·.cumulativeQty) h
  leavesQty := congrArg (·.leavesQty) h
  signalTs := congrArg (·.signalTs) h
  orderTs := congrArg (·.orderTs) h

namespace MatchingEngine
variable [∀ n, OfNat α n] (e : MatchingEngine α)

@[simp] theorem emitExecution_restingOrders (order : OrderRequest α) (price quantity : α)
    (status : OrderStatus) (signalTs orderTs : ℕ) :
    (e.emitExecution order price quantity status signalTs orderTs).1.restingOrders =
      e.restingOrders := rfl

@[simp] theorem blankTradeId_emitExecution (order : OrderRequest α) (price quantity : α)
    (status : OrderStatus) :
    blankTradeId (e.emitExecution order price quantity status order.signalTs order.orderTs).2 =
      reportOf order price quantity status := rfl

@[simp] theorem cancelOrder_restingOrders (orderId : ℕ) :
    (e.cancelOrder orderId).1.restingOrders = e.restingOrders := rfl

theorem cancelOrder_reports (orderId : ℕ) : (e.cancelOrder orderId).2.map blankTradeId =
    [reportOf (dummyRequest orderId) 0 0 .cancelled] := rfl

/-- The report the sweep emits for an order it fills. -/
def fillOf (order : OrderRequest α) : ExecutionReport α :=
  reportOf order (e.oppositePrice order.side) order.quantity .filled

section Sweep
variable [LE α] [DecidableLE α]

/-- One step of the sweep, with both sides' branches in one. -/
theorem sweep_cons (order : OrderRequest α) (rest : List (OrderRequest α)) :
    e.sweep (order :: rest) = if e.crosses order then
      let emitted := e.emitExecution order (e.oppositePrice order.side) order.quantity .filled
        order.signalTs order.orderTs
      ((emitted.1.sweep rest).1,(emitted.1.sweep rest).2.1,emitted.2 :: (emitted.1.sweep rest).2.2)
    else ((e.sweep rest).1,order :: (e.sweep rest).2.1,(e.sweep rest).2.2) := by
  cases hside : order.side <;> simp [sweep, crosses, oppositePrice, hside]

/-- The sweep keeps exactly the orders that do not cross, in their order. -/
theorem sweep_kept (orders : List (OrderRequest α)) :
    (e.sweep orders).2.1 = orders.filter (fun order => !e.crosses order) := by
  induction orders generalizing e with
  | nil => rfl
  | cons order rest ih =>
    rw [sweep_cons]
    by_cases h : e.crosses order = true
    · rw [if_pos h, List.filter_cons_of_neg (by simp [h])]
      exact ih _
    · rw [if_neg h, List.filter_cons_of_pos (by simp [h])]
      exact congrArg (order :: ·) (ih e)

/-- The sweep reports exactly the crossing orders as filled, in their order. -/
theorem sweep_reports (orders : List (OrderRequest α)) :
    (e.sweep orders).2.2.map blankTradeId = (orders.filter e.crosses).map e.fillOf := by
  induction orders generalizing e with
  | nil => rfl
  | cons order rest ih =>
    rw [sweep_cons]
    by_cases h : e.crosses order = true
    · rw [if_pos h, List.filter_cons_of_pos h]
      exact congrArg (e.fillOf order :: ·) (ih _)
    · rw [if_neg h, List.filter_cons_of_neg h]
      exact ih e

/-- The sweep itself only advances the trade id counter. -/
theorem sweep_engine (orders : List (OrderRequest α)) :
    (e.sweep orders).1 =
      { e with nextTradeId := e.nextTradeId + (orders.filter e.crosses).length } := by
  induction orders generalizing e with
  | nil => rfl
  | cons order rest ih =>
    rw [sweep_cons]
    by_cases h : e.crosses order = true
    · rw [if_pos h, List.filter_cons_of_pos h]
      simp only [ih, emitExecution, List.length_cons]
      have hcount : e.nextTradeId + 1 + (rest.filter e.crosses).length =
          e.nextTradeId + ((rest.filter e.crosses).length + 1) := by omega
      exact congrArg (fun n => { e with nextTradeId := n }) hcount
    · rw [if_neg h, List.filter_cons_of_neg h]
      exact ih e

variable [Add α] [Sub α] [Div α]

theorem updateMarketPrice_eq (md : MarketDataEvent α) : e.updateMarketPrice md =
    ({ ((e.priced md).sweep e.restingOrders).1 with
        restingOrders := ((e.priced md).sweep e.restingOrders).2.1 },
      ((e.priced md).sweep e.restingOrders).2.2) := rfl

@[simp] theorem updateMarketPrice_restingOrders (md : MarketDataEvent α) :
    (e.updateMarketPrice md).1.restingOrders =
      e.restingOrders.filter (fun order => !(e.priced md).crosses order) := by
  rw [updateMarketPrice_eq]
  exact sweep_kept _ _

theorem updateMarketPrice_reports (md : MarketDataEvent α) :
    (e.updateMarketPrice md).2.map blankTradeId =
      (e.restingOrders.filter (e.priced md).crosses).map (e.priced md).fillOf := by
  rw [updateMarketPrice_eq]
  exact sweep_reports _ _

/-- A report of a price update is built from a resting order that crosses. -/
theorem updateMarketPrice_mem {md : MarketDataEvent α} {report : ExecutionReport α}
    (h : report ∈ (e.updateMarketPrice md).2) : ∃ order ∈ e.restingOrders,
      (e.priced md).crosses order = true ∧
        blankTradeId report = (e.priced md).fillOf order := by
  have hmem : blankTradeId report ∈ (e.updateMarketPrice md).2.map blankTradeId :=
    List.mem_map_of_mem h
  rw [updateMarketPrice_reports] at hmem
  obtain ⟨order,horder,hblank⟩ := List.mem_map.mp hmem
  obtain ⟨hresting,hcrosses⟩ := List.mem_filter.mp horder
  exact ⟨order,hresting,hcrosses,hblank.symm⟩

theorem updateMarketPrice_bestBid (md : MarketDataEvent α) :
    (e.updateMarketPrice md).1.currentBestBid = md.price - 1/2/2 := by
  rw [updateMarketPrice_eq, sweep_engine]
  rfl

theorem updateMarketPrice_bestAsk (md : MarketDataEvent α) :
    (e.updateMarketPrice md).1.currentBestAsk = md.price + 1/2/2 := by
  rw [updateMarketPrice_eq, sweep_engine]
  rfl

variable [DecidableEq α]

/-- The orders that a price update removes from the resting list. -/
def sweptOrders (md : MarketDataEvent α) : List (OrderRequest α) :=
  e.restingOrders.filter (fun order => decide (order ∉ (e.updateMarketPrice md).1.restingOrders))

theorem sweptOrders_eq (md : MarketDataEvent α) :
    e.sweptOrders md = e.restingOrders.filter (e.priced md).crosses := by
  apply List.filter_congr
  intro order horder
  rw [updateMarketPrice_restingOrders]
  simp [List.mem_filter, horder]

end Sweep

section Rationals
variable (e : MatchingEngine) (md : MarketDataEvent)

theorem priced_bestBid : (e.priced md).currentBestBid = md.price - 1/4 := by
  have hspread : (1/2 : ℚ) / 2 = 1/4 := by norm_num
  rw [priced, hspread]

theorem priced_bestAsk : (e.priced md).currentBestAsk = md.price + 1/4 := by
  have hspread : (1/2 : ℚ) / 2 = 1/4 := by norm_num
  rw [priced, hspread]

@[simp] theorem updateMarketPrice_currentBestBid :
    (e.updateMarketPrice md).1.currentBestBid = md.price - 1/4 :=
  (e.updateMarketPrice_bestBid md).trans (e.priced_bestBid md)

@[simp] theorem updateMarketPrice_currentBestAsk :
    (e.updateMarketPrice md).1.currentBestAsk = md.price + 1/4 :=
  (e.updateMarketPrice_bestAsk md).trans (e.priced_bestAsk md)

end Rationals

section Arrival
variable [LT α] [DecidableLT α] [LE α] [DecidableLE α]

/-- The three outcomes of an order on arrival. -/
inductive Arrival (e : MatchingEngine α) (order : OrderRequest α) : Prop
  | filled (price : α) (hprice : ¬price ≤ 0 ∨ 0 < price)
      (resting : (e.processOrder order).1.restingOrders = e.restingOrders)
      (reports : (e.processOrder order).2.map blankTradeId =
        [reportOf order price order.quantity .filled])
  | rested
      (resting : (e.processOrder order).1.restingOrders = e.restingOrders ++ [order])
      (reports : (e.processOrder order).2.map blankTradeId = [reportOf order order.price 0 .new])
  | rejected
      (resting : (e.processOrder order).1.restingOrders = e.restingOrders)
      (reports : (e.processOrder order).2.map blankTradeId = [reportOf order 0 0 .rejected])

theorem limitMatch_pos {order : OrderRequest α} {price : α}
    (h : e.limitMatch order = some price) : 0 < price := by
  unfold limitMatch at h
  cases hside : order.side <;> simp only [hside] at h
  · obtain ⟨⟨hpos,-⟩,rfl⟩ : (e.currentBestAsk > 0 ∧ order.price ≥ e.currentBestAsk) ∧
        e.currentBestAsk = price := by simpa using h
    exact hpos
  · obtain ⟨⟨hpos,-⟩,rfl⟩ : (e.currentBestBid > 0 ∧ order.price ≤ e.currentBestBid) ∧
        e.currentBestBid = price := by simpa using h
    exact hpos

theorem processOrder_arrival (order : OrderRequest α) : e.Arrival order := by
  by_cases htype : order.type = .market
  · have hprocess : e.processOrder order = e.matchMarketOrder order := by
      simp [processOrder, htype]
    by_cases hprice : (if order.side = .buy then e.currentBestAsk else e.currentBestBid) ≤ 0
    · apply Arrival.rejected <;> rw [hprocess, matchMarketOrder] <;> simp [hprice]
    · apply Arrival.filled _ (.inl hprice) <;>
        rw [hprocess, matchMarketOrder] <;> simp [hprice]
  · have hprocess : e.processOrder order = e.matchLimitOrder order := by
      simp [processOrder, htype]
    cases hmatch : e.limitMatch order with
    | some price =>
      apply Arrival.filled price (.inr (e.limitMatch_pos hmatch)) <;>
        rw [hprocess, matchLimitOrder, hmatch] <;> simp
    | none =>
      apply Arrival.rested <;> rw [hprocess, matchLimitOrder, hmatch] <;> simp

/-- A report on arrival is built from the order, as filled, rejected or resting. -/
theorem processOrder_mem {order : OrderRequest α} {report : ExecutionReport α}
    (h : report ∈ (e.processOrder order).2) :
    (∃ price, blankTradeId report = reportOf order price order.quantity .filled) ∨
      blankTradeId report = reportOf order 0 0 .rejected ∨
        blankTradeId report = reportOf order order.price 0 .new := by
  have hmem : blankTradeId report ∈ (e.processOrder order).2.map blankTradeId :=
    List.mem_map_of_mem h
  cases e.processOrder_arrival order with
  | filled price hprice hresting hreports =>
    rw [hreports, List.mem_singleton] at hmem
    exact .inl ⟨price,hmem⟩
  | rested hresting hreports =>
    rw [hreports, List.mem_singleton] at hmem
    exact .inr (.inr hmem)
  | rejected hresting hreports =>
    rw [hreports, List.mem_singleton] at hmem
    exact .inr (.inl hmem)

/-- The order, if it is matched on arrival. -/
def matchedOrders (order : OrderRequest α) : List (OrderRequest α) :=
  if (e.processOrder order).2.any (fun report => decide (report.status = .filled)) then [order]
  else []

theorem matchedOrders_eq {order : OrderRequest α} {reports : List (ExecutionReport α)}
    (h : (e.processOrder order).2.map blankTradeId = reports) : e.matchedOrders order =
      if reports.any (fun report => decide (report.status = .filled)) then [order] else [] := by
  rw [← h, List.any_map]
  rfl

end Arrival
end MatchingEngine
end HftEngine.Exchange
