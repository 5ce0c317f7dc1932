import HftEngine.Core.Events

/-! Simulated exchange (exchange/matching_engine.cpp). Every operation returns the new
engine and the execution reports it emits, in the order of the `emit_execution` calls. -/
namespace HftEngine.Exchange
open HftEngine.Core

structure MatchingEngine (α : Type := ℚ) where
  currentBestBid : α
  currentBestAsk : α
  nextTradeId : ℕ
  restingOrders : List (OrderRequest α)
  deriving DecidableEq, Repr

namespace MatchingEngine
variable {α : Type} [∀ n, OfNat α n]

def init (α : Type := ℚ) [∀ n, OfNat α n] : MatchingEngine α := ⟨0,0,1,[]⟩

def emitExecution (e : MatchingEngine α) (order : OrderRequest α) (price quantity : α)
    (status : OrderStatus) (signalTs orderTs : ℕ) : MatchingEngine α × ExecutionReport α :=
  ({ e with nextTradeId := e.nextTradeId + 1 },
    { orderId := order.orderId
      strategyId := order.strategyId
      tradeId := e.nextTradeId
      symbol := order.symbol
      side := order.side
      lastPrice := price
      lastQty := quantity
      cumulativeQty := quantity
      leavesQty := if status = .filled then 0 else order.quantity
      status := status
      signalTs := signalTs
      orderTs := orderTs })

section Matching
variable [LE α] [DecidableLE α]

/-- The loop over `resting_orders_`: filled orders are erased and reported, the others kept. -/
def sweep (e : MatchingEngine α) : List (OrderRequest α) →
    MatchingEngine α × List (OrderRequest α) × List (ExecutionReport α)
  | [] => (e,[],[])
  | order :: rest =>
    if order.side = .buy ∧ order.price ≥ e.currentBestAsk then
      let emitted := e.emitExecution order e.currentBestAsk order.quantity .filled
        order.signalTs order.orderTs
      let next := sweep emitted.1 rest
      (next.1,next.2.1,emitted.2 :: next.2.2)
    else if order.side = .sell ∧ order.price ≤ e.currentBestBid then
      let emitted := e.emitExecution order e.currentBestBid order.quantity .filled
        order.signalTs order.orderTs
      let next := sweep emitted.1 rest
      (next.1,next.2.1,emitted.2 :: next.2.2)
    else
      let next := sweep e rest
      (next.1,order :: next.2.1,next.2.2)

def updateMarketPrice [Add α] [Sub α] [Div α] (e : MatchingEngine α) (md : MarketDataEvent α) :
    MatchingEngine α × List (ExecutionReport α) :=
  let spread : α := 1/2
  let priced := { e with
    currentBestBid := md.price - spread / 2
    currentBestAsk := md.price + spread / 2 }
  let swept := priced.sweep priced.restingOrders
  ({ swept.1 with restingOrders := swept.2.1 },swept.2.2)

def matchMarketOrder (e : MatchingEngine α) (order : OrderRequest α) :
    MatchingEngine α × List (ExecutionReport α) :=
  let matchPrice := if order.side = .buy then e.currentBestAsk else e.currentBestBid
  if matchPrice ≤ 0 then
    let emitted := e.emitExecution order 0 0 .rejected order.signalTs order.orderTs
    (emitted.1,[emitted.2])
  else
    let emitted := e.emitExecution order matchPrice order.quantity .filled
      order.signalTs order.orderTs
    (emitted.1,[emitted.2])

/-- `can_match` together with `match_price`. -/
def limitMatch [LT α] [DecidableLT α] (e : MatchingEngine α) (order : OrderRequest α) : Option α :=
  match order.side with
  | .buy =>
    if e.currentBestAsk > 0 ∧ order.price ≥ e.currentBestAsk then some e.currentBestAsk else none
  | .sell =>
    if e.currentBestBid > 0 ∧ order.price ≤ e.currentBestBid then some e.currentBestBid else none

def matchLimitOrder [LT α] [DecidableLT α] (e : MatchingEngine α) (order : OrderRequest α) :
    MatchingEngine α × List (ExecutionReport α) :=
  match e.limitMatch order with
  | some matchPrice =>
    let emitted := e.emitExecution order matchPrice order.quantity .filled
      order.signalTs order.orderTs
    (emitted.1,[emitted.2])
  | none =>
    let resting := { e with restingOrders := e.restingOrders ++ [order] }
    let emitted := resting.emitExecution order order.price 0 .new order.signalTs order.orderTs
    (emitted.1,[emitted.2])

def processOrder [LT α] [DecidableLT α] (e : MatchingEngine α) (order : OrderRequest α) :
    MatchingEngine α × List (ExecutionReport α) :=
  if order.type = .market then e.matchMarketOrder order else e.matchLimitOrder order

end Matching

/-- The request of which only the id is set; `OrderRequest dummy_req{}` zeroes the rest. -/
def dummyRequest (orderId : ℕ) : OrderRequest α :=
  ⟨orderId,0,[],.buy,.limit,0,0,0,0⟩

/-- Emits a Cancelled report; the resting list is neither searched nor changed. -/
def cancelOrder (e : MatchingEngine α) (orderId : ℕ) :
    MatchingEngine α × List (ExecutionReport α) :=
  let emitted := e.emitExecution (dummyRequest orderId) 0 0 .cancelled 0 0
  (emitted.1,[emitted.2])

end MatchingEngine
end HftEngine.Exchange
