import HftEngine.Book.OrderBook
import HftEngine.Foundation.Number

/-! The two strategies (strategy/market_maker_strategy.hpp, strategy/momentum_strategy.hpp)
and the engine that dispatches to them. A handler returns the new state and its pushes. -/
namespace HftEngine.Strategy
open HftEngine.Core Book Number
variable {α : Type}

/-- What a strategy may push to the event queue. -/
inductive StrategyEvent (α : Type := ℚ)
  | orderRequest (request : OrderRequest α)
  | cancelOrder (orderId : ℕ)
  deriving DecidableEq, Repr

def StrategyEvent.toEvent : StrategyEvent α → Event α
  | .orderRequest request => .orderRequest request
  | .cancelOrder orderId => .cancelOrder orderId

/-- The three handlers of a strategy. They read the shared book and the clock. -/
structure StrategyApi (σ : Type) (α : Type := ℚ) where
  onMarketData : OrderBook α → Clock → MarketDataEvent α → σ → σ × List (StrategyEvent α)
  onExecution : ExecutionReport α → σ → σ × List (StrategyEvent α)
  updatePosition : α → σ → σ

/-- A strategy that never trades. -/
def StrategyApi.silent (α : Type := ℚ) : StrategyApi Unit α where
  onMarketData _ _ _ s := (s,[])
  onExecution _ s := (s,[])
  updatePosition _ s := s

def btcusdt : Symbol := ['B','T','C','U','S','D','T']

structure MarketMakerStrategy (α : Type := ℚ) where
  currentPosition : α
  maxPosition : α
  alpha : α
  beta : α
  targetSpread : α
  lastBidPrice : α
  lastAskPrice : α
  lastOrderTime : ℤ
  activeOrders : List ℕ
  nextOrderId : ℕ
  deriving DecidableEq, Repr

section Numbers
variable [∀ n, OfNat α n] [Div α]

namespace MarketMakerStrategy

def init (α : Type := ℚ) [∀ n, OfNat α n] [Div α] : MarketMakerStrategy α :=
  ⟨0,10,1/100,1,2,0,0,0,[],1000000⟩

def submitOrder (s : MarketMakerStrategy α) (signalTs : ℕ) (side : OrderSide) (price : α) :
    MarketMakerStrategy α × StrategyEvent α :=
  ({ s with
      activeOrders := s.activeOrders ++ [s.nextOrderId]
      nextOrderId := s.nextOrderId + 1 },
    .orderRequest
      { orderId := s.nextOrderId
        strategyId := 1
        symbol := btcusdt
        side := side
        type := .limit
        price := price
        quantity := 1/10
        signalTs := signalTs
        orderTs := 0 })

def cancelAll (s : MarketMakerStrategy α) : MarketMakerStrategy α × List (StrategyEvent α) :=
  ({ s with activeOrders := [] },s.activeOrders.map .cancelOrder)

/-- Quote round once both prices are fixed: cancel, then submit the sides with room. -/
def requote [Neg α] [LT α] [DecidableLT α] (s : MarketMakerStrategy α) (clock : Clock)
    (targetBid targetAsk : α) : MarketMakerStrategy α × List (StrategyEvent α) :=
  let cancelled := s.cancelAll
  let bought : MarketMakerStrategy α × List (StrategyEvent α) :=
    if cancelled.1.currentPosition < cancelled.1.maxPosition then
      let submitted := cancelled.1.submitOrder (clock 1) .buy targetBid
      (submitted.1,[submitted.2])
    else (cancelled.1,[])
  let sold : MarketMakerStrategy α × List (StrategyEvent α) :=
    if bought.1.currentPosition > -bought.1.maxPosition then
      let submitted := bought.1.submitOrder (clock 2) .sell targetAsk
      (submitted.1,[submitted.2])
    else (bought.1,[])
  ({ sold.1 with
      lastBidPrice := targetBid
      lastAskPrice := targetAsk
      lastOrderTime := clock 0 },
    cancelled.2 ++ bought.2 ++ sold.2)

def onMarketData [Add α] [Sub α] [Mul α] [Neg α] [LT α] [DecidableLT α] [Min α] [Max α]
    [Integral α] (book : OrderBook α) (clock : Clock) (_event : MarketDataEvent α)
    (s : MarketMakerStrategy α) : MarketMakerStrategy α × List (StrategyEvent α) :=
  match book.getTopBids 1, book.getTopAsks 1 with
  | bid :: _, ask :: _ =>
    let midPrice := (bid.price + ask.price) / 2
    if ((clock 0 : ℤ) - s.lastOrderTime).tdiv 1000000 < 50 then (s,[])
    else
      let imbalance := (bid.quantity - ask.quantity) / (bid.quantity + ask.quantity)
      let skewedBid := midPrice - s.targetSpread / 2 + imbalance * s.beta -
        s.currentPosition * s.alpha
      let skewedAsk := midPrice + s.targetSpread / 2 + imbalance * s.beta -
        s.currentPosition * s.alpha
      let tick : α := 1
      let targetBid := floor (min skewedBid bid.price / tick) * tick
      let targetAsk := ceil (max skewedAsk ask.price / tick) * tick
      if fabs (targetBid - s.lastBidPrice) > 1/100 ∨
          fabs (targetAsk - s.lastAskPrice) > 1/100 then
        s.requote clock targetBid targetAsk
      else (s,[])
  | _, _ => (s,[])

def updatePosition (position : α) (s : MarketMakerStrategy α) : MarketMakerStrategy α :=
  { s with currentPosition := position }

end MarketMakerStrategy

structure MomentumStrategy (α : Type := ℚ) where
  shortEma : α
  longEma : α
  count : ℕ
  positionOpen : Bool
  nextOrderId : ℕ
  deriving DecidableEq, Repr

namespace MomentumStrategy

def init (α : Type := ℚ) [∀ n, OfNat α n] : MomentumStrategy α := ⟨0,0,0,false,2000000⟩

def submitOrder (s : MomentumStrategy α) (signalTs : ℕ) (side : OrderSide) (price : α) :
    MomentumStrategy α × StrategyEvent α :=
  ({ s with nextOrderId := s.nextOrderId + 1 },
    .orderRequest
      { orderId := s.nextOrderId
        strategyId := 2
        symbol := btcusdt
        side := side
        type := .limit
        price := price
        quantity := 1/2
        signalTs := signalTs
        orderTs := 0 })

/-- Both averages start at the first price and then move by their own weight. -/
def updateEma [Add α] [Sub α] [Mul α] (s : MomentumStrategy α) (price : α) :
    MomentumStrategy α :=
  let alpha10 : α := 2 / (10 + 1)
  let alpha50 : α := 2 / (50 + 1)
  { s with
    shortEma := if s.count = 0 then price else price * alpha10 + s.shortEma * (1 - alpha10)
    longEma := if s.count = 0 then price else price * alpha50 + s.longEma * (1 - alpha50)
    count := s.count + 1 }

def bullish [Mul α] [LT α] [DecidableLT α] (s : MomentumStrategy α) : Bool :=
  decide (s.shortEma > s.longEma * (10001/10000)) && !s.positionOpen

def bearish [Mul α] [LT α] [DecidableLT α] (s : MomentumStrategy α) : Bool :=
  decide (s.shortEma < s.longEma * (9999/10000)) && s.positionOpen

def onMarketData [Add α] [Sub α] [Mul α] [LT α] [DecidableLT α] (_book : OrderBook α)
    (clock : Clock) (event : MarketDataEvent α) (s : MomentumStrategy α) :
    MomentumStrategy α × List (StrategyEvent α) :=
  let s := s.updateEma event.price
  if s.count < 50 then (s,[])
  else if s.bullish then
    let submitted := s.submitOrder (clock 0) .buy (event.price + 1)
    ({ submitted.1 with positionOpen := true },[submitted.2])
  else if s.bearish then
    let submitted := s.submitOrder (clock 0) .sell (event.price - 1)
    ({ submitted.1 with positionOpen := false },[submitted.2])
  else (s,[])

end MomentumStrategy

end Numbers

inductive StrategyVariant (α : Type := ℚ)
  | marketMaker (s : MarketMakerStrategy α)
  | momentum (s : MomentumStrategy α)
  deriving DecidableEq, Repr

/-- Only the market maker keeps the position; the momentum strategy ignores it. -/
def StrategyVariant.updatePosition (position : α) : StrategyVariant α → StrategyVariant α
  | .marketMaker s => .marketMaker (s.updatePosition position)
  | .momentum s => .momentum s

abbrev StrategyEngine (α : Type := ℚ) := List (StrategyVariant α)

def StrategyEngine.updatePosition (position : α) (engine : StrategyEngine α) : StrategyEngine α :=
  engine.map (StrategyVariant.updatePosition position)

/-- The strategies in the order main.cpp adds them. -/
def StrategyEngine.main (α : Type := ℚ) [∀ n, OfNat α n] [Div α] : StrategyEngine α :=
  [.marketMaker (.init α),.momentum (.init α)]

variable [Add α] [Sub α] [Mul α] [Div α] [Neg α] [LT α] [DecidableLT α] [Min α] [Max α]
  [∀ n, OfNat α n] [Integral α]

def StrategyVariant.onMarketData (book : OrderBook α) (clock : Clock)
    (event : MarketDataEvent α) : StrategyVariant α → StrategyVariant α × List (StrategyEvent α)
  | .marketMaker s =>
    let r := s.onMarketData book clock event
    (.marketMaker r.1,r.2)
  | .momentum s =>
    let r := s.onMarketData book clock event
    (.momentum r.1,r.2)

namespace StrategyEngine

/-- The strategies are called one after another; each takes at most three clock readings. -/
def onMarketData (book : OrderBook α) (clock : Clock) (event : MarketDataEvent α) :
    StrategyEngine α → StrategyEngine α × List (StrategyEvent α)
  | [] => ([],[])
  | s :: rest =>
    let r := s.onMarketData book clock event
    let next := onMarketData book (fun i => clock (i+3)) event rest
    (r.1 :: next.1,r.2 ++ next.2)

/-- Neither strategy reacts to an execution report. -/
def api (α : Type := ℚ) [Add α] [Sub α] [Mul α] [Div α] [Neg α] [LT α] [DecidableLT α] [Min α]
    [Max α] [∀ n, OfNat α n] [Integral α] : StrategyApi (StrategyEngine α) α where
  onMarketData := onMarketData
  onExecution _ engine := (engine,[])
  updatePosition := updatePosition

end StrategyEngine
end HftEngine.Strategy
