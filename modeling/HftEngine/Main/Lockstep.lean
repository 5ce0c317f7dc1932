import HftEngine.Main.Positions

/-! The backtest in lockstep: each tick runs through strategy, OMS and exchange before the
next one is looked at. Clock readings only end up in timestamps, so orders are compared with
their timestamps blanked, and fills by what they trade. -/
set_option linter.unusedSectionVars false

namespace HftEngine.Main
open HftEngine.Core Strategy Pnl Exchange Oms Risk Fifo
variable {α : Type}

/-- An order without its timestamps. -/
def untimed (order : OrderRequest α) : OrderRequest α :=
  { order with signalTs := 0, orderTs := 0 }

@[simp] theorem untimed_untimed (order : OrderRequest α) :
    untimed (untimed order) = untimed order := rfl

/-- An exchange without timestamps and trade ids. -/
def untimedEngine (e : MatchingEngine α) : MatchingEngine α :=
  { e with nextTradeId := 0, restingOrders := e.restingOrders.map untimed }

/-- What a Filled report trades, for whom and at which price. -/
structure Fill (α : Type := ℚ) where
  orderId : ℕ
  strategyId : ℕ
  side : OrderSide
  price : α
  quantity : α
  deriving DecidableEq, Repr

def Fill.ofReport (report : ExecutionReport α) : Fill α :=
  ⟨report.orderId,report.strategyId,report.side,report.lastPrice,report.lastQty⟩

def Fill.signedQty [Neg α] [Mul α] [∀ n, OfNat α n] (fill : Fill α) : α :=
  fill.quantity * fill.side.sign α

/-- The fills that events report. -/
def fillsOf (events : List (Event α)) : List (Fill α) := (filledReports events).map Fill.ofReport

@[simp] theorem fillsOf_nil : fillsOf ([] : List (Event α)) = [] := rfl

@[simp] theorem fillsOf_append (xs ys : List (Event α)) :
    fillsOf (xs ++ ys) = fillsOf xs ++ fillsOf ys := by
  simp [fillsOf]

theorem fillsOf_cons (event : Event α) (events : List (Event α)) :
    fillsOf (event :: events) = fillsOf [event] ++ fillsOf events := fillsOf_append [event] events

theorem fillsOf_input {event : Event α} (h : IsInput event) : fillsOf [event] = [] := by
  rw [fillsOf, filledReports_input h, List.map_nil]

variable [Add α] [Sub α] [Mul α] [Div α] [Neg α] [LT α] [DecidableLT α] [LE α]
  [DecidableLE α] [Min α] [Max α] [∀ n, OfNat α n]

/-- The fills of an arrival or a sweep, without regard to trade ids. -/
theorem fillsOf_blank (reports : List (ExecutionReport α)) :
    fillsOf (reports.map .executionReport) =
      fillsOf ((reports.map blankTradeId).map .executionReport) :=
  map_filledReports_blank (fun _ => rfl) reports

theorem signedQtys_fillsOf (events : List (Event α)) :
    (fillsOf events).map Fill.signedQty = filledQtys events := by
  rw [fillsOf, filledQtys, List.map_map]
  rfl

section Exchange
variable (e : MatchingEngine α)

theorem fillsOf_sweep (orders : List (OrderRequest α)) :
    fillsOf ((orders.map e.fillOf).map .executionReport) =
      orders.map (fun order => Fill.ofReport (e.fillOf order)) := by
  induction orders with
  | nil => rfl
  | cons order orders ih =>
    rw [List.map_cons, List.map_cons, fillsOf_cons, ih]
    rfl

/-- A price update does the same to an exchange and to its untimed copy. -/
theorem untimed_updateMarketPrice (md : MarketDataEvent α) :
    untimedEngine (e.updateMarketPrice md).1 =
      untimedEngine ((untimedEngine e).updateMarketPrice md).1 ∧
    fillsOf ((e.updateMarketPrice md).2.map .executionReport) =
      fillsOf (((untimedEngine e).updateMarketPrice md).2.map .executionReport) := by
  constructor
  · have hresting : ((e.updateMarketPrice md).1.restingOrders).map untimed =
        (((untimedEngine e).updateMarketPrice md).1.restingOrders).map untimed := by
      rw [MatchingEngine.updateMarketPrice_restingOrders,
        MatchingEngine.updateMarketPrice_restingOrders, untimedEngine, List.filter_map,
        List.map_map]
      rfl
    unfold untimedEngine at hresting ⊢
    simp only [hresting, MatchingEngine.updateMarketPrice_bestBid,
      MatchingEngine.updateMarketPrice_bestAsk]
  · rw [fillsOf_blank, fillsOf_blank ((untimedEngine e).updateMarketPrice md).2,
      MatchingEngine.updateMarketPrice_reports, MatchingEngine.updateMarketPrice_reports,
      fillsOf_sweep, fillsOf_sweep, untimedEngine, List.filter_map, List.map_map]
    rfl

/-- And so does an arriving order, which the copy gets without timestamps. -/
theorem untimed_processOrder (order : OrderRequest α) :
    untimedEngine (e.processOrder order).1 =
      untimedEngine ((untimedEngine e).processOrder (untimed order)).1 ∧
    fillsOf ((e.processOrder order).2.map .executionReport) =
      fillsOf (((untimedEngine e).processOrder (untimed order)).2.map .executionReport) := by
  have htype : (untimed order).type = order.type := rfl
  unfold MatchingEngine.processOrder
  rw [htype]
  by_cases hmarket : order.type = .market
  · rw [if_pos hmarket, if_pos hmarket]
    unfold MatchingEngine.matchMarketOrder
    have hprice : (if (untimed order).side = .buy then (untimedEngine e).currentBestAsk
        else (untimedEngine e).currentBestBid) =
        if order.side = .buy then e.currentBestAsk else e.currentBestBid := rfl
    rw [hprice]
    by_cases hdry : (if order.side = .buy then e.currentBestAsk else e.currentBestBid) ≤ 0
    · simp only [if_pos hdry]
      exact ⟨by simp [untimedEngine, MatchingEngine.emitExecution],rfl⟩
    · simp only [if_neg hdry]
      exact ⟨by simp [untimedEngine, MatchingEngine.emitExecution],rfl⟩
  · rw [if_neg hmarket, if_neg hmarket]
    unfold MatchingEngine.matchLimitOrder
    have hmatch : (untimedEngine e).limitMatch (untimed order) = e.limitMatch order := rfl
    rw [hmatch]
    cases e.limitMatch order with
    | some price => exact ⟨by simp [untimedEngine, MatchingEngine.emitExecution],rfl⟩
    | none => exact ⟨by simp [untimedEngine, MatchingEngine.emitExecution],rfl⟩

end Exchange

/-- The momentum strategy after a tick, and the order it sends, if any. -/
def momentumNext (s : MomentumStrategy α) (md : MarketDataEvent α) : MomentumStrategy α :=
  (s.onMarketData (.init α) (fun _ => 0) md).1

def momentumSignal (s : MomentumStrategy α) (md : MarketDataEvent α) : Option (OrderRequest α) :=
  match (s.onMarketData (.init α) (fun _ => 0) md).2 with
  | .orderRequest order :: _ => some order
  | _ => none

/-- The clock only enters the signal timestamp of the order. -/
theorem momentum_onMarketData (s : MomentumStrategy α) (book : Book.OrderBook α) (clock : Clock)
    (md : MarketDataEvent α) : s.onMarketData book clock md = (momentumNext s md,
      (momentumSignal s md).toList.map
        (fun order => .orderRequest { order with signalTs := clock 0 })) := by
  unfold momentumNext momentumSignal MomentumStrategy.onMarketData
  by_cases hcount : (s.updateEma md.price).count < 50
  · simp [hcount]
  · cases hbull : (s.updateEma md.price).bullish with
    | true => simp [hcount, hbull, MomentumStrategy.submitOrder]
    | false =>
      cases hbear : (s.updateEma md.price).bearish with
      | true => simp [hcount, hbull, hbear, MomentumStrategy.submitOrder]
      | false => simp [hcount, hbull, hbear]

/-- With nothing in the book the market maker never quotes, so a tick only reaches the
momentum strategy. -/
theorem main_onMarketData [Number.Integral α] (mm : MarketMakerStrategy α)
    (s : MomentumStrategy α) (clock : Clock) (md : MarketDataEvent α) :
    StrategyEngine.onMarketData (.init α) clock md [.marketMaker mm,.momentum s] =
      ([.marketMaker mm,.momentum (momentumNext s md)],(momentumSignal s md).toList.map
        (fun order => .orderRequest { order with signalTs := clock 3 })) := by
  have hquiet : mm.onMarketData (.init α) clock md = (mm,[]) := rfl
  simp [StrategyEngine.onMarketData, StrategyVariant.onMarketData, hquiet, momentum_onMarketData]

/-- What a backtest consists of between two ticks. -/
structure Lockstep (α : Type := ℚ) where
  momentum : MomentumStrategy α
  engine : MatchingEngine α
  fills : List (Fill α)

namespace Lockstep

def init : Lockstep α := ⟨.init α,untimedEngine (.init α),[]⟩

/-- Net quantity of all fills so far, added up in their order. -/
def position (k : Lockstep α) : α := (k.fills.map Fill.signedQty).foldl (· + ·) 0

/-- The strategy sees the tick and the exchange fills the resting orders that cross. -/
def sweep (k : Lockstep α) (md : MarketDataEvent α) : Lockstep α :=
  let matched := k.engine.updateMarketPrice md
  { momentum := momentumNext k.momentum md
    engine := untimedEngine matched.1
    fills := k.fills ++ fillsOf (matched.2.map .executionReport) }

/-- The OMS decides with the position before the tick's own fills. -/
def admitted (k : Lockstep α) (order : OrderRequest α) : Bool :=
  OrderManager.validateOrder ⟨k.position,100⟩ order

def arrive (k : Lockstep α) (order : OrderRequest α) : Lockstep α :=
  let processed := k.engine.processOrder (untimed order)
  { k with
    engine := untimedEngine processed.1
    fills := k.fills ++ fillsOf (processed.2.map .executionReport) }

def tick (k : Lockstep α) (md : MarketDataEvent α) : Lockstep α :=
  match momentumSignal k.momentum md with
  | some order => if k.admitted order then (k.sweep md).arrive order else k.sweep md
  | none => k.sweep md

def replay (ticks : List (MarketDataEvent α)) : Lockstep α := ticks.foldl tick init

theorem tick_none {k : Lockstep α} {md : MarketDataEvent α}
    (h : momentumSignal k.momentum md = none) : k.tick md = k.sweep md := by
  simp [tick, h]

theorem tick_rejected {k : Lockstep α} {md : MarketDataEvent α} {order : OrderRequest α}
    (h : momentumSignal k.momentum md = some order) (hv : k.admitted order = false) :
    k.tick md = k.sweep md := by
  simp [tick, h, hv]

theorem tick_admitted {k : Lockstep α} {md : MarketDataEvent α} {order : OrderRequest α}
    (h : momentumSignal k.momentum md = some order) (hv : k.admitted order = true) :
    k.tick md = (k.sweep md).arrive order := by
  simp [tick, h, hv]

end Lockstep
end HftEngine.Main
