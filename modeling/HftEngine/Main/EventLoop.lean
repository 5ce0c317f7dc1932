import HftEngine.Analytics.LatencyMonitor
import HftEngine.Exchange.MatchingEngine
import HftEngine.Foundation.Fifo
import HftEngine.Foundation.Machine
import HftEngine.Oms.OrderManager
import HftEngine.Pnl.PnlEngine
import HftEngine.Strategy.Strategies

/-! The processor thread of main.cpp: batches of up to four popped events, the switch over
the event type, and the pushes of the handlers to the same queue. The feed may push between
any two steps. Popped events that are not handled yet are counted as pending. -/
namespace HftEngine.Main
open HftEngine.Core Book Strategy Risk Pnl Oms Exchange Analytics Fifo

/-- The objects that the handlers of the event loop read and write. -/
structure Components (σ : Type) (α : Type := ℚ) where
  orderBook : OrderBook α
  strategy : σ
  risk : RiskEngine α
  pnlEngine : PnlEngine α
  orderManager : OrderManager α
  matchingEngine : MatchingEngine α
  latencyMonitor : LatencyMonitor
  tradeHistory : List (ExecutionReport α)

structure EventLoop (σ : Type) (α : Type := ℚ) where
  queue : List (Event α)
  batch : List (Event α)
  handling : Bool
  components : Components σ α

namespace Components
variable {σ α : Type}

/-- The last 1000 fills, for display. -/
def recordHistory (report : ExecutionReport α) (c : Components σ α) : Components σ α :=
  let history := c.tradeHistory ++ [report]
  { c with tradeHistory := if history.length > 1000 then history.drop 1 else history }

variable [∀ n, OfNat α n]

def init (strategy : σ) (maxPosition : α) : Components σ α where
  orderBook := .init α
  strategy := strategy
  risk := .init maxPosition
  pnlEngine := .init α
  orderManager := .init α
  matchingEngine := .init α
  latencyMonitor := .init
  tradeHistory := []

def onCancelOrder (orderId : ℕ) (c : Components σ α) : Components σ α × List (Event α) :=
  let cancelled := c.matchingEngine.cancelOrder orderId
  ({ c with matchingEngine := cancelled.1 },cancelled.2.map .executionReport)

variable [Add α] [Sub α] [Mul α] [Div α] [Neg α] [LT α] [DecidableLT α] [LE α] [DecidableLE α]

def onMarketData (S : StrategyApi σ α) (clock : Clock) (md : MarketDataEvent α)
    (c : Components σ α) : Components σ α × List (Event α) :=
  let positioned := S.updatePosition c.pnlEngine.getTotalPosition c.strategy
  let signalled := S.onMarketData c.orderBook clock md positioned
  let matched := c.matchingEngine.updateMarketPrice md
  ({ c with strategy := signalled.1, matchingEngine := matched.1 },
    signalled.2.map StrategyEvent.toEvent ++ matched.2.map .executionReport)

def onOrderRequest (clock : Clock) (request : OrderRequest α) (c : Components σ α) :
    Components σ α × List (Event α) :=
  let handled := c.orderManager.handleOrderRequest c.risk clock request
  ({ c with orderManager := handled.1 },handled.2)

def onValidatedOrder (order : OrderRequest α) (c : Components σ α) :
    Components σ α × List (Event α) :=
  let processed := c.matchingEngine.processOrder order
  ({ c with matchingEngine := processed.1 },processed.2.map .executionReport)

variable [Min α] [Max α]

/-- Positions and latency samples of a report with status Filled. -/
def recordFill (clock : Clock) (report : ExecutionReport α) (c : Components σ α) :
    Components σ α :=
  { c with
    pnlEngine := c.pnlEngine.onFill report.strategyId report.side report.lastPrice report.lastQty
    risk := c.risk.updatePosition (report.lastQty * report.side.sign α)
    latencyMonitor := ((c.latencyMonitor.recordSignalToOrder report.signalTs report.orderTs)
      |>.recordOrderToFill report.orderTs (clock 0))
      |>.recordTotalLatency report.signalTs (clock 1) }

def onExecutionReport (S : StrategyApi σ α) (clock : Clock) (report : ExecutionReport α)
    (c : Components σ α) : Components σ α × List (Event α) :=
  let notified := S.onExecution report c.strategy
  let c := { c with
    orderManager := c.orderManager.handleExecutionReport report
    strategy := notified.1 }
  let c := if report.status = .filled then c.recordFill clock report else c
  let c := { c with pnlEngine := c.pnlEngine.updatePnl report.lastPrice }
  let c := if report.status = .filled then c.recordHistory report else c
  (c,notified.2.map StrategyEvent.toEvent)

/-- The switch over `event.type`, with the events its handlers push in program order. -/
def dispatch (S : StrategyApi σ α) (clock : Clock) (c : Components σ α) :
    Event α → Components σ α × List (Event α)
  | .marketData md => c.onMarketData S clock md
  | .orderRequest request => c.onOrderRequest clock request
  | .validatedOrder order => c.onValidatedOrder order
  | .cancelOrder orderId => c.onCancelOrder orderId
  | .executionReport report => c.onExecutionReport S clock report

end Components

/-- What happens next: the feed pushes a tick, a strategy pushes an event outside the
handlers, or the processor thread makes its next step. -/
inductive Action (α : Type := ℚ)
  | feed (md : MarketDataEvent α)
  | submit (event : StrategyEvent α)
  | process (clock : Clock)

/-- An action together with the answers its pushes get from the queue. -/
structure Label (α : Type := ℚ) where
  room : Room (Event α)
  action : Action α

section Actions
variable {α : Type}

namespace Label

/-- An action whose pushes all succeed. -/
def ample (action : Action α) : Label α := ⟨Room.unbounded,action⟩

/-- An action whose pushes meet the real queue, which stores at most 1023 events. -/
def bounded (action : Action α) : Label α := ⟨Room.capacity 1023,action⟩

def tick [∀ n, OfNat α n] (price : α) : Label α := ample (.feed ⟨[],price,1,0,false⟩)

def limit (orderId : ℕ) (side : OrderSide) (price quantity : α) : Label α :=
  ample (.submit (.orderRequest ⟨orderId,1,[],side,.limit,price,quantity,0,0⟩))

def cancel (orderId : ℕ) : Label α := ample (.submit (.cancelOrder orderId))

/-- Processor steps one after another. -/
def processes (n : ℕ) : List (Label α) := List.replicate n (ample (.process (fun _ => 0)))

end Label

/-- The event that a push from outside the handlers enqueues. -/
def Action.input : Action α → Option (Event α)
  | .feed md => some (.marketData md)
  | .submit event => some event.toEvent
  | .process _ => none

/-- The tick that the feed pushes. -/
def Action.tick : Action α → Option (MarketDataEvent α)
  | .feed md => some md
  | _ => none

def Action.isSubmit : Action α → Bool
  | .submit _ => true
  | _ => false

def Action.isProcess : Action α → Bool
  | .process _ => true
  | _ => false

end Actions

namespace EventLoop
variable {σ α : Type}

def init [∀ n, OfNat α n] (strategy : σ) (maxPosition : α) : EventLoop σ α where
  queue := []
  batch := []
  handling := false
  components := .init strategy maxPosition

/-- Events that were accepted by the queue and not handled yet, oldest first. -/
def pending (s : EventLoop σ α) : List (Event α) := s.batch ++ s.queue

def batchSize : ℕ := 4

/-- One iteration of the loop that fills the batch. -/
def popNext (s : EventLoop σ α) : EventLoop σ α :=
  match s.queue with
  | [] => { s with handling := !s.batch.isEmpty }
  | event :: rest =>
    { s with
      queue := rest
      batch := s.batch ++ [event]
      handling := decide ((s.batch ++ [event]).length = batchSize) }

variable [Add α] [Sub α] [Mul α] [Div α] [Neg α] [LT α] [DecidableLT α] [LE α] [DecidableLE α]
  [Min α] [Max α] [∀ n, OfNat α n]

/-- One iteration of the loop over the batch: the handlers run to completion. -/
def handleNext (S : StrategyApi σ α) (room : Room (Event α)) (clock : Clock)
    (s : EventLoop σ α) : EventLoop σ α × List (Op (Event α)) :=
  match s.batch with
  | [] => ({ s with handling := false },[])
  | event :: rest =>
    let handled := s.components.dispatch S clock event
    let pushed := pushAll room s.queue handled.2
    (⟨pushed.1,rest,!rest.isEmpty,handled.1⟩,.pop event :: pushed.2)

def step (S : StrategyApi σ α) (s : EventLoop σ α) (l : Label α) :
    EventLoop σ α × List (Op (Event α)) :=
  match l.action with
  | .feed md =>
    let pushed := pushAll l.room s.queue [.marketData md]
    ({ s with queue := pushed.1 },pushed.2)
  | .submit event =>
    let pushed := pushAll l.room s.queue [event.toEvent]
    ({ s with queue := pushed.1 },pushed.2)
  | .process clock =>
    if s.handling then s.handleNext S l.room clock else (s.popNext,[])

def machine (S : StrategyApi σ α) : Machine (EventLoop σ α) (Label α) (Op (Event α)) := ⟨step S⟩

/-- The run of a schedule from a state. -/
def run (S : StrategyApi σ α) (s : EventLoop σ α) (labels : List (Label α)) :
    EventLoop σ α × List (Op (Event α)) := (machine S).run s labels

end EventLoop
end HftEngine.Main
