import HftEngine.Pnl.Accounting
import HftEngine.Main.OrderLifecycle
import HftEngine.Main.Positions
import HftEngine.Main.PushLoop
import HftEngine.Main.Quantities
import HftEngine.Main.PositionLimit
import HftEngine.Main.ReportMarking
import HftEngine.Main.CancelOrder
import HftEngine.Main.Lockstep
import HftEngine.Main.Determinism
import HftEngine.Core.RingBuffer
import HftEngine.Core.RingProducers
import HftEngine.Foundation.Text
import HftEngine.Replay.ReplayEngine
import HftEngine.Main.Backtest
import HftEngine.Main.Completeness
import HftEngine.Main.Provenance
import HftEngine.Main.FillIntegrity
import HftEngine.Main.OpenOrders
import HftEngine.Book.Levels
import HftEngine.Strategy.OrderIds
import HftEngine.Foundation.Print
import HftEngine.Foundation.Decimal
import HftEngine.Replay.Recorder
import HftEngine.Exchange.Conservation
import HftEngine.Core.SingleProducer
import HftEngine.Foundation.Drawdown
import HftEngine.Pnl.Drawdown
import HftEngine.Pnl.Division
import HftEngine.Foundation.Opening
import HftEngine.Core.SequentialRing
import HftEngine.Pnl.FillAlgebra
import HftEngine.Exchange.ExecutionPrice
import HftEngine.Main.SharedBook
import HftEngine.Main.Termination
import HftEngine.Main.Workload
import HftEngine.Main.Answers
import HftEngine.Main.LongOrFlat
import HftEngine.Main.Batching
import HftEngine.Main.TradeIds
import HftEngine.Main.Causality
import HftEngine.Main.OnlyMomentum
import HftEngine.Main.Turnover
import HftEngine.Core.QueueDepth
import HftEngine.Exchange.Commutation
import HftEngine.Exchange.Independence
import HftEngine.Exchange.Marketability
import HftEngine.Exchange.PositivePrice
import HftEngine.Exchange.Attribution
import HftEngine.Exchange.Priority
import HftEngine.Oms.Forwarding
import HftEngine.Replay.Malformed
import HftEngine.Strategy.Imbalance
import HftEngine.Strategy.Quotes
import HftEngine.Strategy.WorkingOrders
import HftEngine.Analytics.Percentiles
import HftEngine.Strategy.Momentum
import HftEngine.Replay.Stopping
import HftEngine.Core.EventQueue
import HftEngine.Core.LatencyTracker
import HftEngine.Strategy.QuoteRate
import HftEngine.Feed.Shutdown
import HftEngine.Replay.Pacing
import HftEngine.Book.Denotation
import HftEngine.Main.HybridTermination
import HftEngine.Main.HybridSummary
import HftEngine.Main.RingBacktest
import HftEngine.Main.Dashboard
