import Mathlib.Algebra.Order.Field.Rat
import Mathlib.Data.Rat.Defs

/-! Event structures of the system (core/events.hpp), over the type of the numbers that prices
and quantities are: exact rationals where none is named, doubles where rounding matters. Order
ids, strategy ids and timestamps are natural numbers. -/
namespace HftEngine.Core

/-- Content of a `char symbol[16]` before its terminating zero. -/
abbrev Symbol := List Char

inductive OrderSide
  | buy
  | sell
  deriving DecidableEq, Repr

inductive OrderType
  | limit
  | market
  deriving DecidableEq, Repr

inductive OrderStatus
  | new
  | partiallyFilled
  | filled
  | cancelled
  | rejected
  deriving DecidableEq, Repr

/-- The factor `side_sign`: 1.0 for Buy and -1.0 for Sell. -/
def OrderSide.sign (α : Type := ℚ) [Neg α] [∀ n, OfNat α n] : OrderSide → α
  | .buy => 1
  | .sell => -1

@[simp] theorem OrderSide.sign_buy : OrderSide.buy.sign = 1 := rfl
@[simp] theorem OrderSide.sign_sell : OrderSide.sell.sign = -1 := rfl

structure MarketDataEvent (α : Type := ℚ) where
  symbol : Symbol
  price : α
  quantity : α
  exchangeTs : ℤ
  isBuyerMaker : Bool
  deriving DecidableEq, Repr

structure OrderRequest (α : Type := ℚ) where
  orderId : ℕ
  strategyId : ℕ
  symbol : Symbol
  side : OrderSide
  type : OrderType
  price : α
  quantity : α
  signalTs : ℕ
  orderTs : ℕ
  deriving DecidableEq, Repr

structure ExecutionReport (α : Type := ℚ) where
  orderId : ℕ
  strategyId : ℕ
  tradeId : ℕ
  symbol : Symbol
  side : OrderSide
  lastPrice : α
  lastQty : α
  cumulativeQty : α
  leavesQty : α
  status : OrderStatus
  signalTs : ℕ
  orderTs : ℕ
  deriving DecidableEq, Repr

/-- The tagged union `Event`: the tag and the payload that the tag selects. -/
inductive Event (α : Type := ℚ)
  | marketData (md : MarketDataEvent α)
  | orderRequest (request : OrderRequest α)
  | validatedOrder (request : OrderRequest α)
  | executionReport (report : ExecutionReport α)
  | cancelOrder (orderId : ℕ)
  deriving DecidableEq, Repr

/-- The event whose bytes are all zero. -/
instance {α : Type} [∀ n, OfNat α n] : Inhabited (Event α) := ⟨.marketData ⟨[],0,0,0,false⟩⟩

section Signed
variable {α : Type} [Neg α] [Mul α] [∀ n, OfNat α n]

/-- Quantity with the sign of its side. -/
def OrderRequest.signedQty (order : OrderRequest α) : α := order.quantity * order.side.sign α

/-- Change of position that a fill report stands for. -/
def ExecutionReport.signedQty (report : ExecutionReport α) : α :=
  report.lastQty * report.side.sign α

end Signed

/-- Successive readings of the clock within one handler call. -/
abbrev Clock := ℕ → ℕ

end HftEngine.Core
