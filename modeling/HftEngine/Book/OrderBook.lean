import HftEngine.Core.Events
import Mathlib.Data.List.Sort

/-! Price levels and microstructure metrics built from trades (orderbook/order_book.cpp).
A level array is modelled by the list of its first `num_` entries. -/
namespace HftEngine.Book
open HftEngine.Core

structure Level (α : Type := ℚ) where
  price : α
  quantity : α
  deriving DecidableEq, Repr

structure OrderBook (α : Type := ℚ) where
  bidLevels : List (Level α)
  askLevels : List (Level α)
  lastPrice : α
  imbalance : α
  buyVolume : α
  sellVolume : α
  spread : α
  deriving DecidableEq, Repr

namespace OrderBook

def maxLevels : ℕ := 100

section Code
variable {α : Type}

def init (α : Type := ℚ) [∀ n, OfNat α n] : OrderBook α := ⟨[],[],0,0,0,0,0⟩

/-- The search loop: the new quantity at the first level with this price, if there is one. -/
def replaceLevel [BEq α] (price quantity : α) : List (Level α) → Option (List (Level α))
  | [] => none
  | level :: rest =>
    if level.price == price then some ({ level with quantity := quantity } :: rest)
    else (replaceLevel price quantity rest).map (level :: ·)

/-- Find or replace, then append while there is room. -/
def updateLevels [BEq α] (levels : List (Level α)) (price quantity : α) : List (Level α) :=
  match replaceLevel price quantity levels with
  | some replaced => replaced
  | none => if levels.length < maxLevels then levels ++ [⟨price,quantity⟩] else levels

/-- Imbalance and spread are recomputed only when both sides have a level. -/
def recalculate [Add α] [Sub α] [Div α] (book : OrderBook α) : OrderBook α :=
  match book.bidLevels, book.askLevels with
  | bid :: _, ask :: _ =>
    { book with
      imbalance := (bid.quantity - ask.quantity) / (bid.quantity + ask.quantity)
      spread := ask.price - bid.price }
  | _, _ => book

def applyTrade [Add α] [Sub α] [Div α] [BEq α] [LE α] [DecidableLE α] (book : OrderBook α)
    (trade : MarketDataEvent α) : OrderBook α :=
  let book := { book with lastPrice := trade.price }
  let book :=
    if trade.isBuyerMaker then
      { book with
        sellVolume := book.sellVolume + trade.quantity
        bidLevels := (updateLevels book.bidLevels trade.price trade.quantity).mergeSort
          (fun a b => decide (a.price ≥ b.price)) }
    else
      { book with
        buyVolume := book.buyVolume + trade.quantity
        askLevels := (updateLevels book.askLevels trade.price trade.quantity).mergeSort
          (fun a b => decide (a.price ≤ b.price)) }
  book.recalculate

def getTopBids (book : OrderBook α) (n : ℕ) : List (Level α) := book.bidLevels.take n

def getTopAsks (book : OrderBook α) (n : ℕ) : List (Level α) := book.askLevels.take n

end Code

end OrderBook
end HftEngine.Book
