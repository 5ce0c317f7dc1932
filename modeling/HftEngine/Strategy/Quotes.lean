import HftEngine.Book.Levels
import HftEngine.Strategy.Strategies
import Mathlib.Tactic.Linarith
import Mathlib.Tactic.Ring

/-! What the market maker reads off the best levels of the book: the imbalance of their sizes,
which need not exist, and from it two quotes that are passive and whole ticks apart. -/
namespace HftEngine.Strategy
open HftEngine.Core Book Number

section Targets
variable {α : Type} [Add α] [Sub α] [Mul α] [Div α] [Neg α] [LT α] [DecidableLT α] [Min α] [Max α]
  [∀ n, OfNat α n] [Integral α]

/-- The imbalance of two levels, if their sizes do not add up to zero. -/
def imbalance? [DecidableEq α] (bid ask : Level α) : Option α :=
  if bid.quantity + ask.quantity = 0 then none
  else some ((bid.quantity - ask.quantity) / (bid.quantity + ask.quantity))

namespace MarketMakerStrategy
variable (s : MarketMakerStrategy α) {book : OrderBook α} {bid ask : Level α}
  {bids asks : List (Level α)}

/-- `target_bid` and `target_ask`. -/
def targets (bid ask : Level α) (imbalance : α) : α × α :=
  let midPrice := (bid.price + ask.price) / 2
  let skewedBid := midPrice - s.targetSpread / 2 + imbalance * s.beta - s.currentPosition * s.alpha
  let skewedAsk := midPrice + s.targetSpread / 2 + imbalance * s.beta - s.currentPosition * s.alpha
  let tick : α := 1
  (floor (min skewedBid bid.price / tick) * tick,ceil (max skewedAsk ask.price / tick) * tick)

/-- A tick that is not throttled and moves one of the targets starts a quote round with them. -/
theorem onMarketData_targets [DecidableEq α] (hbids : book.getTopBids 1 = bid :: bids)
    (hasks : book.getTopAsks 1 = ask :: asks) {imbalance : α}
    (himbalance : imbalance? bid ask = some imbalance) (clock : Clock)
    (event : MarketDataEvent α) :
    s.onMarketData book clock event =
      if ((clock 0 : ℤ) - s.lastOrderTime).tdiv 1000000 < 50 then (s,[])
      else if fabs ((s.targets bid ask imbalance).1 - s.lastBidPrice) > 1/100 ∨
          fabs ((s.targets bid ask imbalance).2 - s.lastAskPrice) > 1/100 then
        s.requote clock (s.targets bid ask imbalance).1 (s.targets bid ask imbalance).2
      else (s,[]) := by
  have hvalue : (bid.quantity - ask.quantity) / (bid.quantity + ask.quantity) = imbalance := by
    unfold imbalance? at himbalance
    split_ifs at himbalance
    exact Option.some.inj himbalance
  simp only [onMarketData, hbids, hasks, hvalue, targets]
  rfl

end MarketMakerStrategy
end Targets

namespace MarketMakerStrategy
variable (s : MarketMakerStrategy) {book : OrderBook} {bid ask : Level} {bids asks : List Level}

/-- Targets that are whole ticks, do not cross the best levels and keep the target spread. -/
structure Passive (bid ask : Level) (targets : ℚ × ℚ) : Prop where
  bid_tick : ∃ ticks : ℤ, targets.1 = ticks
  ask_tick : ∃ ticks : ℤ, targets.2 = ticks
  bid_le : targets.1 ≤ bid.price
  le_ask : ask.price ≤ targets.2
  spread_le : s.targetSpread ≤ targets.2 - targets.1

/-- Clamping and rounding outwards only widen the quotes, whatever the skew. -/
theorem targets_passive (bid ask : Level) (imbalance : ℚ) :
    s.Passive bid ask (s.targets bid ask imbalance) := by
  have hfloor := Int.floor_le (min ((bid.price + ask.price) / 2 - s.targetSpread / 2 +
    imbalance * s.beta - s.currentPosition * s.alpha) bid.price)
  have hceil := Int.le_ceil (max ((bid.price + ask.price) / 2 + s.targetSpread / 2 +
    imbalance * s.beta - s.currentPosition * s.alpha) ask.price)
  simp only [targets, floor_eq, ceil_eq, div_one, mul_one]
  refine ⟨⟨_,rfl⟩,⟨_,rfl⟩,hfloor.trans (min_le_right _ _),(le_max_right _ _).trans hceil,?_⟩
  have hbid := hfloor.trans (min_le_left _ _)
  have hask := (le_max_left _ _).trans hceil
  simp only
  linarith

/-- On every book with both sides, crossed or not, whose best sizes have an imbalance, the market
maker computes passive targets, for any inventory and last quotes. -/
theorem quotes_passive (hbids : book.getTopBids 1 = bid :: bids)
    (hasks : book.getTopAsks 1 = ask :: asks) (hsizes : bid.quantity + ask.quantity ≠ 0)
    (clock : Clock) (event : MarketDataEvent) : ∃ imbalance, imbalance? bid ask = some imbalance ∧
      s.Passive bid ask (s.targets bid ask imbalance) ∧
      s.onMarketData book clock event =
        if ((clock 0 : ℤ) - s.lastOrderTime).tdiv 1000000 < 50 then (s,[])
        else if |(s.targets bid ask imbalance).1 - s.lastBidPrice| > 1/100 ∨
            |(s.targets bid ask imbalance).2 - s.lastAskPrice| > 1/100 then
          s.requote clock (s.targets bid ask imbalance).1 (s.targets bid ask imbalance).2
        else (s,[]) := by
  have himbalance : imbalance? bid ask =
      some ((bid.quantity - ask.quantity) / (bid.quantity + ask.quantity)) := if_neg hsizes
  have htargets := s.onMarketData_targets hbids hasks himbalance clock event
  rw [fabs_eq_abs, fabs_eq_abs] at htargets
  exact ⟨_,himbalance,s.targets_passive bid ask _,htargets⟩

/-- A book whose best bid is above its best ask. -/
def crossedBook : OrderBook :=
  { OrderBook.init with
    bidLevels := [⟨103,1⟩]
    askLevels := [⟨100,3⟩] }

/-- The inventory is far beyond its limit. -/
theorem quotes_passive_crossed : ∃ imbalance, imbalance? ⟨103,1⟩ ⟨100,3⟩ = some imbalance ∧
    (init.updatePosition 1000).Passive ⟨103,1⟩ ⟨100,3⟩
      ((init.updatePosition 1000).targets ⟨103,1⟩ ⟨100,3⟩ imbalance) :=
  have ⟨imbalance,hsome,hpassive,_⟩ := (init.updatePosition 1000).quotes_passive
    (rfl : crossedBook.getTopBids 1 = [⟨103,1⟩]) (rfl : crossedBook.getTopAsks 1 = [⟨100,3⟩])
    (by norm_num) (fun _ => 0) ⟨[],100,1,0,false⟩
  ⟨imbalance,hsome,hpassive⟩

end MarketMakerStrategy

end HftEngine.Strategy
