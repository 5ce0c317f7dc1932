import HftEngine.Exchange.Conservation
import HftEngine.Foundation.Double
import Mathlib.Data.List.Induction

/-! At which price the exchange fills. Market orders, limit orders on arrival and resting orders
in a sweep are all filled completely at the best price of the other side, which the latest market
price determines, and no limit order gets a worse price than its limit. -/
set_option linter.unusedSectionVars false

namespace HftEngine.Exchange
open HftEngine.Core Number

section Generic
variable {α : Type}

def EngineCall.price? : EngineCall α → Option α
  | .updateMarketPrice md => some md.price
  | _ => none

/-- The latest market price that the engine has been given. -/
def latestPrice (calls : List (EngineCall α)) : Option α :=
  (calls.filterMap EngineCall.price?).getLast?

theorem latestPrice_concat (calls : List (EngineCall α)) (c : EngineCall α) :
    latestPrice (calls ++ [c]) = c.price?.or (latestPrice calls) := by
  unfold latestPrice
  rw [List.filterMap_append]
  cases h : c.price? with
  | none => simp [h]
  | some price => simp [h]

theorem processedOrders_concat (calls : List (EngineCall α)) (c : EngineCall α) :
    processedOrders (calls ++ [c]) = processedOrders calls ++ processedOrders [c] :=
  List.filterMap_append ..

/-- The price is not worse than the limit of the order. -/
def WithinLimit [LE α] (order : OrderRequest α) (price : α) : Prop :=
  match order.side with
  | .buy => price ≤ order.price
  | .sell => order.price ≤ price

namespace MatchingEngine
variable [LE α] [DecidableLE α] (e : MatchingEngine α)

/-- An order that crosses is not filled beyond its limit. -/
theorem withinLimit_of_crosses {order : OrderRequest α} (h : e.crosses order = true) :
    WithinLimit order (e.oppositePrice order.side) := by
  unfold crosses at h
  unfold WithinLimit
  cases hside : order.side with
  | buy =>
    rw [hside] at h
    exact of_decide_eq_true h
  | sell =>
    rw [hside] at h
    exact of_decide_eq_true h

variable [LT α] [DecidableLT α] [∀ n, OfNat α n]

theorem limitMatch_eq_some {order : OrderRequest α} {price : α}
    (h : e.limitMatch order = some price) :
    price = e.oppositePrice order.side ∧ WithinLimit order price := by
  unfold limitMatch at h
  unfold WithinLimit
  cases hside : order.side with
  | buy =>
    simp only [hside, Option.ite_none_right_eq_some, Option.some.injEq] at h
    obtain ⟨⟨-,hlimit⟩,rfl⟩ := h
    exact ⟨rfl,hlimit⟩
  | sell =>
    simp only [hside, Option.ite_none_right_eq_some, Option.some.injEq] at h
    obtain ⟨⟨-,hlimit⟩,rfl⟩ := h
    exact ⟨rfl,hlimit⟩

/-- What holds of a report that an order is filled on arrival; the two guards of the price are
opposite comparisons. -/
structure FilledOnArrival (order : OrderRequest α) (report : ExecutionReport α) : Prop where
  fills : Fills order report
  price : report.lastPrice = e.oppositePrice order.side
  market : order.type = .market → ¬report.lastPrice ≤ 0
  limit : order.type = .limit → 0 < report.lastPrice ∧ WithinLimit order report.lastPrice

theorem processOrder_filled {order : OrderRequest α} {report : ExecutionReport α}
    (hreport : report ∈ (e.processOrder order).2) (hfilled : report.status = .filled) :
    e.FilledOnArrival order report := by
  have hopposite : (if order.side = .buy then e.currentBestAsk else e.currentBestBid) =
      e.oppositePrice order.side := by
    cases order.side <;> rfl
  cases htype : order.type with
  | market =>
    simp only [processOrder, htype, if_true, matchMarketOrder, hopposite] at hreport
    split_ifs at hreport with hprice
    · rw [List.mem_singleton.mp hreport] at hfilled
      contradiction
    · rw [List.mem_singleton.mp hreport]
      exact ⟨fills_of_blank rfl,rfl,fun _ => hprice,by simp [htype]⟩
  | limit =>
    simp only [processOrder, htype, reduceCtorEq, if_false, matchLimitOrder] at hreport
    cases hmatch : e.limitMatch order with
    | some price =>
      rw [hmatch] at hreport
      obtain ⟨hprice,hlimit⟩ := e.limitMatch_eq_some hmatch
      rw [List.mem_singleton.mp hreport]
      exact ⟨fills_of_blank rfl,hprice,by simp [htype],
        fun _ => ⟨e.limitMatch_pos hmatch,hlimit⟩⟩
    | none =>
      rw [hmatch] at hreport
      rw [List.mem_singleton.mp hreport] at hfilled
      contradiction

end MatchingEngine

variable [LE α] [DecidableLE α] [LT α] [DecidableLT α] [∀ n, OfNat α n] [Add α] [Sub α] [Div α]

/-- The price at which an order of this side is filled, half a spread of 1/2 off the market price:
ask for a buy, bid for a sell. -/
def executionPrice (marketPrice : α) : OrderSide → α
  | .buy => marketPrice + 1/2/2
  | .sell => marketPrice - 1/2/2

namespace MatchingEngine
variable (e : MatchingEngine α)

/-- The engine is priced at the market price, or has never been given one. -/
def PricedAt : Option α → Prop
  | none => e.currentBestBid = 0 ∧ e.currentBestAsk = 0
  | some price => ∀ side, e.oppositePrice side = executionPrice price side

theorem call_pricedAt {e : MatchingEngine α} {price : Option α} (h : e.PricedAt price)
    (c : EngineCall α) : (e.call c).1.PricedAt (c.price?.or price) := by
  cases c with
  | processOrder order =>
    obtain ⟨hbid,hask⟩ := processOrder_prices e order
    cases price with
    | none => exact ⟨hbid.trans h.1,hask.trans h.2⟩
    | some price =>
      intro side
      cases side with
      | buy => exact hask.trans (h .buy)
      | sell => exact hbid.trans (h .sell)
  | updateMarketPrice md =>
    intro side
    cases side with
    | buy => exact e.updateMarketPrice_bestAsk md
    | sell => exact e.updateMarketPrice_bestBid md
  | cancelOrder orderId => cases price <;> exact h

theorem run_pricedAt (calls : List (EngineCall α)) :
    (machine.run (.init α) calls).1.PricedAt (latestPrice calls) := by
  induction calls using List.reverseRecOn with
  | nil => exact ⟨rfl,rfl⟩
  | append_singleton calls c ih =>
    rw [machine.run_append, latestPrice_concat]
    exact call_pricedAt ih c

/-- A report of a sweep, for the resting order that it fills. -/
theorem updateMarketPrice_filled {md : MarketDataEvent α} {report : ExecutionReport α}
    (hreport : report ∈ (e.updateMarketPrice md).2) : ∃ order ∈ e.restingOrders,
      Fills order report ∧ report.lastPrice = executionPrice md.price order.side ∧
        WithinLimit order report.lastPrice := by
  obtain ⟨order,hresting,hcrosses,hblank⟩ := e.updateMarketPrice_mem hreport
  have hprice : report.lastPrice = (e.priced md).oppositePrice order.side :=
    congrArg ExecutionReport.lastPrice hblank
  refine ⟨order,hresting,fills_of_blank hblank,?_,?_⟩
  · rw [hprice]
    cases order.side with
    | buy => rfl
    | sell => rfl
  · rw [hprice]
    exact (e.priced md).withinLimit_of_crosses hcrosses

end MatchingEngine

/-- What holds of a Filled report that a call emits after earlier calls: it fills an order that
was handed to the engine, completely, at the opposite best price then in force, which the latest
market price determines, and within the limit of a limit order. -/
structure Executed (before : List (EngineCall α)) (c : EngineCall α) (order : OrderRequest α)
    (marketPrice : α) (report : ExecutionReport α) : Prop where
  processed : order ∈ processedOrders (before ++ [c])
  latest : latestPrice (before ++ [c]) = some marketPrice
  fills : Fills order report
  quantity : report.lastQty = order.quantity
  price : report.lastPrice = executionPrice marketPrice order.side
  inForce : report.lastPrice =
    (MatchingEngine.machine.run (.init α) (before ++ [c])).1.oppositePrice order.side
  limit : order.type = .limit → WithinLimit order report.lastPrice

/-- The resting orders have been handed to the engine, in this order. -/
theorem resting_sublist (calls : List (EngineCall α)) :
    (MatchingEngine.machine.run (.init α) calls).1.restingOrders.Sublist
      (processedOrders calls) := by
  obtain ⟨filled,rejected,accepted,hledger⟩ := Ledger.init.run calls
  exact hledger.resting.trans hledger.arrived

theorem resting_processed (calls : List (EngineCall α)) {order : OrderRequest α}
    (h : order ∈ (MatchingEngine.machine.run (.init α) calls).1.restingOrders) :
    order ∈ processedOrders calls := (resting_sublist calls).subset h

/-- In every run of the exchange each Filled report obeys the price law. -/
theorem execution_price [Arithmetic α] (before : List (EngineCall α)) (c : EngineCall α)
    (report : ExecutionReport α)
    (hreport : report ∈ ((MatchingEngine.machine.run (.init α) before).1.call c).2)
    (hfilled : report.status = .filled) :
    ∃ order marketPrice, Executed before c order marketPrice report := by
  have hafter : (MatchingEngine.machine.run (.init α) (before ++ [c])).1 =
      ((MatchingEngine.machine.run (.init α) before).1.call c).1 := by
    rw [MatchingEngine.machine.run_append]
    rfl
  have hpriced := MatchingEngine.run_pricedAt (before ++ [c])
  have hbefore := MatchingEngine.run_pricedAt before
  have hlatest := latestPrice_concat before c
  cases c with
  | processOrder order =>
    obtain ⟨hfills,hprice,hmarketPos,hlimit⟩ :=
      MatchingEngine.processOrder_filled _ hreport hfilled
    have hnonzero : report.lastPrice ≠ 0 := by
      intro hzero
      cases htype : order.type with
      | market =>
        apply hmarketPos htype
        rw [hzero]
        exact Arithmetic.zero_le_zero
      | limit =>
        have hpos := (hlimit htype).1
        rw [hzero] at hpos
        exact Arithmetic.not_zero_lt_zero hpos
    have hsame : latestPrice (before ++ [.processOrder order]) = latestPrice before := hlatest
    rw [hsame] at hpriced
    -- a price other than zero has come from a market price
    cases hmarket : latestPrice before with
    | none =>
      rw [hmarket] at hbefore
      have hzero : ∀ side,
          (MatchingEngine.machine.run (.init α) before).1.oppositePrice side = 0 := by
        intro side
        cases side with
        | buy => exact hbefore.2
        | sell => exact hbefore.1
      exact absurd (hprice.trans (hzero order.side)) hnonzero
    | some marketPrice =>
      rw [hmarket] at hbefore hpriced
      refine ⟨order,marketPrice,?_,hsame.trans hmarket,hfills,hfills.lastQty,
        hprice.trans (hbefore order.side),?_,fun htype => (hlimit htype).2⟩
      · rw [processedOrders_concat]
        exact List.mem_append_right _ (List.mem_singleton_self order)
      · rw [hprice, hbefore order.side, hpriced order.side]
  | updateMarketPrice md =>
    obtain ⟨order,hresting,hfills,hprice,hlimit⟩ :=
      MatchingEngine.updateMarketPrice_filled _ hreport
    have hnew : latestPrice (before ++ [.updateMarketPrice md]) = some md.price := hlatest
    rw [hnew] at hpriced
    refine ⟨order,md.price,?_,hnew,hfills,hfills.lastQty,hprice,?_,fun _ => hlimit⟩
    · rw [processedOrders_concat]
      exact List.mem_append_left _ (resting_processed before hresting)
    · rw [hprice, hpriced order.side]
  | cancelOrder orderId =>
    rw [List.mem_singleton.mp hreport] at hfilled
    contradiction

end Generic

/-- The resting buy of the session is filled by the price update. -/
theorem execution_price_session :
    ∃ order marketPrice, Executed (α := Double)
      [.processOrder ⟨1,0,['B'],.buy,.limit,100,1,0,0⟩,
        .processOrder ⟨2,0,['B'],.sell,.market,0,1,0,0⟩]
      (.updateMarketPrice ⟨['B'],99,1,0,false⟩) order marketPrice
      ⟨1,0,3,['B'],.buy,397/4,1,1,0,.filled,0,0⟩ :=
  execution_price _ _ _ (by decide +kernel) rfl

end HftEngine.Exchange
