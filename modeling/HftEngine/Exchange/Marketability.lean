import HftEngine.Exchange.ExecutionPrice
import HftEngine.Foundation.Double

/-! Which orders rest, for prices in double precision. No order is left resting that would be
filled if it arrived now; as numbers, its price does not reach the best price of the other side.
With NaN, which compares with nothing, an order rests whatever the prices are. -/
namespace HftEngine.Exchange
open HftEngine.Core

/-- The price of a resting order does not reach the best price of the other side, or there is no
such price. -/
def Waits {α : Type} [LT α] [LE α] [OfNat α 0] (e : MatchingEngine α) (order : OrderRequest α) :
    Prop :=
  match order.side with
  | .buy => order.price < e.currentBestAsk ∨ e.currentBestAsk ≤ 0
  | .sell => order.price > e.currentBestBid ∨ e.currentBestBid ≤ 0

section NotANumber
variable (e : MatchingEngine Double)

theorem inRange_quarter : Binary64.InRange (1/4) :=
  ⟨⟨1,-2,by norm_num,by norm_num,by norm_num⟩,
    lt_trans (by norm_num [abs_of_pos]) Binary64.one_lt_overflow⟩

/-- Half the spread is the number it is written as. -/
theorem half_spread : (1/2/2 : Double) = .finite (1/4) inRange_quarter := by
  have hround : (1/2/2 : Double) = Double.round (1/4) := by decide +kernel
  rw [hround, Double.round_of_inRange inRange_quarter]

/-- Half the spread off a price is a number exactly if the price is one. -/
theorem priced_isNan (md : MarketDataEvent Double) (side : OrderSide) :
    ((e.priced md).oppositePrice side).isNan = md.price.isNan := by
  cases side with
  | buy =>
    change (md.price + 1/2/2).isNan = md.price.isNan
    rw [half_spread, Double.isNan_add_finite]
  | sell =>
    change (md.price - 1/2/2).isNan = md.price.isNan
    rw [half_spread, Double.isNan_sub_finite]

/-- The latest market price is NaN. -/
def NanAtMarket (calls : List (EngineCall Double)) : Bool := (latestPrice calls).any Double.isNan

/-- The best prices are NaN exactly as long as the latest market price is. -/
theorem run_isNan (calls : List (EngineCall Double)) (side : OrderSide) :
    ((MatchingEngine.machine.run (.init Double) calls).1.oppositePrice side).isNan =
      NanAtMarket calls := by
  induction calls using List.reverseRecOn with
  | nil => cases side <;> exact Double.isNan_round 0
  | append_singleton calls c ih =>
    unfold NanAtMarket at ih ⊢
    rw [MatchingEngine.machine.run_append, latestPrice_concat]
    cases c with
    | processOrder order =>
      obtain ⟨hbid,hask⟩ :=
        processOrder_prices (MatchingEngine.machine.run (.init Double) calls).1 order
      cases side with
      | buy => exact (congrArg Double.isNan hask).trans ih
      | sell => exact (congrArg Double.isNan hbid).trans ih
    | updateMarketPrice md =>
      have hpriced := priced_isNan (MatchingEngine.machine.run (.init Double) calls).1 md side
      cases side with
      | buy =>
        exact (congrArg Double.isNan (MatchingEngine.updateMarketPrice_bestAsk _ md)).trans hpriced
      | sell =>
        exact (congrArg Double.isNan (MatchingEngine.updateMarketPrice_bestBid _ md)).trans hpriced
    | cancelOrder orderId => exact ih

/-- Between numbers, an order that would not be matched waits. -/
theorem waits_of_limitMatch {order : OrderRequest Double} (h : e.limitMatch order = none)
    (horder : order.price.isNan = false) (hprices : ∀ side, (e.oppositePrice side).isNan = false) :
    Waits e order := by
  have hzero : (0 : Double).isNan = false := Double.isNan_round 0
  unfold MatchingEngine.limitMatch at h
  unfold Waits
  cases hside : order.side with
  | buy =>
    have hask : e.currentBestAsk.isNan = false := hprices .buy
    simp only [hside, ite_eq_right_iff, reduceCtorEq, imp_false, not_and, gt_iff_lt] at h
    by_cases hpositive : 0 < e.currentBestAsk
    · exact .inl ((Double.not_le_iff hask horder).mp (h hpositive))
    · exact .inr ((Double.not_lt_iff hzero hask).mp hpositive)
  | sell =>
    have hbid : e.currentBestBid.isNan = false := hprices .sell
    simp only [hside, ite_eq_right_iff, reduceCtorEq, imp_false, not_and, gt_iff_lt] at h
    by_cases hpositive : 0 < e.currentBestBid
    · exact .inl ((Double.not_le_iff horder hbid).mp (h hpositive))
    · exact .inr ((Double.not_lt_iff hzero hbid).mp hpositive)

end NotANumber

/-- No marketable order is left resting while the latest market price is a number, except one
whose own price is none. -/
theorem resting_waits (calls : List (EngineCall Double)) (h : NanAtMarket calls = false) :
    ∀ order ∈ (MatchingEngine.machine.run (.init Double) calls).1.restingOrders,
      order.price.isNan = false →
        Waits (MatchingEngine.machine.run (.init Double) calls).1 order := by
  intro order horder hprice
  have hunmatched := run_unmatched (e := .init Double) (fun _ h => absurd h List.not_mem_nil)
    calls order horder
  exact waits_of_limitMatch _ hunmatched hprice fun side => (run_isNan calls side).trans h

/-- A buy that rests while NaN is the market price, and the number that follows. -/
def nanSession : List (EngineCall Double) :=
  [.processOrder ⟨1,0,['B'],.buy,.limit,100,1,0,0⟩,.updateMarketPrice ⟨['B'],.nan,1,0,false⟩,
    .updateMarketPrice ⟨['B'],101,1,0,false⟩]

theorem resting_waits_nanSession :
    Waits (MatchingEngine.machine.run (.init Double) nanSession).1
      ⟨1,0,['B'],.buy,.limit,100,1,0,0⟩ :=
  resting_waits nanSession (by decide +kernel) _ (by decide +kernel) (by decide +kernel)

/-- A buy at NaN. -/
def nanOrder : List (EngineCall Double) :=
  [.updateMarketPrice ⟨['B'],100,1,0,false⟩,.processOrder ⟨2,0,['B'],.buy,.limit,.nan,1,0,0⟩]

theorem resting_at_nan :
    (⟨1,0,['B'],.buy,.limit,100,1,0,0⟩ ∈
        (MatchingEngine.machine.run (.init Double) (nanSession.take 2)).1.restingOrders ∧
      ¬Waits (MatchingEngine.machine.run (.init Double) (nanSession.take 2)).1
        ⟨1,0,['B'],.buy,.limit,100,1,0,0⟩) ∧
    ⟨2,0,['B'],.buy,.limit,.nan,1,0,0⟩ ∈
        (MatchingEngine.machine.run (.init Double) nanOrder).1.restingOrders ∧
      ¬Waits (MatchingEngine.machine.run (.init Double) nanOrder).1
        ⟨2,0,['B'],.buy,.limit,.nan,1,0,0⟩ := by
  unfold Waits
  decide +kernel

end HftEngine.Exchange
