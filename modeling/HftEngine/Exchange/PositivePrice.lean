import HftEngine.Exchange.Marketability
import HftEngine.Oms.OrderManager

/-! On which runs the exchange fills at positive prices only, in double precision. Limit orders on
arrival are guarded against a missing price, market orders against a price that compares as not
positive, which NaN does not, and the sweep of resting orders has no guard, so that a market price
low enough fills at a non-positive synthetic ask. -/
namespace HftEngine.Exchange
open HftEngine.Core

/-- What the OMS checks of an order besides the position. -/
def PassesChecks (order : OrderRequest Double) : Prop :=
  ¬order.quantity ≤ 0 ∧ (order.type = .limit → ¬order.price ≤ 0)

instance (order : OrderRequest Double) : Decidable (PassesChecks order) :=
  inferInstanceAs (Decidable (¬order.quantity ≤ 0 ∧ (order.type = .limit → ¬order.price ≤ 0)))

theorem passesChecks_of_validated {risk : Risk.RiskEngine Double} {request : OrderRequest Double}
    (h : Oms.OrderManager.validateOrder risk request = true) : PassesChecks request := by
  unfold Oms.OrderManager.validateOrder at h
  split_ifs at h with hquantity hprice
  exact ⟨hquantity,fun htype hle => hprice ⟨htype,hle⟩⟩

/-- No buy order with a number for a price rests when the market price puts the ask at or below
zero, and no market order arrives when the price it would be filled at is NaN. -/
def FillsPositive (e : MatchingEngine Double) : EngineCall Double → Prop
  | .updateMarketPrice md => md.price ≤ -1/4 →
      ∀ order ∈ e.restingOrders, order.side = .buy → order.price.isNan = true
  | .processOrder order => order.type = .market → (e.oppositePrice order.side).isNan = false
  | .cancelOrder _ => True

instance (e : MatchingEngine Double) : (c : EngineCall Double) → Decidable (FillsPositive e c)
  | .processOrder order => inferInstanceAs
      (Decidable (order.type = .market → (e.oppositePrice order.side).isNan = false))
  | .updateMarketPrice md => inferInstanceAs (Decidable (md.price ≤ -1/4 →
      ∀ order ∈ e.restingOrders, order.side = .buy → order.price.isNan = true))
  | .cancelOrder _ => isTrue trivial

/-- The limit prices of the resting orders have passed the check. -/
def RestingPositive (e : MatchingEngine Double) : Prop :=
  ∀ order ∈ e.restingOrders, ¬order.price ≤ 0

theorem call_restingPositive {e : MatchingEngine Double} (h : RestingPositive e)
    {c : EngineCall Double} (hnew : ∀ order ∈ processedOrders [c], PassesChecks order) :
    RestingPositive (e.call c).1 := by
  obtain ⟨filled,rejected,accepted,houtcome⟩ := Outcome.exists_of_call e c
  intro order horder
  cases List.mem_append.mp (houtcome.resting.subset horder) with
  | inl hold => exact h order hold
  | inr haccepted =>
    exact (hnew order (houtcome.arrived.subset haccepted)).2 (houtcome.limit order haccepted)

/-- The prices at which a price update fills. -/
theorem updateMarketPrice_lastPrices (e : MatchingEngine Double) (md : MarketDataEvent Double) :
    (e.updateMarketPrice md).2.map ExecutionReport.lastPrice =
      (e.restingOrders.filter (e.priced md).crosses).map
        (fun order => (e.priced md).oppositePrice order.side) := by
  have hprices := congrArg (List.map ExecutionReport.lastPrice) (e.updateMarketPrice_reports md)
  rw [List.map_map, List.map_map] at hprices
  exact hprices

section Numbers

theorem isNan_zero : (0 : Double).isNan = false := Double.isNan_round 0

theorem neg_quarter : (-1/4 : Double) = .finite (-(1/4)) inRange_quarter.neg := by
  have hround : (-1/4 : Double) = Double.round (-(1/4)) := by decide +kernel
  rw [hround, Double.round_of_inRange inRange_quarter.neg]

/-- The synthetic ask is at most zero exactly if the market price is at most minus half the
spread; the rounding of the sum does not matter. -/
theorem ask_nonpos_iff (e : MatchingEngine Double) (md : MarketDataEvent Double) :
    (e.priced md).oppositePrice .buy ≤ 0 ↔ md.price ≤ -1/4 := by
  change md.price + 1/2/2 ≤ 0 ↔ _
  rw [half_spread, neg_quarter]
  exact Double.add_finite_nonpos_iff md.price inRange_quarter

end Numbers

/-- A sweep of limit prices that passed the check fills at positive prices exactly if the ask is
positive or no buy order rests. -/
theorem updateMarketPrice_positive {e : MatchingEngine Double} (h : RestingPositive e)
    (md : MarketDataEvent Double) :
    (∀ report ∈ (e.updateMarketPrice md).2, 0 < report.lastPrice) ↔
      FillsPositive e (.updateMarketPrice md) := by
  rw [← List.forall_mem_map (P := fun price : Double => 0 < price), updateMarketPrice_lastPrices,
    List.forall_mem_map]
  constructor
  · intro hpositive hprice order horder hside
    by_contra hnumber
    have hask := (ask_nonpos_iff e md).mpr hprice
    -- The order is above zero and the ask is not, so they cross.
    have habove : 0 < order.price :=
      (Double.not_le_iff (by simpa using hnumber) isNan_zero).mp (h order horder)
    have hcrosses : (e.priced md).crosses order = true := by
      rw [MatchingEngine.crosses, hside]
      exact decide_eq_true (Double.le_trans hask (Double.le_of_lt habove))
    have hfill := hpositive order (List.mem_filter.mpr ⟨horder,hcrosses⟩)
    rw [hside] at hfill
    exact (Double.not_lt_iff isNan_zero (Double.isNan_of_le hask).1).mpr hask hfill
  · intro hbuys order horder
    obtain ⟨hresting,hcrosses⟩ := List.mem_filter.mp horder
    have hlimit := (e.priced md).withinLimit_of_crosses hcrosses
    unfold WithinLimit at hlimit
    cases hside : order.side with
    | sell =>
      rw [hside] at hlimit
      have habove := (Double.not_le_iff (Double.isNan_of_le hlimit).1 isNan_zero).mp
        (h order hresting)
      exact Double.lt_of_lt_of_le habove hlimit
    | buy =>
      rw [hside] at hlimit
      obtain ⟨hask,hnumber⟩ := Double.isNan_of_le hlimit
      refine (Double.not_le_iff hask isNan_zero).mp fun hnonpos => ?_
      have hnan := hbuys ((ask_nonpos_iff e md).mp hnonpos) order hresting hside
      rw [hnumber] at hnan
      contradiction

/-- An order is filled on arrival at a positive price unless it is a market order and the price
is NaN; then it is filled at NaN. -/
theorem processOrder_positive (e : MatchingEngine Double) (order : OrderRequest Double) :
    (∀ report ∈ (e.processOrder order).2, report.status = .filled → 0 < report.lastPrice) ↔
      FillsPositive e (.processOrder order) := by
  constructor
  · intro hpositive htype
    by_contra hnan
    have hprice : e.oppositePrice order.side = .nan := by
      cases hopposite : e.oppositePrice order.side with
      | nan => rfl
      | _ => simp [hopposite, Double.isNan] at hnan
    have hfilled : (e.processOrder order).2 = [(e.emitExecution order .nan order.quantity .filled
        order.signalTs order.orderTs).2] := by
      have hopposite : (if order.side = .buy then e.currentBestAsk else e.currentBestBid) =
          .nan := by
        rw [← hprice]
        cases order.side <;> rfl
      simp [MatchingEngine.processOrder, htype, MatchingEngine.matchMarketOrder, hopposite,
        Double.le_def, Double.le]
    rw [hfilled] at hpositive
    have hlt := hpositive _ (List.mem_singleton_self _) rfl
    have hnumber := (Double.isNan_of_lt hlt).2
    contradiction
  · intro hnumber report hreport hfilled
    have harrival := e.processOrder_filled hreport hfilled
    cases htype : order.type with
    | market =>
      have hprice := harrival.market htype
      rw [harrival.price] at hprice ⊢
      exact (Double.not_le_iff (hnumber htype) isNan_zero).mp hprice
    | limit => exact (harrival.limit htype).1

/-- A call fills at positive prices exactly if it meets the condition. -/
theorem call_positive {e : MatchingEngine Double} (h : RestingPositive e) (c : EngineCall Double) :
    (∀ report ∈ (e.call c).2, report.status = .filled → 0 < report.lastPrice) ↔
      FillsPositive e c := by
  cases c with
  | processOrder order => exact processOrder_positive e order
  | updateMarketPrice md =>
    have hstatus := status_of_map_eq (e.updateMarketPrice_reports md) (fun _ => rfl)
    rw [← updateMarketPrice_positive h md]
    exact forall₂_congr (fun report hreport => by simp [hstatus report hreport])
  | cancelOrder orderId =>
    refine iff_of_true ?_ trivial
    intro report hreport hfilled
    rw [List.mem_singleton.mp hreport] at hfilled
    contradiction

/-- Over orders that passed the checks, the exchange fills at positive prices only exactly if no
buy order rests whenever a market price puts the ask at or below zero, and no market order is
processed while the latest market price is NaN. -/
theorem fills_positive_iff {calls : List (EngineCall Double)}
    (h : ∀ order ∈ processedOrders calls, PassesChecks order) :
    (∀ report ∈ reportsWith .filled (MatchingEngine.machine.run (.init Double) calls).2,
      0 < report.lastPrice) ↔ MatchingEngine.machine.Along FillsPositive (.init Double) calls := by
  have hnew : ∀ c ∈ calls, ∀ order ∈ processedOrders [c], PassesChecks order := by
    intro c hc order horder
    obtain ⟨c',hc',horder'⟩ := List.mem_filterMap.mp horder
    rw [List.mem_singleton.mp hc'] at horder'
    exact h order (List.mem_filterMap.mpr ⟨c,hc,horder'⟩)
  simp only [reportsWith, List.mem_filter, decide_eq_true_eq, and_imp]
  rw [Machine.forall_run_iff_along
    (p := fun report : ExecutionReport Double => report.status = .filled → 0 < report.lastPrice)]
  exact MatchingEngine.machine.along_congr_of_invariant (I := RestingPositive)
    (fun e c hc he => call_restingPositive he (hnew c hc)) (fun e c _ he => call_positive he c)
    (fun order horder => absurd horder List.not_mem_nil)

/-- A sell rests while the market price is negative and while it is NaN; a buy that arrives at the
negative price is not filled. -/
def restingSell : List (EngineCall Double) :=
  [.updateMarketPrice ⟨['B'],100,1,0,false⟩,.processOrder ⟨1,0,['B'],.buy,.limit,101,1,0,0⟩,
    .processOrder ⟨2,0,['B'],.sell,.limit,105,1,0,0⟩,.updateMarketPrice ⟨['B'],-1,1,0,false⟩,
    .processOrder ⟨3,0,['B'],.buy,.market,0,1,0,0⟩,.updateMarketPrice ⟨['B'],.nan,1,0,false⟩]

theorem fills_positive_restingSell :
    (reportsWith .filled (MatchingEngine.machine.run (.init Double) restingSell).2).map
      ExecutionReport.lastPrice = [100 + 1/4] ∧
    ∀ report ∈ reportsWith .filled (MatchingEngine.machine.run (.init Double) restingSell).2,
      0 < report.lastPrice :=
  ⟨by decide +kernel,(fills_positive_iff (by decide +kernel)).mpr (by decide +kernel)⟩

/-- A buy at 100 rests when the market price falls to -1: it is filled at -3/4. -/
def belowZero : List (EngineCall Double) :=
  [.processOrder ⟨1,0,['B'],.buy,.limit,100,1,0,0⟩,.updateMarketPrice ⟨['B'],-1,1,0,false⟩]

theorem fills_below_zero : (∀ order ∈ processedOrders belowZero, PassesChecks order) ∧
    ¬∀ report ∈ reportsWith .filled (MatchingEngine.machine.run (.init Double) belowZero).2,
      0 < report.lastPrice := by
  decide +kernel

end HftEngine.Exchange
