import HftEngine.Foundation.Double
import HftEngine.Foundation.PartialSums
import HftEngine.Main.Positions

/-! The position limit in the event loop. The OMS checks an order against the position alone;
the limit holds along every run in which an accepted order also leaves room for what has been
accepted and is not filled or not booked yet. Fills are booked one after another, each with a
rounding, so there must be room in whichever order they come. -/
set_option linter.unusedSectionVars false

namespace HftEngine.Main
open HftEngine.Core Strategy Exchange Fifo PartialSums

section Generic
variable {σ α : Type} [Add α] [Sub α] [Mul α] [Div α] [Neg α] [LT α] [DecidableLT α] [LE α]
  [DecidableLE α] [Min α] [Max α] [∀ n, OfNat α n]

/-- The signed quantity that an event carries towards the position. -/
def exposure : Event α → Option α
  | .validatedOrder order => some order.signedQty
  | .executionReport report => if report.status = .filled then some report.signedQty else none
  | _ => none

def exposures (events : List (Event α)) : List α := events.filterMap exposure

def restingQtys (e : MatchingEngine α) : List α := e.restingOrders.map OrderRequest.signedQty

/-- Accepted quantities that rest at the exchange, are on their way there, or are filled and not
yet booked. -/
def outstanding (c : Components σ α) (p : List (Event α)) : List α :=
  restingQtys c.matchingEngine ++ exposures p

theorem exposure_input {event : Event α} (h : IsInput event) : exposure event = none := by
  cases event <;> first | rfl | exact h.elim

theorem exposures_signals (signals : List (StrategyEvent α)) :
    exposures (signals.map StrategyEvent.toEvent) = [] :=
  filterMap_signals exposure (fun _ => exposure_input) signals

/-- Trade ids do not matter for the exposure. -/
theorem exposures_blank (reports : List (ExecutionReport α)) :
    exposures (reports.map Event.executionReport) =
      exposures ((reports.map blankTradeId).map Event.executionReport) :=
  filterMap_reports exposure (fun _ => rfl) reports

namespace Components
variable (S : StrategyApi σ α) (clock : Clock) (c : Components σ α)

/-- A tick turns resting quantities into the exposure of the sweep's reports. -/
theorem onMarketData_exposures (md : MarketDataEvent α) :
    (restingQtys (c.onMarketData S clock md).1.matchingEngine ++
      exposures (c.onMarketData S clock md).2).Perm (restingQtys c.matchingEngine) := by
  have hfills : exposures ((((c.matchingEngine.restingOrders.filter
      (c.matchingEngine.priced md).crosses).map (c.matchingEngine.priced md).fillOf)).map
        Event.executionReport) = (c.matchingEngine.restingOrders.filter
          (c.matchingEngine.priced md).crosses).map OrderRequest.signedQty := by
    simp only [exposures, List.filterMap_map]
    rw [← List.filterMap_eq_map]
    rfl
  have hpushes : exposures (c.onMarketData S clock md).2 =
      (c.matchingEngine.restingOrders.filter (c.matchingEngine.priced md).crosses).map
        OrderRequest.signedQty := by
    rw [← hfills, ← MatchingEngine.updateMarketPrice_reports, ← exposures_blank]
    simp only [onMarketData, exposures, List.filterMap_append]
    rw [← exposures, exposures_signals, List.nil_append]
  rw [hpushes, restingQtys, restingQtys, ← List.map_append]
  simp only [onMarketData, MatchingEngine.updateMarketPrice_restingOrders]
  exact (List.perm_append_comm.trans (List.filter_append_perm _ _)).map _

/-- An arriving order is filled, rests, or is dropped. -/
theorem onValidatedOrder_exposures (order : OrderRequest α) :
    (restingQtys (c.onValidatedOrder order).1.matchingEngine ++
      exposures (c.onValidatedOrder order).2).Subperm
        (restingQtys c.matchingEngine ++ [order.signedQty]) := by
  simp only [onValidatedOrder, restingQtys]
  rw [exposures_blank]
  cases c.matchingEngine.processOrder_arrival order with
  | filled price hprice hresting hreports =>
    rw [hresting, hreports]
    exact (List.Perm.refl _).subperm
  | rested hresting hreports =>
    rw [hresting, hreports, List.map_append, List.append_assoc]
    exact (List.Perm.refl _).subperm
  | rejected hresting hreports =>
    rw [hresting, hreports]
    exact (List.sublist_append_left _ _).subperm.trans
      (by rw [List.append_assoc]; exact (List.Perm.refl _).subperm)

end Components

/-- An order about to be accepted leaves the position within the limit in whichever order it and
everything outstanding is filled. -/
def LeavesRoom (c : Components σ α) : List (Event α) → Prop
  | .orderRequest request :: p =>
    Oms.OrderManager.validateOrder c.risk request = true →
      StaysWithin c.risk.maxPosition c.risk.currentPosition (request.signedQty :: outstanding c p)
  | _ => True

instance (c : Components σ α) : (p : List (Event α)) → Decidable (LeavesRoom c p)
  | [] => isTrue trivial
  | .orderRequest request :: p => inferInstanceAs (Decidable
    (Oms.OrderManager.validateOrder c.risk request = true →
      StaysWithin c.risk.maxPosition c.risk.currentPosition (request.signedQty :: outstanding c p)))
  | .marketData _ :: _ => isTrue trivial
  | .validatedOrder _ :: _ => isTrue trivial
  | .executionReport _ :: _ => isTrue trivial
  | .cancelOrder _ :: _ => isTrue trivial

/-- The position stays within the limit however what is outstanding is filled. -/
def Limited (c : Components σ α) (p : List (Event α)) : Prop :=
  StaysWithin c.risk.maxPosition c.risk.currentPosition (outstanding c p)

namespace Limited
variable {S : StrategyApi σ α} {clock : Clock} {c : Components σ α} {p acc : List (Event α)}

theorem input (h : Limited c p) {event : Event α} (hevent : IsInput event) (ok : Bool) :
    Limited c (p ++ accepted [.push event ok]) := by
  have hsame : outstanding c (p ++ accepted [.push event ok]) = outstanding c p := by
    cases ok <;> simp [outstanding, exposures, exposure_input hevent]
  unfold Limited
  rwa [hsame]

/-- What remains outstanding after an event, with the pushes that were accepted. -/
theorem outstanding_append (c : Components σ α) {ps : List (Event α)} (hacc : acc.Sublist ps) :
    (outstanding c (p ++ acc)).Subperm (restingQtys c.matchingEngine ++ exposures ps ++
      exposures p) := by
  have hpart : (exposures acc).Sublist (exposures ps) := hacc.filterMap _
  unfold outstanding
  rw [exposures, List.filterMap_append, List.append_assoc]
  have hswap : (exposures p ++ exposures acc).Perm (exposures acc ++ exposures p) :=
    List.perm_append_comm
  exact (hswap.append_left _).subperm.trans
    (((hpart.append_right _).append_left _).subperm)

/-- Handling an event that leaves room keeps the position within the limit. -/
theorem dispatch {event : Event α} (h : Limited c (event :: p))
    (hroom : LeavesRoom c (event :: p)) (hacc : acc.Sublist (c.dispatch S clock event).2) :
    Limited (c.dispatch S clock event).1 (p ++ acc) := by
  have hafter := outstanding_append (p := p) (c.dispatch S clock event).1 hacc
  unfold Limited at h ⊢
  cases event with
  | marketData md =>
    refine h.of_subperm (hafter.trans ?_)
    exact ((c.onMarketData_exposures S clock md).append_right (exposures p)).subperm
  | orderRequest request =>
    cases hv : Oms.OrderManager.validateOrder c.risk request with
    | true =>
      refine (hroom hv).of_subperm (hafter.trans ?_)
      have hpushes : exposures (c.dispatch S clock (.orderRequest request)).2 =
          [request.signedQty] := by
        rw [Components.dispatch, Components.onOrderRequest_accepted clock c hv]
        rfl
      rw [hpushes]
      exact (List.perm_append_comm.append_right _).subperm
    | false =>
      refine h.of_subperm (hafter.trans ?_)
      have hpushes : exposures (c.dispatch S clock (.orderRequest request)).2 = [] := by
        rw [Components.dispatch, Components.onOrderRequest_rejected clock c hv]
        rfl
      rw [hpushes, List.append_nil]
      exact (List.Perm.refl _).subperm
  | validatedOrder order =>
    refine h.of_subperm (hafter.trans ?_)
    have hstep := (List.subperm_append_right (exposures p)).mpr (c.onValidatedOrder_exposures order)
    rwa [List.append_assoc _ [order.signedQty]] at hstep
  | cancelOrder orderId =>
    refine h.of_subperm (hafter.trans ?_)
    have hpushes : exposures (c.dispatch S clock (.cancelOrder orderId)).2 = [] := by
      change exposures ((c.matchingEngine.cancelOrder orderId).2.map _) = []
      rw [exposures_blank, MatchingEngine.cancelOrder_reports]
      rfl
    rw [hpushes, List.append_nil]
    exact (List.Perm.refl _).subperm
  | executionReport report =>
    have hpushes : exposures (c.dispatch S clock (.executionReport report)).2 = [] :=
      exposures_signals _
    have hresting : (c.dispatch S clock (.executionReport report)).1.matchingEngine =
        c.matchingEngine := Components.onExecutionReport_matchingEngine S clock report c
    rw [hpushes, List.append_nil, hresting] at hafter
    rw [Components.dispatch, Components.onExecutionReport_risk]
    by_cases hfilled : report.status = .filled
    · rw [if_pos hfilled]
      -- The quantity of the report is the first of the outstanding ones to be added.
      have hfirst : (outstanding c (.executionReport report :: p)).Perm
          (report.signedQty :: (restingQtys c.matchingEngine ++ exposures p)) := by
        simp only [outstanding, exposures, List.filterMap_cons, exposure, if_pos hfilled]
        exact List.perm_middle
      exact (h.of_perm hfirst).add.of_subperm hafter
    · rw [if_neg hfilled]
      refine h.of_subperm (hafter.trans ?_)
      simp only [outstanding, exposures, List.filterMap_cons, exposure, if_neg hfilled]
      exact (List.Perm.refl _).subperm

end Limited

namespace EventLoop
variable (S : StrategyApi σ α) (strategy : σ) (maxPosition : α)

theorem limited_after {labels : List (Label α)} (hzero : Number.fabs (0 : α) ≤ maxPosition)
    (hroom : Meets S LeavesRoom (init strategy maxPosition) labels) :
    Limited (run S (init strategy maxPosition) labels).1.components
      (run S (init strategy maxPosition) labels).1.pending := by
  apply run_invariant (I := fun c p _ => Limited c p) (C := LeavesRoom) _ _ _ hroom
  · intro c p tr event ok hevent ih
    exact ih.input hevent ok
  · intro c event p tr clock ops ih hleft hattempted _
    exact ih.dispatch hleft (sublist_of_attempted hattempted)
  · exact staysWithin_nil hzero

theorem maxPosition_after (labels : List (Label α)) :
    (run S (init strategy maxPosition) labels).1.components.risk.maxPosition = maxPosition := by
  apply run_invariant' (I := fun c _ _ => c.risk.maxPosition = maxPosition)
  · intro c p tr event ok _ ih
    exact ih
  · intro c event p tr clock ops ih _ _
    rw [Components.dispatch_maxPosition, ih]
  · rfl

end EventLoop
end Generic

/-- In every run in which each accepted order leaves room for all that is outstanding, the
position never exceeds the limit. -/
theorem EventLoop.position_within_limit {σ : Type} (S : StrategyApi σ Double) (strategy : σ)
    (maxPosition : Double) (hmax : 0 < maxPosition) (labels : List (Label Double))
    (hroom : Meets S LeavesRoom (init strategy maxPosition) labels) :
    Number.fabs (run S (init strategy maxPosition) labels).1.components.risk.currentPosition ≤
      maxPosition := by
  have hzero : Number.fabs (0 : Double) = 0 := by decide +kernel
  have hle : Number.fabs (0 : Double) ≤ maxPosition := by
    rw [hzero]
    exact Double.le_of_lt hmax
  have hstart := (limited_after S strategy maxPosition hle hroom).start_le
  rwa [maxPosition_after S strategy maxPosition labels] at hstart

/-- In exact arithmetic the order of the fills does not matter: there must be room above for
all the buys and below for all the sells. -/
theorem leavesRoom_iff {σ : Type} (c : Components σ) (request : OrderRequest)
    (p : List Event) : LeavesRoom c (.orderRequest request :: p) ↔
      (Oms.OrderManager.validateOrder c.risk request = true →
        c.risk.currentPosition + ((request.signedQty :: outstanding c p).map (max 0)).sum ≤
            c.risk.maxPosition ∧
          -c.risk.maxPosition ≤ c.risk.currentPosition -
            ((request.signedQty :: outstanding c p).map fun qty => max 0 (-qty)).sum) := by
  simp only [LeavesRoom, staysWithin_iff]

/-- Two buys of 60 under a limit of 100, the second one checked after the first is booked. -/
def buysOneByOne : List (Label Double) :=
  [.tick 100,.limit 1 .buy 101 60] ++ Label.processes 16 ++ [.limit 2 .buy 101 60] ++
    Label.processes 16

theorem EventLoop.position_within_limit_buysOneByOne :
    Number.fabs
      (run (.silent Double) (init () 100) buysOneByOne).1.components.risk.currentPosition ≤ 100 :=
  position_within_limit (.silent Double) () 100 (by decide +kernel) buysOneByOne
    (by decide +kernel)

/-- The same two buys, the second one checked while the first is on its way. -/
def pushedTogether : List (Label Double) :=
  [.tick 100,.limit 1 .buy 101 60,.limit 2 .buy 101 60] ++ Label.processes 24

theorem EventLoop.position_over_limit :
    (run (.silent Double) (init () 100) pushedTogether).1.components.risk.currentPosition = 120 ∧
    ¬Number.fabs
      (run (.silent Double) (init () 100) pushedTogether).1.components.risk.currentPosition ≤
        100 := by
  decide +kernel

/-- In exact arithmetic the same two buys take the position to 120. -/
def buysTogether : List Label :=
  [.tick 100,.limit 1 .buy 101 60,.limit 2 .buy 101 60] ++ Label.processes 24

/-- In every reachable state an order that reduces the position passes the risk check exactly if
the position after it is within the limit. So all of them pass exactly if the position itself is
within the limit, and some of them always do. -/
theorem EventLoop.reducing_orders {σ : Type} (S : StrategyApi σ) (strategy : σ) (maxPosition : ℚ)
    (hmax : 0 ≤ maxPosition) (labels : List Label) :
    let risk := (run S (init strategy maxPosition) labels).1.components.risk
    (∀ order, risk.Reduces order → (risk.checkOrder order = true ↔
        |risk.currentPosition + order.signedQty| ≤ maxPosition)) ∧
      ((∀ order, risk.Reduces order → risk.checkOrder order = true) ↔
        |risk.currentPosition| ≤ maxPosition) ∧
      (risk.currentPosition ≠ 0 → ∃ order, risk.Reduces order ∧ risk.checkOrder order = true) := by
  intro risk
  have hlimit : risk.maxPosition = maxPosition := maxPosition_after S strategy maxPosition labels
  have hmax' : 0 ≤ risk.maxPosition := hlimit ▸ hmax
  refine ⟨?_,?_,?_⟩
  · intro order _
    rw [risk.checkOrder_iff, hlimit]
  · rw [Risk.RiskEngine.reducing_pass_iff hmax', hlimit]
  · exact Risk.RiskEngine.exists_reducing_pass hmax'

/-- From 120 over a limit of 100, some order brings the position back. -/
theorem EventLoop.reducing_orders_buysTogether :
    let risk := (run .silent (init () 100) buysTogether).1.components.risk
    risk.currentPosition ≠ 0 → ∃ order, risk.Reduces order ∧ risk.checkOrder order = true :=
  (reducing_orders .silent () 100 (by norm_num) buysTogether).2.2

/-- From 120 over a limit of 100, a sell of 10 is refused. -/
theorem EventLoop.reducing_order_refused :
    let risk := (run .silent (init () 100) buysTogether).1.components.risk
    risk.Reduces ⟨3,1,[],.sell,.market,0,10,0,0⟩ ∧
      risk.checkOrder ⟨3,1,[],.sell,.market,0,10,0,0⟩ = false := by
  decide +kernel

end HftEngine.Main
