import HftEngine.Main.Determinism
import HftEngine.Main.FillIntegrity
import HftEngine.Main.SharedBook

/-! The position of the momentum strategy. It turns `positionOpen` around with every order that it
sends and never hears of the fill, so it is long or flat as long as its orders are filled in the
order in which it sends them. -/
set_option linter.unusedSectionVars false

namespace HftEngine.Main
open HftEngine.Core Strategy Pnl Oms Risk Exchange Fifo Number
variable {α : Type}

variable [Add α] [Sub α] [Mul α] [Div α] [Neg α] [LT α] [DecidableLT α] [LE α]
  [DecidableLE α] [Min α] [Max α] [∀ n, OfNat α n] [Integral α]

/-- An order of the momentum strategy. -/
structure IsMomentum (order : OrderRequest α) : Prop where
  strategyId : order.strategyId = 2
  type : order.type = .limit
  quantity : order.quantity = 1/2

/-- A buy opens the position and a sell closes it. -/
def turn : Bool → OrderSide → Option Bool
  | false, .buy => some true
  | true, .sell => some false
  | _, _ => none

/-- Where fills of these sides lead, one after another. -/
def turns (held : Bool) (sides : List OrderSide) : Option Bool := sides.foldlM turn held

def heldQty (α : Type := ℚ) [Div α] [∀ n, OfNat α n] (held : Bool) : α :=
  if held then 1/2 else 0

def LongOrFlat {σ : Type} (c : Components σ α) : Prop :=
  (c.pnlEngine.stats 2).position = 0 ∨ (c.pnlEngine.stats 2).position = 1/2

instance [DecidableEq α] {σ : Type} (c : Components σ α) : Decidable (LongOrFlat c) :=
  inferInstanceAs (Decidable (_ ∨ _))

/-- The price of a request about to be handled is not `<= 0`, and an order about to be filled has no
order in front of it that goes on resting: on arrival none rests, and whenever a resting order
crosses the new prices, so do those before it. -/
def InTurn {σ : Type} (c : Components σ α) : List (Event α) → Prop
  | .orderRequest request :: _ => ¬request.price ≤ 0
  | .validatedOrder order :: _ =>
    (c.matchingEngine.limitMatch order).isSome = true → c.matchingEngine.restingOrders = []
  | .marketData md :: _ => c.matchingEngine.restingOrders.Pairwise (fun earlier later =>
    (c.matchingEngine.priced md).crosses later = true →
      (c.matchingEngine.priced md).crosses earlier = true)
  | _ => True

instance {σ : Type} (c : Components σ α) : (p : List (Event α)) → Decidable (InTurn c p)
  | [] => isTrue trivial
  | .orderRequest request :: _ => inferInstanceAs (Decidable (¬request.price ≤ 0))
  | .validatedOrder order :: _ => inferInstanceAs (Decidable
    ((c.matchingEngine.limitMatch order).isSome = true → c.matchingEngine.restingOrders = []))
  | .marketData md :: _ => inferInstanceAs (Decidable
    (c.matchingEngine.restingOrders.Pairwise (fun earlier later =>
      (c.matchingEngine.priced md).crosses later = true →
        (c.matchingEngine.priced md).crosses earlier = true)))
  | .executionReport _ :: _ => isTrue trivial
  | .cancelOrder _ :: _ => isTrue trivial

theorem turns_append (held : Bool) (xs ys : List OrderSide) :
    turns held (xs ++ ys) = (turns held xs).bind (fun next => turns next ys) :=
  List.foldlM_append

theorem turns_cons (held : Bool) (side : OrderSide) (sides : List OrderSide) :
    turns held (side :: sides) = (turn held side).bind (fun next => turns next sides) :=
  List.foldlM_cons

/-- Half a unit in the arithmetic: a fill takes the position where the turn takes the flag, and one
more order of the strategy stays within the limit of 100. -/
class HalfUnits (α : Type) [Add α] [Mul α] [Div α] [Neg α] [LT α] [DecidableLT α] [LE α]
    [∀ n, OfNat α n] : Prop where
  half_pos : ¬(1/2 : α) ≤ 0
  heldQty_turn : ∀ {held next : Bool} {side : OrderSide}, turn held side = some next →
    heldQty α next = heldQty α held + 1/2 * side.sign α
  within : ∀ (held : Bool) (side : OrderSide),
    ¬(100 : α) < fabs (heldQty α held + 1/2 * side.sign α)

instance : HalfUnits ℚ where
  half_pos := by norm_num
  heldQty_turn := by
    intro held next side h
    cases held <;> cases side <;> cases h <;> norm_num [heldQty]
  within := by
    intro held side
    cases held <;> cases side <;> norm_num [heldQty]

instance : HalfUnits Double where
  half_pos := by decide +kernel
  heldQty_turn := by
    intro held next side h
    cases held <;> cases side <;> cases h <;> decide +kernel
  within := by
    intro held side
    cases held <;> cases side <;> decide +kernel

/-- What crosses as soon as something behind it crosses is at the front. -/
theorem filter_append_filter_not {α : Type*} {q : α → Bool} {xs : List α}
    (h : xs.Pairwise (fun earlier later => q later = true → q earlier = true)) :
    xs.filter q ++ xs.filter (fun x => !q x) = xs := by
  induction xs with
  | nil => rfl
  | cons x xs ih =>
    rw [List.pairwise_cons] at h
    cases hx : q x with
    | true =>
      rw [List.filter_cons_of_pos hx, List.filter_cons_of_neg (by simp [hx]), List.cons_append,
        ih h.2]
    | false =>
      have hnone : xs.filter q = [] := by
        rw [List.filter_eq_nil_iff]
        intro y hy hq
        rw [h.1 y hy hq] at hx
        contradiction
      have hall : xs.filter (fun x => !q x) = xs := by
        rw [hnone, List.nil_append] at ih
        exact ih h.2
      rw [List.filter_cons_of_neg (by simp [hx]), List.filter_cons_of_pos (by simp [hx]), hnone,
        hall, List.nil_append]

/-- The order that the strategy sends on a tick, and how it turns the flag. -/
theorem momentumSignal_turns (s : MomentumStrategy α) (md : MarketDataEvent α) :
    turns s.positionOpen ((momentumSignal s md).toList.map OrderRequest.side) =
      some (momentumNext s md).positionOpen ∧ ∀ order ∈ momentumSignal s md, IsMomentum order := by
  have hopen : (s.updateEma md.price).positionOpen = s.positionOpen := rfl
  unfold momentumSignal momentumNext MomentumStrategy.onMarketData
  by_cases hcount : (s.updateEma md.price).count < 50
  · simp [hcount, hopen, turns]
  · cases hbull : (s.updateEma md.price).bullish with
    | true =>
      have hflat : s.positionOpen = false := by
        simpa [MomentumStrategy.bullish, hopen] using (Bool.and_eq_true_iff.mp hbull).2
      simp only [hcount, if_false, hbull, if_true, MomentumStrategy.submitOrder, hflat]
      refine ⟨rfl,?_⟩
      intro order horder
      obtain rfl := Option.some.inj horder
      exact ⟨rfl,rfl,rfl⟩
    | false =>
      cases hbear : (s.updateEma md.price).bearish with
      | true =>
        have hlong : s.positionOpen = true := by
          simpa [hopen] using (Bool.and_eq_true_iff.mp hbear).2
        simp only [hcount, if_false, hbull, hbear, if_true, MomentumStrategy.submitOrder, hlong,
          Bool.false_eq_true]
        refine ⟨rfl,?_⟩
        intro order horder
        obtain rfl := Option.some.inj horder
        exact ⟨rfl,rfl,rfl⟩
      | false => simp [hcount, hbull, hbear, hopen, turns]

def filledSide : Event α → Option OrderSide
  | .executionReport report => if report.status = .filled then some report.side else none
  | _ => none

def validatedSide : Event α → Option OrderSide
  | .validatedOrder order => some order.side
  | _ => none

def requestedSide : Event α → Option OrderSide
  | .orderRequest request => some request.side
  | _ => none

/-- The sides of all orders that are filled and not booked, resting, validated and requested, from
the next one to be booked to the last one sent. -/
def pipeline {σ : Type} (c : Components σ α) (p : List (Event α)) : List OrderSide :=
  p.filterMap filledSide ++ (c.matchingEngine.restingOrders.map OrderRequest.side ++
    (p.filterMap validatedSide ++ p.filterMap requestedSide))

/-- The sweep reports the sides of the orders that it fills. -/
theorem filledSide_fills (e : MatchingEngine α) (orders : List (OrderRequest α)) :
    ((orders.map e.fillOf).map Event.executionReport).filterMap filledSide =
      orders.map OrderRequest.side := by
  induction orders with
  | nil => rfl
  | cons order orders ih => exact congrArg (order.side :: ·) ih

theorem validatedSide_reports (reports : List (ExecutionReport α)) :
    (reports.map Event.executionReport).filterMap validatedSide = [] := by
  simp [List.filterMap_eq_nil_iff, validatedSide]

theorem requestedSide_reports (reports : List (ExecutionReport α)) :
    (reports.map Event.executionReport).filterMap requestedSide = [] := by
  simp [List.filterMap_eq_nil_iff, requestedSide]

namespace Components
variable (clock : Clock) {c : Components (StrategyEngine α) α} {p : List (Event α)}
  {mm : MarketMakerStrategy α} {s : MomentumStrategy α}

/-- An accepted request moves on. -/
theorem pipeline_orderRequest {request : OrderRequest α}
    (hv : OrderManager.validateOrder c.risk request = true) :
    pipeline (c.wired clock (.orderRequest request)).1
      (p ++ (c.wired clock (.orderRequest request)).2) =
        pipeline c (.orderRequest request :: p) := by
  have houts : (c.wired clock (.orderRequest request)).2 =
      [.validatedOrder { request with orderTs := clock 0 }] := onOrderRequest_accepted clock c hv
  have hengine : (c.wired clock (.orderRequest request)).1.matchingEngine = c.matchingEngine := rfl
  rw [houts]
  simp [pipeline, hengine, List.filterMap_cons, filledSide, validatedSide, requestedSide]

/-- An order that arrives in its turn is filled behind all others that are filled, or rests behind
all others that rest. -/
theorem pipeline_validatedOrder {order : OrderRequest α} (htype : order.type = .limit)
    (hturn : InTurn c (.validatedOrder order :: p)) :
    pipeline (c.wired clock (.validatedOrder order)).1
      (p ++ (c.wired clock (.validatedOrder order)).2) =
        pipeline c (.validatedOrder order :: p) := by
  have hprocess : c.matchingEngine.processOrder order = c.matchingEngine.matchLimitOrder order := by
    simp [MatchingEngine.processOrder, htype]
  cases hmatch : c.matchingEngine.limitMatch order with
  | some price =>
    have hnone : c.matchingEngine.restingOrders = [] := hturn (by rw [hmatch]; rfl)
    simp [pipeline, dispatch, onValidatedOrder, hprocess, MatchingEngine.matchLimitOrder, hmatch,
      hnone, List.filterMap_cons, filledSide, validatedSide, requestedSide,
      MatchingEngine.emitExecution]
  | none =>
    simp [pipeline, dispatch, onValidatedOrder, hprocess, MatchingEngine.matchLimitOrder, hmatch,
      List.filterMap_cons, filledSide, validatedSide, requestedSide, MatchingEngine.emitExecution]

/-- A tick fills the orders at the front of the resting list, and the new order comes last. -/
theorem pipeline_marketData (hbook : c.orderBook = .init α)
    (hstrategy : c.strategy = [.marketMaker mm,.momentum s]) {md : MarketDataEvent α}
    (hturn : InTurn c (.marketData md :: p)) :
    pipeline (c.wired clock (.marketData md)).1 (p ++ (c.wired clock (.marketData md)).2) =
      pipeline c (.marketData md :: p) ++ (momentumSignal s md).toList.map OrderRequest.side := by
  obtain ⟨-,houts⟩ := wired_signal clock hbook hstrategy md
  have hengine : (c.wired clock (.marketData md)).1.matchingEngine =
      (c.matchingEngine.updateMarketPrice md).1 := rfl
  have hfront := congrArg (List.map OrderRequest.side) (filter_append_filter_not hturn)
  rw [List.map_append] at hfront
  have hfilled : ((c.matchingEngine.updateMarketPrice md).2.map Event.executionReport).filterMap
      filledSide = (c.matchingEngine.restingOrders.filter
        (c.matchingEngine.priced md).crosses).map OrderRequest.side := by
    rw [filterMap_reports filledSide (fun _ => rfl), MatchingEngine.updateMarketPrice_reports,
      filledSide_fills]
  have hsignal : ∀ signal : Option (OrderRequest α),
      (signal.toList.map (fun order => Event.orderRequest { order with signalTs := clock 3 })
        ).filterMap requestedSide = signal.toList.map OrderRequest.side := by
    intro signal
    cases signal <;> rfl
  have hnone : ∀ (signal : Option (OrderRequest α)) (f : Event α → Option OrderSide),
      (∀ order, f (.orderRequest order) = none) → (signal.toList.map
        (fun order => Event.orderRequest { order with signalTs := clock 3 })).filterMap f = [] := by
    intro signal f hf
    cases signal <;> simp [hf]
  rw [houts, pipeline, hengine, MatchingEngine.updateMarketPrice_restingOrders]
  simp only [List.filterMap_append, hfilled, hsignal, validatedSide_reports,
    requestedSide_reports, hnone _ filledSide (fun _ => rfl), hnone _ validatedSide (fun _ => rfl),
    List.nil_append, List.append_nil]
  rw [pipeline, ← hfront]
  simp only [List.append_assoc]
  rfl

theorem pipeline_cancelOrder (orderId : ℕ) :
    pipeline (c.wired clock (.cancelOrder orderId)).1
      (p ++ (c.wired clock (.cancelOrder orderId)).2) = pipeline c (.cancelOrder orderId :: p) := by
  simp [pipeline, dispatch, onCancelOrder, MatchingEngine.cancelOrder, List.filterMap_cons,
    filledSide, validatedSide, requestedSide, MatchingEngine.emitExecution]

/-- A fill that is booked leaves the pipeline at its front. -/
theorem pipeline_executionReport (report : ExecutionReport α) :
    (filledSide (.executionReport report)).toList ++
      pipeline (c.wired clock (.executionReport report)).1
        (p ++ (c.wired clock (.executionReport report)).2) =
      pipeline c (.executionReport report :: p) := by
  have hengine : (c.wired clock (.executionReport report)).1.matchingEngine = c.matchingEngine :=
    onExecutionReport_matchingEngine _ _ _ _
  have houts : (c.wired clock (.executionReport report)).2 = [] := rfl
  rw [houts, List.append_nil, pipeline, pipeline, hengine, ← List.append_assoc]
  congr 1
  cases hside : filledSide (.executionReport report) with
  | none => rw [List.filterMap_cons_none hside]; rfl
  | some side => rw [List.filterMap_cons_some hside]; rfl

end Components

/-- The momentum strategy after an event, and the sides of what it sends. -/
def momentumAfter (s : MomentumStrategy α) : Event α → MomentumStrategy α
  | .marketData md => momentumNext s md
  | _ => s

def sentSides (s : MomentumStrategy α) : Event α → List OrderSide
  | .marketData md => (momentumSignal s md).toList.map OrderRequest.side
  | _ => []

theorem turns_sentSides (s : MomentumStrategy α) (event : Event α) :
    turns s.positionOpen (sentSides s event) = some (momentumAfter s event).positionOpen := by
  cases event with
  | marketData md => exact (momentumSignal_turns s md).1
  | _ => rfl

/-- The wired system with `held` telling whether the booked fills leave the momentum strategy long:
everything on its way is an order of that strategy or the report of one, and the fills still to
come turn `held` into the strategy's own flag. -/
structure Tracked (c : Components (StrategyEngine α) α) (p : List (Event α)) (held : Bool)
    (mm : MarketMakerStrategy α) (s : MomentumStrategy α) : Prop where
  book : c.orderBook = .init α
  strategy : c.strategy = [.marketMaker mm,.momentum s]
  carried : Carried IsMomentum c p
  requests : ∀ request, Event.orderRequest request ∈ p → IsMomentum request
  position : (c.pnlEngine.stats 2).position = heldQty α held
  risk : c.risk = ⟨heldQty α held,100⟩
  turns : turns held (pipeline c p) = some s.positionOpen

namespace Tracked
variable {c : Components (StrategyEngine α) α} {p : List (Event α)} {held : Bool}
  {mm : MarketMakerStrategy α} {s : MomentumStrategy α} {event : Event α}

theorem longOrFlat (h : Tracked c p held mm s) : LongOrFlat c := by
  rw [LongOrFlat, h.position]
  cases held
  · exact .inl rfl
  · exact .inr rfl

theorem init : Tracked (Components.init (StrategyEngine.main α) 100) [] false (.init α)
    (.init α) where
  book := rfl
  strategy := rfl
  carried := Carried.init _ _
  requests _ hmem := absurd hmem List.not_mem_nil
  position := rfl
  risk := rfl
  turns := rfl

/-- The OMS accepts every order of the strategy that has a price. -/
theorem accepts [HalfUnits α] {request : OrderRequest α}
    (h : Tracked c (.orderRequest request :: p) held mm s)
    (hprice : ¬request.price ≤ 0) : OrderManager.validateOrder c.risk request = true := by
  have hmomentum := h.requests request List.mem_cons_self
  rw [OrderManager.validateOrder_passes, h.risk, OrderRequest.signedQty, hmomentum.quantity]
  exact ⟨HalfUnits.half_pos,fun _ => hprice,HalfUnits.within held request.side⟩

/-- Whatever is handled in its turn, the pipeline loses the fill that is booked at its front and
gains the order that is sent at its end. -/
theorem pipeline_dispatch [HalfUnits α] (clock : Clock) (h : Tracked c (event :: p) held mm s)
    (hturn : InTurn c (event :: p)) :
    (filledSide event).toList ++ pipeline (c.wired clock event).1 (p ++ (c.wired clock event).2) =
      pipeline c (event :: p) ++ sentSides s event := by
  cases event with
  | marketData md => exact Components.pipeline_marketData clock h.book h.strategy hturn
  | orderRequest request =>
    have hpipeline := Components.pipeline_orderRequest (p := p) clock (h.accepts hturn)
    exact hpipeline.trans (List.append_nil _).symm
  | validatedOrder order =>
    have hmomentum : IsMomentum order := h.carried.pending _ List.mem_cons_self
    have hpipeline := Components.pipeline_validatedOrder clock hmomentum.type hturn
    exact hpipeline.trans (List.append_nil _).symm
  | executionReport report =>
    have hpipeline := Components.pipeline_executionReport (c := c) (p := p) clock report
    exact hpipeline.trans (List.append_nil _).symm
  | cancelOrder orderId =>
    have hpipeline := Components.pipeline_cancelOrder (c := c) (p := p) clock orderId
    exact hpipeline.trans (List.append_nil _).symm

theorem strategy_dispatch (clock : Clock) (h : Tracked c (event :: p) held mm s) :
    ∃ mm', (c.wired clock event).1.strategy =
      [.marketMaker mm',.momentum (momentumAfter s event)] := by
  cases event with
  | marketData md => exact ⟨_,(Components.wired_signal clock h.book h.strategy md).1⟩
  | executionReport report =>
    refine ⟨mm,Eq.trans ?_ h.strategy⟩
    simp only [Components.wired, Components.dispatch, Components.onExecutionReport]
    split <;> rfl
  | _ => exact ⟨mm,h.strategy⟩

theorem requests_dispatch (clock : Clock) (h : Tracked c (event :: p) held mm s)
    (request : OrderRequest α)
    (hmem : .orderRequest request ∈ p ++ (c.wired clock event).2) : IsMomentum request := by
  rcases List.mem_append.mp hmem with hold | hnew
  · exact h.requests request (List.mem_cons_of_mem _ hold)
  cases event with
  | marketData md =>
    rw [(Components.wired_signal clock h.book h.strategy md).2] at hnew
    rcases List.mem_append.mp hnew with hsignal | hreport
    · obtain ⟨order,horder,heq⟩ := List.mem_map.mp hsignal
      obtain rfl := Event.orderRequest.inj heq
      have hmomentum := (momentumSignal_turns s md).2 order (Option.mem_toList.mp horder)
      exact ⟨hmomentum.strategyId,hmomentum.type,hmomentum.quantity⟩
    · obtain ⟨report,-,heq⟩ := List.mem_map.mp hreport
      cases heq
  | orderRequest r =>
    cases hv : OrderManager.validateOrder c.risk r with
    | true =>
      rw [Components.wired, Components.dispatch, Components.onOrderRequest_accepted clock c hv,
        List.mem_singleton] at hnew
      cases hnew
    | false =>
      rw [Components.wired, Components.dispatch, Components.onOrderRequest_rejected clock c hv]
        at hnew
      exact absurd hnew List.not_mem_nil
  | validatedOrder order =>
    obtain ⟨report,-,heq⟩ := List.mem_map.mp hnew
    cases heq
  | cancelOrder orderId =>
    obtain ⟨report,-,heq⟩ := List.mem_map.mp hnew
    cases heq
  | executionReport report => exact absurd hnew List.not_mem_nil

/-- A fill of the strategy moves both positions by half a unit. -/
theorem booked_carries {event : Event α} (h : Carries IsMomentum event) (position : α) :
    (filledQtys [event]).foldl (· + ·) position =
        (filledSide event).elim position (fun side => position + 1/2 * side.sign α) ∧
      ((filledFor 2 [event]).map ExecutionReport.signedQty).foldl (· + ·) position =
        (filledSide event).elim position (fun side => position + 1/2 * side.sign α) := by
  cases event with
  | executionReport report =>
    by_cases hfilled : report.status = .filled
    · obtain ⟨order,hmomentum,hfills⟩ := h hfilled
      have hid : report.strategyId = 2 := hfills.strategyId.trans hmomentum.strategyId
      have hqty : report.lastQty = 1/2 := hfills.lastQty.trans hmomentum.quantity
      have hreports : filledReports [.executionReport report] = [report] := by
        simp [filledReports, filledReport, hfilled]
      have hside : filledSide (.executionReport report) = some report.side := if_pos hfilled
      have hsigned : report.signedQty = 1/2 * report.side.sign α := by
        rw [ExecutionReport.signedQty, hqty]
      have hfor : filledFor 2 [.executionReport report] = [report] := by
        simp [filledFor, hreports, hid]
      rw [filledQtys, hfor, hreports, hside]
      simp [hsigned]
    · have hreports : filledReports [.executionReport report] = [] := by
        simp [filledReports, filledReport, hfilled]
      have hside : filledSide (.executionReport report) = none := if_neg hfilled
      rw [filledQtys, filledFor, hreports, hside]
      exact ⟨rfl,rfl⟩
  | _ => exact ⟨rfl,rfl⟩

/-- Handling an event in its turn. -/
theorem dispatch [HalfUnits α] (clock : Clock) (h : Tracked c (event :: p) held mm s)
    (hturn : InTurn c (event :: p)) :
    ∃ held' mm', Tracked (c.wired clock event).1 (p ++ (c.wired clock event).2) held' mm'
      (momentumAfter s event) := by
  obtain ⟨mm',hstrategy⟩ := h.strategy_dispatch clock
  obtain ⟨hnet,hnetFor⟩ :=
    booked_carries (h.carried.pending event List.mem_cons_self) (heldQty α held)
  have hturns : Main.turns held ((filledSide event).toList ++
      pipeline (c.wired clock event).1 (p ++ (c.wired clock event).2)) =
      some (momentumAfter s event).positionOpen := by
    rw [h.pipeline_dispatch clock hturn, turns_append, h.turns]
    exact turns_sentSides s event
  obtain ⟨held',hheld,hrest⟩ : ∃ held', heldQty α held' =
      (filledSide event).elim (heldQty α held) (fun side => heldQty α held + 1/2 * side.sign α) ∧
      Main.turns held' (pipeline (c.wired clock event).1 (p ++ (c.wired clock event).2)) =
        some (momentumAfter s event).positionOpen := by
    cases hside : filledSide event with
    | none =>
      rw [hside] at hturns
      exact ⟨held,rfl,hturns⟩
    | some side =>
      rw [hside, Option.toList_some, List.singleton_append, turns_cons] at hturns
      obtain ⟨next,hnext,hrest⟩ := Option.bind_eq_some_iff.mp hturns
      exact ⟨next,HalfUnits.heldQty_turn hnext,hrest⟩
  have hposition := Components.dispatch_bookedFor (StrategyEngine.api α) clock c event 2
  have hcurrent := Components.dispatch_booked (StrategyEngine.api α) clock c event
  have hlimit : (c.wired clock event).1.risk.maxPosition = 100 := by
    rw [Components.wired, Components.dispatch_maxPosition, h.risk]
  rw [h.position, hnetFor, ← hheld] at hposition
  rw [h.risk, hnet] at hcurrent
  refine ⟨held',mm',?_,hstrategy,?_,h.requests_dispatch clock,hposition,?_,hrest⟩
  · exact (EventLoop.dispatch_orderBook (StrategyEngine.api α) clock c event).trans h.book
  · refine h.carried.handle ?_ (List.Sublist.refl _)
    rintro request rfl -
    have hmomentum := h.requests request List.mem_cons_self
    exact ⟨hmomentum.strategyId,hmomentum.type,hmomentum.quantity⟩
  · have hsame : heldQty α held' = (c.wired clock event).1.risk.currentPosition :=
      hheld.trans hcurrent.symm
    rw [hsame, ← hlimit]

/-- A tick that is pushed waits at the end of the queue. -/
theorem push (h : Tracked c p held mm s) (md : MarketDataEvent α) :
    Tracked c (p ++ [.marketData md]) held mm s := by
  have hpipeline : pipeline c (p ++ [.marketData md]) = pipeline c p := by
    simp [pipeline, List.filterMap_cons, filledSide, validatedSide, requestedSide]
  have hinput : IsInput (.marketData md) := trivial
  refine ⟨h.book,h.strategy,h.carried.input hinput true,?_,h.position,h.risk,?_⟩
  · intro request hmem
    rcases List.mem_append.mp hmem with hold | hnew
    · exact h.requests request hold
    · cases List.mem_singleton.mp hnew
  · rw [hpipeline]
    exact h.turns

end Tracked

namespace EventLoop

/-- A run of the wired system whose orders are accepted and filled in their turn. -/
theorem tracked_after [HalfUnits α] (actions : List (Action α))
    (hwired : ∀ action ∈ actions, action.isSubmit = false)
    (hturn : Meets (StrategyEngine.api α) InTurn (init (StrategyEngine.main α) 100)
      (actions.map .ample)) :
    let final := run (StrategyEngine.api α) (init (StrategyEngine.main α) 100) (actions.map .ample)
    ∃ held mm s, Tracked final.1.components final.1.pending held mm s := by
  apply run_wired (C := InTurn) (I := fun c p _ => ∃ held mm s, Tracked c p held mm s) ?_ ?_ ?_
    hwired hturn
  · rintro c p tr md ⟨held,mm,s,htracked⟩
    exact ⟨held,mm,s,htracked.push md⟩
  · rintro c event p tr clock ops ⟨held,mm,s,htracked⟩ hcond _ _
    obtain ⟨held',mm',hnext⟩ := htracked.dispatch clock hcond
    exact ⟨held',mm',_,hnext⟩
  · exact ⟨false,.init α,.init α,Tracked.init⟩

/-- In every state of a run whose orders are accepted and filled in their turn, the momentum
strategy is flat or long by one order. -/
theorem long_or_flat [HalfUnits α] (actions : List (Action α))
    (hwired : ∀ action ∈ actions, action.isSubmit = false)
    (hturn : Meets (StrategyEngine.api α) InTurn (init (StrategyEngine.main α) 100)
      (actions.map .ample))
    (n : ℕ) : LongOrFlat (run (StrategyEngine.api α) (init (StrategyEngine.main α) 100)
      ((actions.take n).map .ample)).1.components := by
  have hprefix : Meets (StrategyEngine.api α) InTurn (init (StrategyEngine.main α) 100)
      ((actions.take n).map .ample) := by
    rw [List.map_take]
    exact Machine.Along.take _ hturn n
  obtain ⟨held,mm,s,htracked⟩ := tracked_after (actions.take n)
    (fun action haction => hwired action (List.mem_of_mem_take haction)) hprefix
  exact htracked.longOrFlat

/-- A buy at 200.25 and, once the price has fallen, a sell at 49.75. -/
def roundTrip : List (Action Double) :=
  feedPrices (List.replicate 49 100) ++ handle 120 ++ feedPrices [200] ++ handle 12 ++
    feedPrices [50,50] ++ handle 18

theorem long_or_flat_roundTrip : LongOrFlat (run (StrategyEngine.api Double)
    (init (StrategyEngine.main Double) 100) ((roundTrip.take 202).map .ample)).1.components :=
  long_or_flat roundTrip (by decide +kernel) (by decide +kernel) 202

/-- The buy with limit 102 is still resting when the sell that follows it is filled at 101.75. -/
def sellOvertakesBuy : List (Action Double) :=
  feedPrices (List.replicate 49 100) ++ handle 120 ++ feedPrices [101,200] ++ handle 12 ++
    feedPrices (List.replicate 14 102) ++ handle 48

theorem short_after_overtaking :
    (∀ action ∈ sellOvertakesBuy, action.isSubmit = false) ∧
    ((run (StrategyEngine.api Double) (init (StrategyEngine.main Double) 100)
      (sellOvertakesBuy.map .ample)).1.components.pnlEngine.stats 2).position = -(1/2) ∧
    ¬LongOrFlat (run (StrategyEngine.api Double) (init (StrategyEngine.main Double) 100)
      (sellOvertakesBuy.map .ample)).1.components := by
  decide +kernel

end EventLoop
end HftEngine.Main
