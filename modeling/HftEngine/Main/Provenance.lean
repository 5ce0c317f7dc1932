import HftEngine.Exchange.Matching
import HftEngine.Main.History

/-! Where orders at the exchange and fills come from. Only the OMS forwards an order, the
exchange keeps it as it is, and a Filled report repeats it. -/
set_option linter.unusedSectionVars false

namespace HftEngine.Main
open HftEngine.Core Strategy Exchange Fifo
variable {α : Type} [∀ n, OfNat α n]

/-- Validated orders satisfy `R`, and Filled reports are the fills of orders that do. -/
def Carries (R : OrderRequest α → Prop) : Event α → Prop
  | .validatedOrder order => R order
  | .executionReport report => report.status = .filled → ∃ order, R order ∧ Fills order report
  | _ => True

variable {R R' : OrderRequest α → Prop}

theorem carries_input {event : Event α} (h : IsInput event) : Carries R event := by
  cases event <;> trivial

theorem Carries.mono {event : Event α} (h : Carries R event) (hR : ∀ order, R order → R' order) :
    Carries R' event := by
  cases event with
  | validatedOrder order => exact hR order h
  | executionReport report =>
    intro hfilled
    obtain ⟨order,horder,hfills⟩ := h hfilled
    exact ⟨order,hR order horder,hfills⟩
  | _ => trivial

/-- Orders with `R` are passed on in events with `K`: nothing is asked of events from outside or
of reports that are no fills, and a fill of an order with `R` has `K`. -/
structure Passes (R : OrderRequest α → Prop) (K : Event α → Prop) : Prop where
  input : ∀ event, IsInput event → K event
  validated : ∀ order, K (.validatedOrder order) ↔ R order
  fill : ∀ order report, R order → Fills order report → K (.executionReport report)
  other : ∀ report : ExecutionReport α, report.status ≠ .filled → K (.executionReport report)

/-- The orders at the exchange have `R`, and the pending events have `K`. -/
structure PassedOn {σ : Type} (R : OrderRequest α → Prop) (K : Event α → Prop) (c : Components σ α)
    (p : List (Event α)) : Prop where
  resting : ∀ order ∈ c.matchingEngine.restingOrders, R order
  pending : ∀ event ∈ p, K event

variable [Add α] [Sub α] [Mul α] [Div α] [Neg α] [LT α] [DecidableLT α] [LE α] [DecidableLE α]
  [Min α] [Max α]

namespace Passes
variable {σ : Type} {S : StrategyApi σ α} {clock : Clock} {c : Components σ α} {p : List (Event α)}
  {K : Event α → Prop}

theorem signals (h : Passes R K) (signals : List (StrategyEvent α)) :
    ∀ event ∈ signals.map StrategyEvent.toEvent, K event := by
  intro event hevent
  obtain ⟨signal,-,rfl⟩ := List.mem_map.mp hevent
  exact h.input _ (isInput_toEvent signal)

/-- Trade ids do not matter for where a fill comes from. -/
theorem reports (h : Passes R K) {reports : List (ExecutionReport α)}
    (hfills : ∀ report ∈ reports.map blankTradeId, report.status = .filled → ∃ order price,
      R order ∧ report = MatchingEngine.reportOf order price order.quantity .filled) :
    ∀ event ∈ reports.map Event.executionReport, K event := by
  intro event hevent
  obtain ⟨report,hreport,rfl⟩ := List.mem_map.mp hevent
  by_cases hfilled : report.status = .filled
  · obtain ⟨order,price,horder,hblank⟩ := hfills _ (List.mem_map_of_mem hreport) hfilled
    exact h.fill order report horder (fills_of_blank hblank)
  · exact h.other report hfilled

/-- A report that is no fill. -/
theorem report (h : Passes R K) {reports : List (ExecutionReport α)} {report : ExecutionReport α}
    (hreports : reports.map blankTradeId = [report]) (hstatus : report.status ≠ .filled) :
    ∀ event ∈ reports.map Event.executionReport, K event := by
  apply h.reports
  rw [hreports]
  intro r hmem hfilled
  rw [List.mem_singleton.mp hmem] at hfilled
  exact absurd hfilled hstatus

/-- A push from outside. -/
theorem push (h : Passes R K) {event : Event α} (hc : PassedOn R K c p) (hevent : IsInput event)
    (ok : Bool) : PassedOn R K c (p ++ accepted [.push event ok]) := by
  refine ⟨hc.resting,?_⟩
  intro e he
  cases List.mem_append.mp he with
  | inl hold => exact hc.pending e hold
  | inr hnew =>
    have hmem := (accepted_sublist [Op.push event ok]).subset hnew
    rw [attempted_push, attempted_nil, List.mem_singleton] at hmem
    rw [hmem]
    exact h.input event hevent

/-- A tick: the sweep keeps some resting orders and fills the others. -/
theorem onMarketData (h : Passes R K) {md : MarketDataEvent α}
    (hc : PassedOn R K c (.marketData md :: p)) :
    PassedOn R K (c.onMarketData S clock md).1 (c.onMarketData S clock md).2 := by
  constructor
  · intro order horder
    simp only [Components.onMarketData, MatchingEngine.updateMarketPrice_restingOrders] at horder
    exact hc.resting order (List.mem_of_mem_filter horder)
  · intro event hevent
    simp only [Components.onMarketData, List.mem_append] at hevent
    cases hevent with
    | inl hsignal => exact h.signals _ event hsignal
    | inr hreport =>
      refine h.reports ?_ event hreport
      rw [MatchingEngine.updateMarketPrice_reports]
      intro report hmem _
      obtain ⟨order,horder,rfl⟩ := List.mem_map.mp hmem
      exact ⟨order,_,hc.resting order (List.mem_of_mem_filter horder),rfl⟩

/-- A validated order is filled, rests or is rejected. -/
theorem onValidatedOrder (h : Passes R K) {order : OrderRequest α}
    (hc : PassedOn R K c (.validatedOrder order :: p)) :
    PassedOn R K (c.onValidatedOrder order).1 (c.onValidatedOrder order).2 := by
  have horder : R order := (h.validated order).mp (hc.pending _ List.mem_cons_self)
  cases c.matchingEngine.processOrder_arrival order with
  | filled price hprice hresting hreports =>
    refine ⟨?_,h.reports ?_⟩
    · simp only [Components.onValidatedOrder, hresting]
      exact hc.resting
    · rw [hreports]
      intro report hmem _
      exact ⟨order,price,horder,List.mem_singleton.mp hmem⟩
  | rested hresting hreports =>
    refine ⟨?_,h.report hreports (by simp [MatchingEngine.reportOf])⟩
    simp only [Components.onValidatedOrder, hresting]
    intro o ho
    cases List.mem_append.mp ho with
    | inl hold => exact hc.resting o hold
    | inr hnew =>
      rw [List.mem_singleton.mp hnew]
      exact horder
  | rejected hresting hreports =>
    refine ⟨?_,h.report hreports (by simp [MatchingEngine.reportOf])⟩
    simp only [Components.onValidatedOrder, hresting]
    exact hc.resting

/-- Handling any event, if what the OMS forwards satisfies `R`. -/
theorem dispatch (h : Passes R K) {event : Event α} (hc : PassedOn R K c (event :: p))
    (hforward : ∀ request, event = .orderRequest request →
      Oms.OrderManager.validateOrder c.risk request = true →
      R { request with orderTs := clock 0 }) :
    PassedOn R K (c.dispatch S clock event).1 (c.dispatch S clock event).2 := by
  cases event with
  | marketData md => exact h.onMarketData hc
  | validatedOrder order => exact h.onValidatedOrder hc
  | orderRequest request =>
    refine ⟨hc.resting,?_⟩
    cases hv : Oms.OrderManager.validateOrder c.risk request with
    | true =>
      have houts := Components.onOrderRequest_accepted clock c hv
      simp only [Components.dispatch, houts]
      intro event hevent
      rw [List.mem_singleton.mp hevent]
      exact (h.validated _).mpr (hforward request rfl hv)
    | false =>
      have houts := Components.onOrderRequest_rejected clock c hv
      simp [Components.dispatch, houts]
  | cancelOrder orderId =>
    exact ⟨hc.resting,h.report (c.matchingEngine.cancelOrder_reports orderId)
      (by simp [MatchingEngine.reportOf])⟩
  | executionReport report =>
    refine ⟨?_,h.signals _⟩
    have hengine := Components.onExecutionReport_matchingEngine S clock report c
    rw [Components.dispatch, hengine]
    exact hc.resting

/-- The same with the pushes that were accepted appended to what is left. -/
theorem handle (h : Passes R K) {event : Event α} {acc : List (Event α)}
    (hc : PassedOn R K c (event :: p))
    (hforward : ∀ request, event = .orderRequest request →
      Oms.OrderManager.validateOrder c.risk request = true →
      R { request with orderTs := clock 0 })
    (hacc : acc.Sublist (c.dispatch S clock event).2) :
    PassedOn R K (c.dispatch S clock event).1 (p ++ acc) := by
  have hstep : PassedOn R K (c.dispatch S clock event).1 (c.dispatch S clock event).2 :=
    h.dispatch hc hforward
  refine ⟨hstep.resting,List.forall_mem_append.mpr ⟨?_,?_⟩⟩
  · exact (List.forall_mem_cons.mp hc.pending).2
  · intro e he
    exact hstep.pending e (hacc.subset he)

end Passes

theorem passes_carries (R : OrderRequest α → Prop) : Passes R (Carries R) where
  input _ h := carries_input h
  validated _ := Iff.rfl
  fill order _ horder hfills _ := ⟨order,horder,hfills⟩
  other _ hstatus hfilled := absurd hfilled hstatus

/-- All orders at the exchange and on their way there satisfy `R`, and so do those that the
pending Filled reports are about. -/
structure Carried {σ : Type} (R : OrderRequest α → Prop) (c : Components σ α) (p : List (Event α)) :
    Prop where
  resting : ∀ order ∈ c.matchingEngine.restingOrders, R order
  pending : ∀ event ∈ p, Carries R event

namespace Carried
variable {σ : Type} {S : StrategyApi σ α} {clock : Clock} {c : Components σ α} {p : List (Event α)}

theorem of_passedOn (h : PassedOn R (Carries R) c p) : Carried R c p := ⟨h.resting,h.pending⟩

theorem passedOn (h : Carried R c p) : PassedOn R (Carries R) c p := ⟨h.resting,h.pending⟩

theorem init (strategy : σ) (maxPosition : α) :
    Carried R (Components.init strategy maxPosition) [] :=
  ⟨fun _ h => (List.not_mem_nil h).elim,fun _ h => (List.not_mem_nil h).elim⟩

theorem mono (h : Carried R c p) (hR : ∀ order, R order → R' order) : Carried R' c p :=
  ⟨fun order horder => hR order (h.resting order horder),
    fun event hevent => (h.pending event hevent).mono hR⟩

theorem input {event : Event α} (h : Carried R c p) (hevent : IsInput event) (ok : Bool) :
    Carried R c (p ++ accepted [.push event ok]) :=
  of_passedOn ((passes_carries R).push h.passedOn hevent ok)

theorem handle {event : Event α} {acc : List (Event α)} (h : Carried R c (event :: p))
    (hforward : ∀ request, event = .orderRequest request →
      Oms.OrderManager.validateOrder c.risk request = true →
      R { request with orderTs := clock 0 })
    (hacc : acc.Sublist (c.dispatch S clock event).2) :
    Carried R (c.dispatch S clock event).1 (p ++ acc) :=
  of_passedOn ((passes_carries R).handle h.passedOn hforward hacc)

end Carried
end HftEngine.Main
