import HftEngine.Main.Provenance
import HftEngine.Main.Unordered
import HftEngine.Strategy.Requests

/-! Where orders come from in main.cpp, where only the strategies request any, on ticks. What all of
their requests satisfy, every order on its way, at the exchange or reported as filled does. -/
namespace HftEngine.Main
open HftEngine.Core Strategy Exchange Fifo

namespace Components
variable (c : Components StrategyEngine) {clock : Clock} {event : Event} {request : OrderRequest}

/-- Of the handlers only that of a tick pushes requests, those of the strategies. -/
theorem request_of_dispatch
    (h : .orderRequest request ∈ (c.dispatch StrategyEngine.api clock event).2) :
    ∃ md, event = .marketData md ∧
      .orderRequest request ∈ (StrategyEngine.onMarketData c.orderBook clock md
        (c.strategy.updatePosition c.pnlEngine.getTotalPosition)).2 := by
  have hreports : ∀ reports : List ExecutionReport,
      .orderRequest request ∉ reports.map Event.executionReport := by
    intro reports hmem
    obtain ⟨report,-,heq⟩ := List.mem_map.mp hmem
    contradiction
  cases event with
  | marketData md =>
    cases List.mem_append.mp h with
    | inl hsignal =>
      obtain ⟨signal,hmem,heq⟩ := List.mem_map.mp hsignal
      cases signal with
      | cancelOrder orderId => contradiction
      | orderRequest request' =>
        obtain rfl := Event.orderRequest.inj heq
        exact ⟨md,rfl,hmem⟩
    | inr hreport => exact absurd hreport (hreports _)
  | orderRequest request' =>
    cases hv : Oms.OrderManager.validateOrder c.risk request' with
    | true =>
      rw [dispatch, onOrderRequest_accepted clock c hv] at h
      exact absurd (List.mem_singleton.mp h) (by simp)
    | false =>
      rw [dispatch, onOrderRequest_rejected clock c hv] at h
      exact absurd h List.not_mem_nil
  | validatedOrder order => exact absurd h (hreports _)
  | cancelOrder orderId => exact absurd h (hreports _)
  | executionReport report => exact absurd h List.not_mem_nil

theorem dispatch_drafted
    (h : .orderRequest request ∈ (c.dispatch StrategyEngine.api clock event).2) :
    Drafted clock request := by
  obtain ⟨md,-,hmem⟩ := c.request_of_dispatch h
  exact StrategyEngine.onMarketData_drafted _ clock md _ hmem

end Components

/-- All requests in flight have `Q`, and so do the orders that rest, are on their way to the
exchange or have been reported as filled. -/
structure Authored {σ : Type} (Q : OrderRequest → Prop) (c : Components σ) (p : Multiset Event)
    (done : List Event) : Prop where
  requests : ∀ request, .orderRequest request ∈ p → Q request
  resting : ∀ order ∈ c.matchingEngine.restingOrders, Q order
  inFlight : ∀ event ∈ p, Carries Q event
  handled : ∀ event ∈ done, Carries Q event

/-- What all requests pushed in states with `I` satisfy, whatever their OMS timestamp, all orders
do. -/
theorem Unordered.authored {S : StrategyApi σ} {J : Event → Prop} {Q : OrderRequest → Prop}
    {I : Components σ → Prop} {strategy : σ} {maxPosition : ℚ}
    (hstamp : ∀ request t, Q request → Q { request with orderTs := t })
    (hticks : ∀ event, J event → Backtest.IsTick event)
    (hkeep : ∀ c clock event, I c → I (c.dispatch S clock event).1)
    (hauthor : ∀ c clock event request, I c →
      .orderRequest request ∈ (c.dispatch S clock event).2 → Q request)
    (hinit : I (.init strategy maxPosition)) {c : Components σ} {p : Multiset Event}
    {done : List Event} (h : Unordered S J strategy maxPosition c p done) :
    I c ∧ Authored Q c p done := by
  induction h with
  | init =>
    exact ⟨hinit,fun _ h => absurd h (Multiset.notMem_zero _),fun _ h => absurd h List.not_mem_nil,
      fun _ h => absurd h (Multiset.notMem_zero _),fun _ h => absurd h List.not_mem_nil⟩
  | input event hevent _ ih =>
    obtain ⟨hI,ih⟩ := ih
    have htick : Backtest.IsTick event := hticks event hevent
    refine ⟨hI,?_,ih.resting,?_,ih.handled⟩
    · intro request hrequest
      cases Multiset.mem_cons.mp hrequest with
      | inl hnew =>
        rw [← hnew] at htick
        exact htick.elim
      | inr hold => exact ih.requests request hold
    · intro e he
      cases Multiset.mem_cons.mp he with
      | inl hnew =>
        rw [hnew]
        exact carries_input (Backtest.isInput_of_isTick htick)
      | inr hold => exact ih.inFlight e hold
  | lose hle _ ih =>
    obtain ⟨hI,ih⟩ := ih
    exact ⟨hI,fun request hrequest => ih.requests request (Multiset.mem_of_le hle hrequest),
      ih.resting,fun event hevent => ih.inFlight event (Multiset.mem_of_le hle hevent),ih.handled⟩
  | @handle c p done clock event _ ih =>
    obtain ⟨hI,ih⟩ := ih
    have hevent : Carries Q event := ih.inFlight event (Multiset.mem_cons_self event p)
    have hpassed : PassedOn Q (Carries Q) c [event] :=
      ⟨ih.resting,List.forall_mem_singleton.mpr hevent⟩
    have hnext : PassedOn Q (Carries Q) (c.dispatch S clock event).1
        (c.dispatch S clock event).2 := by
      refine (passes_carries Q).dispatch hpassed ?_
      rintro request rfl -
      exact hstamp request _ (ih.requests request (Multiset.mem_cons_self _ p))
    refine ⟨hkeep c clock event hI,?_,hnext.resting,?_,?_⟩
    · intro request hrequest
      cases Multiset.mem_add.mp hrequest with
      | inl hold => exact ih.requests request (Multiset.mem_cons_of_mem hold)
      | inr hnew => exact hauthor c clock event request hI (Multiset.mem_coe.mp hnew)
    · intro e he
      cases Multiset.mem_add.mp he with
      | inl hold => exact ih.inFlight e (Multiset.mem_cons_of_mem hold)
      | inr hnew => exact hnext.pending e (Multiset.mem_coe.mp hnew)
    · intro e he
      cases List.mem_append.mp he with
      | inl hold => exact ih.handled e hold
      | inr hnew =>
        rw [List.mem_singleton.mp hnew]
        exact hevent

end HftEngine.Main
