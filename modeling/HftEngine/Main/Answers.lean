import HftEngine.Main.OpenOrders

/-! Answers to orders. The exchange reports on every order that reaches it, while the OMS drops a
request that fails validation without a report. -/
set_option linter.unusedSectionVars false

namespace HftEngine.Main
open HftEngine.Core Strategy Number Oms Exchange Fifo
variable {α : Type}

/-- Order id of a report that tells what became of a request: New, Filled or Rejected. -/
def answeredId : Event α → Option ℕ
  | .executionReport report =>
    if report.status = .new ∨ report.status = .filled ∨ report.status = .rejected then
      some report.orderId
    else none
  | _ => none

def answeredIds (events : List (Event α)) : List ℕ := events.filterMap answeredId

/-- Every requested id has had a report delivered to the strategies. -/
def AllAnswered (tr : List (Op (Event α))) : Prop :=
  ∀ id ∈ requestIds tr, id ∈ answeredIds (popped tr)

instance (tr : List (Op (Event α))) : Decidable (AllAnswered tr) :=
  inferInstanceAs (Decidable (∀ id ∈ requestIds tr, id ∈ answeredIds (popped tr)))

@[simp] theorem answeredIds_append (xs ys : List (Event α)) :
    answeredIds (xs ++ ys) = answeredIds xs ++ answeredIds ys := by simp [answeredIds]

theorem answeredId_input {event : Event α} (h : IsInput event) : answeredId event = none := by
  cases event <;> first | rfl | exact h.elim

@[simp] theorem answeredIds_signals (signals : List (StrategyEvent α)) :
    answeredIds (signals.map StrategyEvent.toEvent) = [] :=
  filterMap_signals answeredId (fun _ => answeredId_input) signals

/-- Trade ids do not matter for what is answered. -/
theorem answeredIds_blank (reports : List (ExecutionReport α)) :
    answeredIds (reports.map Event.executionReport) =
      answeredIds ((reports.map blankTradeId).map Event.executionReport) :=
  filterMap_reports answeredId (fun _ => rfl) reports

variable [Add α] [Sub α] [Mul α] [Div α] [Neg α] [LT α] [DecidableLT α] [LE α]
  [DecidableLE α] [Min α] [Max α] [∀ n, OfNat α n]

/-- The quantity of a request about to be handled is not zero or less, nor is its price if it is a
limit order, and it does not take the position over the limit. -/
def ValidRequest {σ : Type} (c : Components σ α) : List (Event α) → Prop
  | .orderRequest request :: _ => ¬request.quantity ≤ 0 ∧
      (request.type = .limit → ¬request.price ≤ 0) ∧
      ¬c.risk.maxPosition < fabs (c.risk.currentPosition + request.signedQty)
  | _ => True

instance {σ : Type} (c : Components σ α) : (p : List (Event α)) → Decidable (ValidRequest c p)
  | [] => isTrue trivial
  | .orderRequest request :: _ => inferInstanceAs (Decidable (¬request.quantity ≤ 0 ∧
      (request.type = .limit → ¬request.price ≤ 0) ∧
      ¬c.risk.maxPosition < fabs (c.risk.currentPosition + request.signedQty)))
  | .marketData _ :: _ => isTrue trivial
  | .validatedOrder _ :: _ => isTrue trivial
  | .executionReport _ :: _ => isTrue trivial
  | .cancelOrder _ :: _ => isTrue trivial

theorem answeredIds_fills (e : MatchingEngine α) (orders : List (OrderRequest α)) :
    answeredIds ((orders.map e.fillOf).map Event.executionReport) =
      orders.map OrderRequest.orderId := by
  induction orders with
  | nil => rfl
  | cons order orders ih => exact congrArg (order.orderId :: ·) ih

namespace Components
variable {σ : Type} (S : StrategyApi σ α) (clock : Clock) (c : Components σ α) (event : Event α)

/-- The exchange answers an order on arrival. -/
theorem answeredIds_onValidatedOrder (order : OrderRequest α) :
    answeredIds (c.onValidatedOrder order).2 = [order.orderId] := by
  rw [onValidatedOrder, answeredIds_blank]
  cases c.matchingEngine.processOrder_arrival order with
  | filled price hprice hresting hreports =>
    rw [hreports]
    rfl
  | rested hresting hreports =>
    rw [hreports]
    rfl
  | rejected hresting hreports =>
    rw [hreports]
    rfl

theorem restingIds_onValidatedOrder (order : OrderRequest α) :
    restingIds (c.onValidatedOrder order).1.matchingEngine ⊆
      restingIds c.matchingEngine ++ [order.orderId] := by
  simp only [onValidatedOrder, restingIds]
  cases c.matchingEngine.processOrder_arrival order with
  | filled price hprice hresting hreports =>
    rw [hresting]
    exact List.subset_append_left _ _
  | rested hresting hreports =>
    rw [hresting, List.map_append]
    exact List.Subset.refl _
  | rejected hresting hreports =>
    rw [hresting]
    exact List.subset_append_left _ _

/-- What the OMS forwards is the request that it handles. -/
theorem validatedIds_dispatch : (validatedIds (c.dispatch S clock event).2).Sublist
    ([event].filterMap requestId) := by
  rw [validatedIds, ← accept_forwarded]
  cases event with
  | orderRequest request =>
    cases hv : OrderManager.validateOrder c.risk request with
    | true =>
      simp only [accept, hv]
      exact List.Sublist.refl _
    | false =>
      simp only [accept, hv]
      exact List.nil_sublist _
  | _ => exact List.nil_sublist _

/-- It forwards as many requests as it handles exactly when it accepts. -/
theorem length_validatedIds_dispatch (p : List (Event α)) :
    (validatedIds (c.dispatch S clock event).2).length = ([event].filterMap requestId).length ↔
      ValidRequest c (event :: p) := by
  rw [validatedIds, ← accept_forwarded]
  cases event with
  | orderRequest request =>
    rw [ValidRequest, ← OrderManager.validateOrder_passes]
    cases hv : OrderManager.validateOrder c.risk request <;> simp [accept, hv, requestId]
  | _ => exact ⟨fun _ => trivial,fun _ => rfl⟩

/-- Only orders that rest or arrive are answered or go on resting. -/
theorem answeredIds_dispatch : answeredIds (c.dispatch S clock event).2 ⊆
    restingIds c.matchingEngine ++ validatedIds [event] := by
  cases event with
  | marketData md =>
    simp only [dispatch, onMarketData, answeredIds_append, answeredIds_signals, List.nil_append]
    rw [answeredIds_blank, MatchingEngine.updateMarketPrice_reports, answeredIds_fills]
    exact List.subset_append_of_subset_left _ (List.filter_sublist.map _).subset
  | orderRequest request =>
    cases hv : OrderManager.validateOrder c.risk request with
    | true =>
      rw [dispatch, onOrderRequest_accepted clock c hv]
      exact List.nil_subset _
    | false =>
      rw [dispatch, onOrderRequest_rejected clock c hv]
      exact List.nil_subset _
  | validatedOrder order =>
    rw [dispatch, answeredIds_onValidatedOrder]
    exact List.subset_append_right _ _
  | cancelOrder orderId =>
    rw [dispatch, onCancelOrder, answeredIds_blank, MatchingEngine.cancelOrder_reports]
    exact List.nil_subset _
  | executionReport report =>
    rw [dispatch, onExecutionReport_pushes, answeredIds_signals]
    exact List.nil_subset _

theorem restingIds_dispatch : restingIds (c.dispatch S clock event).1.matchingEngine ⊆
    restingIds c.matchingEngine ++ validatedIds [event] := by
  cases event with
  | marketData md =>
    simp only [dispatch, onMarketData, restingIds, MatchingEngine.updateMarketPrice_restingOrders]
    exact List.subset_append_of_subset_left _ (List.filter_sublist.map _).subset
  | validatedOrder order => exact c.restingIds_onValidatedOrder order
  | executionReport report =>
    rw [dispatch, onExecutionReport_matchingEngine]
    exact List.subset_append_left _ _
  | orderRequest request => exact List.subset_append_left _ _
  | cancelOrder orderId => exact List.subset_append_left _ _

/-- An order that arrives is answered. -/
theorem validatedIds_answered : validatedIds [event] ⊆
    answeredIds (c.dispatch S clock event).2 := by
  cases event with
  | validatedOrder order =>
    rw [dispatch, answeredIds_onValidatedOrder]
    exact List.Subset.refl _
  | _ => exact List.nil_subset _

end Components

/-- Whatever rests, is on its way to the exchange or has been answered was forwarded. -/
structure Traced {σ : Type} (c : Components σ α) (p pushed : List (Event α)) : Prop where
  resting : restingIds c.matchingEngine ⊆ validatedIds pushed
  pending : validatedIds p ⊆ validatedIds pushed
  answered : answeredIds pushed ⊆ validatedIds pushed

namespace Traced
variable {σ : Type} {S : StrategyApi σ α} {clock : Clock} {c : Components σ α}
  {p pushed acc : List (Event α)} {event : Event α}

theorem init (strategy : σ) (maxPosition : α) :
    Traced (Components.init strategy maxPosition) [] [] :=
  ⟨List.nil_subset _,List.nil_subset _,List.nil_subset _⟩

theorem input (h : Traced c p pushed) (hevent : IsInput event) (hacc : acc.Sublist [event]) :
    Traced c (p ++ acc) (pushed ++ [event]) := by
  have hnone : answeredIds [event] = [] := by
    rw [answeredIds, List.filterMap_cons_none (answeredId_input hevent)]
    rfl
  have haccept : validatedIds acc = [] := by
    have hsub := (hacc.filterMap forwardedOrder).map OrderRequest.orderId
    exact List.sublist_nil.mp ((validatedIds_input hevent) ▸ hsub)
  constructor
  · rw [validatedIds_append, validatedIds_input hevent, List.append_nil]
    exact h.resting
  · rw [validatedIds_append, validatedIds_append, validatedIds_input hevent, haccept,
      List.append_nil, List.append_nil]
    exact h.pending
  · rw [validatedIds_append, answeredIds_append, validatedIds_input hevent, hnone,
      List.append_nil, List.append_nil]
    exact h.answered

theorem handle (h : Traced c (event :: p) pushed)
    (hacc : acc.Sublist (c.dispatch S clock event).2) :
    Traced (c.dispatch S clock event).1 (p ++ acc) (pushed ++ (c.dispatch S clock event).2) := by
  have hsplit : validatedIds (event :: p) = validatedIds [event] ++ validatedIds p := by
    rw [← validatedIds_append]
    rfl
  have hpending := h.pending
  rw [hsplit, List.append_subset] at hpending
  have hold : restingIds c.matchingEngine ++ validatedIds [event] ⊆ validatedIds pushed :=
    List.append_subset.mpr ⟨h.resting,hpending.1⟩
  have hgrow : validatedIds pushed ⊆ validatedIds (pushed ++ (c.dispatch S clock event).2) := by
    rw [validatedIds_append]
    exact List.subset_append_left _ _
  constructor
  · exact List.Subset.trans (List.Subset.trans (c.restingIds_dispatch S clock event) hold) hgrow
  · have hsub := (hacc.filterMap forwardedOrder).map OrderRequest.orderId
    rw [validatedIds_append, validatedIds_append]
    refine List.append_subset.mpr ⟨?_,?_⟩
    · exact List.subset_append_of_subset_left _ hpending.2
    · exact List.subset_append_of_subset_right _ hsub.subset
  · rw [answeredIds_append]
    refine List.append_subset.mpr ⟨List.Subset.trans h.answered hgrow,?_⟩
    exact List.Subset.trans (List.Subset.trans (c.answeredIds_dispatch S clock event) hold) hgrow

end Traced

namespace EventLoop
variable {σ : Type} {S : StrategyApi σ α}

theorem traced_after (strategy : σ) (maxPosition : α) (labels : List (Label α)) :
    Traced (run S (init strategy maxPosition) labels).1.components
      (run S (init strategy maxPosition) labels).1.pending
      (attempted (run S (init strategy maxPosition) labels).2) := by
  apply run_invariant' (I := fun c p tr => Traced c p (attempted tr))
  · intro c p tr event ok hevent ih
    rw [attempted_append]
    exact ih.input hevent (accepted_sublist [Op.push event ok])
  · intro c event p tr clock ops ih hattempted _
    have hacc := sublist_of_attempted hattempted
    rw [attempted_append, attempted_pop, hattempted]
    exact ih.handle hacc
  · exact Traced.init strategy maxPosition

/-- Every handled validated order is answered. -/
theorem handled_answered (strategy : σ) (maxPosition : α) (labels : List (Label α)) :
    validatedIds (popped (run S (init strategy maxPosition) labels).2) ⊆
      answeredIds (attempted (run S (init strategy maxPosition) labels).2) := by
  apply run_invariant' (I := fun _ _ tr =>
    validatedIds (popped tr) ⊆ answeredIds (attempted tr))
  · intro c p tr event ok _ ih
    rw [popped_append, popped_push, popped_nil, List.append_nil, attempted_append,
      answeredIds_append]
    exact List.subset_append_of_subset_left _ ih
  · intro c event p tr clock ops ih hattempted hpopped
    rw [popped_append, popped_pop, hpopped, attempted_append, attempted_pop, hattempted,
      validatedIds_append, answeredIds_append]
    refine List.append_subset.mpr ⟨?_,?_⟩
    · exact List.subset_append_of_subset_left _ ih
    · exact List.subset_append_of_subset_right _ (c.validatedIds_answered S clock event)
  · exact List.nil_subset _

/-- The forwarded ids are among those of the handled requests, in order. -/
theorem forwarded_sublist (s : EventLoop σ α) (labels : List (Label α)) :
    (validatedIds (attempted (run S s labels).2)).Sublist
      ((popped (run S s labels).2).filterMap requestId) := by
  apply run_invariant' (I := fun _ _ tr =>
    (validatedIds (attempted tr)).Sublist ((popped tr).filterMap requestId))
  · intro c p tr event ok hevent ih
    rw [attempted_append, attempted_push, attempted_nil, validatedIds_append,
      validatedIds_input hevent, popped_append, popped_push, popped_nil, List.append_nil,
      List.append_nil]
    exact ih
  · intro c event p tr clock ops ih hattempted hpopped
    rw [attempted_append, attempted_pop, hattempted, validatedIds_append, popped_append,
      popped_pop, hpopped, List.filterMap_append]
    exact ih.append (c.validatedIds_dispatch S clock event)
  · exact List.Sublist.refl _

/-- A step forwards as many requests as it handles exactly when it accepts. -/
theorem length_forwarded_step (s : EventLoop σ α) (l : Label α) :
    (validatedIds (attempted (step S s l).2)).length =
        ((popped (step S s l).2).filterMap requestId).length ↔
      (l.action.isProcess = true → s.handling = true → s.batch ≠ [] →
        ValidRequest s.components s.pending) := by
  cases step_cases S s l with
  | input event ok hpush hother htrace =>
    rw [htrace, attempted_push, attempted_nil, validatedIds_input (isInput_input hpush)]
    exact ⟨fun _ hp hh hb => absurd ⟨hp,hh,hb⟩ hother,fun _ => rfl⟩
  | idle hother htrace =>
    rw [htrace]
    exact ⟨fun _ hp hh hb => absurd ⟨hp,hh,hb⟩ hother,fun _ => rfl⟩
  | handle clock event rest ops hnext _ _ hfront htrace hattempted hpopped =>
    rw [htrace, attempted_pop, popped_pop, hattempted, hpopped, hfront,
      Components.length_validatedIds_dispatch]
    exact ⟨fun h _ _ _ => h,fun h => h hnext.1 hnext.2.1 hnext.2.2⟩

/-- All handled requests are forwarded exactly when every one of them is accepted. -/
theorem length_forwarded_iff (s : EventLoop σ α) (labels : List (Label α)) :
    (validatedIds (attempted (run S s labels).2)).length =
        ((popped (run S s labels).2).filterMap requestId).length ↔
      Meets S ValidRequest s labels := by
  have hle : ∀ s l, (validatedIds (attempted (step S s l).2)).length ≤
      ((popped (step S s l).2).filterMap requestId).length := by
    intro s l
    rw [← run_singleton S s l]
    exact (forwarded_sublist s [l]).length_le
  have hledger := (machine S).run_eq_iff_along
    (v := fun tr => (validatedIds (attempted tr)).length)
    (w := fun tr => ((popped tr).filterMap requestId).length)
    (by simp) (by simp) hle s labels
  rw [Meets]
  refine hledger.trans ?_
  exact (machine S).along_congr (fun s l _ => length_forwarded_step s l) s

/-- In every run with accepted pushes and distinct order ids that ends with nothing left to handle,
every requested id has been answered exactly when each request met the validation when it was
handled. -/
theorem allAnswered_iff (strategy : σ) (maxPosition : α) (labels : List (Label α))
    (haccepted : refused (run S (init strategy maxPosition) labels).2 = [])
    (hids : (requestIds (run S (init strategy maxPosition) labels).2).Nodup)
    (hquiet : (run S (init strategy maxPosition) labels).1.pending = []) :
    AllAnswered (run S (init strategy maxPosition) labels).2 ↔
      Meets S ValidRequest (init strategy maxPosition) labels := by
  have hfifo := accepted_eq (S := S) strategy maxPosition labels
  have htraced := traced_after (S := S) strategy maxPosition labels
  have hanswered := handled_answered (S := S) strategy maxPosition labels
  have hforwarded := forwarded_sublist (S := S) (init strategy maxPosition) labels
  rw [hquiet, List.append_nil, accepted_eq_attempted haccepted] at hfifo
  rw [← length_forwarded_iff]
  rw [hfifo] at htraced hanswered hforwarded ⊢
  rw [AllAnswered, requestIds, hfifo]
  rw [requestIds, hfifo] at hids
  constructor
  · intro hall
    have hsub : (popped (run S (init strategy maxPosition) labels).2).filterMap requestId ⊆
        validatedIds (popped (run S (init strategy maxPosition) labels).2) :=
      List.Subset.trans (fun id hid => hall id hid) htraced.answered
    exact Nat.le_antisymm hforwarded.length_le (hids.length_le_of_subset hsub)
  · intro hlength id hid
    rw [← hforwarded.eq_of_length hlength] at hid
    exact hanswered hid

/-- An accepted limit order, handled. -/
def oneLimit : List (Label Double) := [.tick 100,.limit 7 .buy 101 1] ++ Label.processes 12

theorem allAnswered_iff_oneLimit :
    AllAnswered (run (.silent Double) (init () 100) oneLimit).2 ↔
      Meets (.silent Double) ValidRequest (init () 100) oneLimit :=
  allAnswered_iff () 100 oneLimit (by decide +kernel) (by decide +kernel) (by decide +kernel)

/-- An accepted limit order and one beyond the position limit, both handled. -/
def oneOfEach : List (Label Double) :=
  [.tick 100,.limit 7 .buy 101 1,.limit 8 .buy 101 200] ++ Label.processes 13

theorem over_limit_unanswered :
    refused (run (.silent Double) (init () 100) oneOfEach).2 = [] ∧
    requestIds (run (.silent Double) (init () 100) oneOfEach).2 = [7,8] ∧
    (run (.silent Double) (init () 100) oneOfEach).1.pending = [] ∧
    answeredIds (popped (run (.silent Double) (init () 100) oneOfEach).2) = [7] ∧
    ¬AllAnswered (run (.silent Double) (init () 100) oneOfEach).2 := by
  decide +kernel

end EventLoop
end HftEngine.Main
