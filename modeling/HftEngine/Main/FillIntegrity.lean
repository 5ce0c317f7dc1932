import HftEngine.Main.OrderLifecycle
import HftEngine.Main.Positions
import HftEngine.Main.Provenance

/-! Fill integrity. A Filled report that is handled repeats the one request of its id that the
OMS accepted before, and no id is filled twice. -/
set_option linter.unusedSectionVars false

namespace HftEngine.Main
open HftEngine.Core Strategy Exchange Fifo
variable {α : Type}

/-- A request that the OMS accepted, with the stamp it put on the forwarded copy. -/
structure Acceptance (α : Type := ℚ) where
  request : OrderRequest α
  stamp : ℕ
  deriving DecidableEq, Repr

def Acceptance.forwarded (a : Acceptance α) : OrderRequest α :=
  { a.request with orderTs := a.stamp }

def forwardedOrder : Event α → Option (OrderRequest α)
  | .validatedOrder order => some order
  | _ => none

theorem forwardedOrder_input {event : Event α} (h : IsInput event) :
    forwardedOrder event = none := by
  cases event <;> first | rfl | exact h.elim

theorem forwardedOrder_reports (reports : List (ExecutionReport α)) :
    (reports.map Event.executionReport).filterMap forwardedOrder = [] := by
  simp [List.filterMap_eq_nil_iff, forwardedOrder]

/-- Order ids of the Filled reports among events. -/
def filledIds (events : List (Event α)) : List ℕ :=
  (filledReports events).map ExecutionReport.orderId

variable [Add α] [Sub α] [Mul α] [Div α] [Neg α] [LT α] [DecidableLT α] [LE α]
  [DecidableLE α] [Min α] [Max α] [∀ n, OfNat α n]

namespace Components
variable {σ : Type} (c : Components σ α)

/-- The acceptance that handling an event amounts to, if it is one. -/
def accept (clock : Clock) : Event α → List (Acceptance α)
  | .orderRequest request =>
    if Oms.OrderManager.validateOrder c.risk request then [⟨request,clock 0⟩] else []
  | _ => []

end Components

/-- What the OMS accepts it forwards with its stamp, and nothing else is forwarded. -/
theorem Components.accept_forwarded {σ : Type} (S : StrategyApi σ α) (c : Components σ α)
    (clock : Clock) (event : Event α) : (c.accept clock event).map Acceptance.forwarded =
      (c.dispatch S clock event).2.filterMap forwardedOrder := by
  cases event with
  | marketData md =>
    simp only [dispatch, onMarketData, List.filterMap_append, forwardedOrder_reports,
      filterMap_signals forwardedOrder (fun _ => forwardedOrder_input)]
    rfl
  | orderRequest request =>
    cases hv : Oms.OrderManager.validateOrder c.risk request with
    | true =>
      have houts := onOrderRequest_accepted clock c hv
      simp only [dispatch, houts, accept, hv]
      rfl
    | false =>
      have houts := onOrderRequest_rejected clock c hv
      simp [dispatch, houts, accept, hv]
  | validatedOrder order =>
    simp only [dispatch, onValidatedOrder, forwardedOrder_reports]
    rfl
  | cancelOrder orderId =>
    simp only [dispatch, onCancelOrder, forwardedOrder_reports]
    rfl
  | executionReport report =>
    simp only [dispatch, onExecutionReport_pushes,
      filterMap_signals forwardedOrder (fun _ => forwardedOrder_input)]
    rfl

/-- Orders forwarded with an id, counted as events or as orders. -/
theorem countP_forwarded (id : ℕ) (events : List (Event α)) :
    (events.filterMap forwardedOrder).countP (fun order => order.orderId == id) =
      events.countP (isValidated id) := by
  induction events with
  | nil => rfl
  | cons event events ih =>
    cases event with
    | validatedOrder order =>
      simp [List.countP_cons, forwardedOrder, isValidated, ih]
    | _ => simpa [List.countP_cons, List.filterMap_cons, forwardedOrder, isValidated] using ih

/-- Fills of an id, counted by their ids or in its lifecycle. -/
theorem count_filledIds (id : ℕ) (events : List (Event α)) :
    (filledIds events).count id = (events.filterMap (lifeStatus id)).count .filled := by
  induction events with
  | nil => rfl
  | cons event events ih =>
    cases event with
    | executionReport report =>
      by_cases hid : report.orderId = id
      · cases hstatus : report.status <;>
          simpa [filledIds, filledReports, filledReport, lifeStatus, hstatus, hid] using ih
      · by_cases hfilled : report.status = .filled <;>
          simpa [filledIds, filledReports, filledReport, lifeStatus, hfilled, hid] using ih
    | _ => simpa [filledIds, filledReports, filledReport, lifeStatus, List.filterMap_cons] using ih

theorem Stage.count_filled {requests queued validated resting : ℕ} {st : List OrderStatus}
    (h : Stage requests queued validated resting st) : st.count .filled ≤ 1 := by
  rcases h.2 with ⟨rfl,-⟩ | ⟨rfl,-⟩ | ⟨hst,-⟩
  · decide
  · decide
  · have hall : ∀ life ∈ lifecycles, life.count .filled ≤ 1 := by decide
    exact hall st hst

namespace EventLoop
variable {σ : Type} (S : StrategyApi σ α)

/-- The requests that the OMS has accepted in a run, in order. -/
def acceptances (s : EventLoop σ α) (labels : List (Label α)) : List (Acceptance α) :=
  (machine S).collect (onHandled Components.accept) s labels

/-- The next step handles the event. -/
def Handles (s : EventLoop σ α) (l : Label α) (event : Event α) : Prop :=
  l.action.isProcess = true ∧ s.handling = true ∧ s.batch.head? = some event

theorem acceptances_forwarded (s : EventLoop σ α) (labels : List (Label α)) :
    (acceptances S s labels).map Acceptance.forwarded =
      (attempted (run S s labels).2).filterMap forwardedOrder :=
  map_collect_onHandled S (fun _ => forwardedOrder_input) (Components.accept_forwarded S) s labels

variable {S}

theorem Handles.mem_pending {s : EventLoop σ α} {l : Label α} {event : Event α}
    (h : Handles s l event) :
    event ∈ s.pending :=
  List.mem_append_left _ (List.mem_of_head? h.2.2)

/-- Whatever rests, is on its way to the exchange or is reported as filled was forwarded. -/
theorem carried_forwarded (strategy : σ) (maxPosition : α) (labels : List (Label α)) :
    Carried (fun order => Event.validatedOrder order ∈
        attempted (run S (init strategy maxPosition) labels).2)
      (run S (init strategy maxPosition) labels).1.components
      (run S (init strategy maxPosition) labels).1.pending := by
  apply run_invariant' (I := fun c p tr =>
    Carried (fun order => Event.validatedOrder order ∈ attempted tr) c p)
  · intro c p tr event ok hevent ih
    refine (ih.input hevent ok).mono ?_
    intro order horder
    rw [attempted_append]
    exact List.mem_append_left _ horder
  · intro c event p tr clock ops ih hattempted _
    have hacc := sublist_of_attempted hattempted
    rw [attempted_append, attempted_pop, hattempted]
    refine (ih.mono ?_).handle ?_ hacc
    · intro order horder
      exact List.mem_append_left _ horder
    · rintro request rfl hv
      apply List.mem_append_right
      rw [Components.dispatch, Components.onOrderRequest_accepted clock c hv]
      exact List.mem_singleton.mpr rfl
  · exact Carried.init strategy maxPosition

/-- Every request is forwarded at most once. -/
theorem forwarded_le (strategy : σ) (maxPosition : α) (labels : List (Label α)) (id : ℕ) :
    (attempted (run S (init strategy maxPosition) labels).2).countP (isValidated id) +
      (run S (init strategy maxPosition) labels).1.pending.countP (isRequest id) ≤
        (attempted (run S (init strategy maxPosition) labels).2).countP (isRequest id) := by
  apply run_invariant' (I := fun _ p tr =>
    (attempted tr).countP (isValidated id) + p.countP (isRequest id) ≤
      (attempted tr).countP (isRequest id))
  · intro c p tr event ok hevent ih
    have hreq := (accepted_sublist [Op.push event ok]).countP_le (p := isRequest id)
    have hval : (attempted [Op.push event ok]).countP (isValidated id) = 0 := by
      cases event <;> simp_all [IsInput, isValidated]
    rw [attempted_append, List.countP_append, List.countP_append, List.countP_append]
    omega
  · intro c event p tr clock ops ih hattempted _
    have hreq := (accepted_sublist ops).countP_le (p := isRequest id)
    have hval : (attempted ops).countP (isValidated id) ≤ [event].countP (isRequest id) := by
      rw [hattempted, ← countP_forwarded, ← Components.accept_forwarded, List.countP_map]
      cases event with
      | orderRequest request =>
        cases hv : Oms.OrderManager.validateOrder c.risk request with
        | true => simp [Components.accept, hv, Acceptance.forwarded, isRequest]
        | false => simp [Components.accept, hv]
      | _ => exact Nat.zero_le _
    have hhead : (event :: p).countP (isRequest id) =
        [event].countP (isRequest id) + p.countP (isRequest id) := by
      rw [← List.singleton_append, List.countP_append]
    rw [attempted_append, attempted_pop, List.countP_append, List.countP_append,
      List.countP_append]
    omega
  · exact Nat.zero_le _

/-- The accepted requests of an id are as many as its forwarded copies. -/
theorem length_acceptances (s : EventLoop σ α) (labels : List (Label α)) (id : ℕ) :
    ((acceptances S s labels).filter (fun a => a.request.orderId == id)).length =
      (attempted (run S s labels).2).countP (isValidated id) := by
  rw [← countP_forwarded, ← acceptances_forwarded, List.countP_map, ← List.countP_eq_length_filter]
  rfl

/-- No id is filled twice. -/
theorem filledIds_nodup (strategy : σ) (maxPosition : α) (labels : List (Label α))
    (hids : (requestIds (run S (init strategy maxPosition) labels).2).Nodup) :
    (filledIds (attempted (run S (init strategy maxPosition) labels).2)).Nodup := by
  rw [List.nodup_iff_count_le_one]
  intro id
  have hone := List.nodup_iff_count_le_one.mp hids id
  rw [requestIds, ← countP_isRequest] at hone
  rw [count_filledIds]
  exact Stage.count_filled (stage_after strategy maxPosition labels id hone)

/-- With pairwise distinct order ids no id is filled twice, and whenever a Filled report is
handled, the OMS has accepted exactly one request with its id before, and the report agrees
with the forwarded copy of that request in order id, strategy, symbol, side, quantity and both
timestamps. The queue may refuse any push. -/
theorem fill_integrity (strategy : σ) (maxPosition : α) (labels : List (Label α))
    (hids : (requestIds (run S (init strategy maxPosition) labels).2).Nodup) :
    (filledIds (attempted (run S (init strategy maxPosition) labels).2)).Nodup ∧
    (filledIds (popped (run S (init strategy maxPosition) labels).2)).Nodup ∧
    ∀ before l after report, labels = before ++ l :: after →
      Handles (run S (init strategy maxPosition) before).1 l (.executionReport report) →
      report.status = .filled →
      ∃ a, (acceptances S (init strategy maxPosition) before).filter
        (fun a => a.request.orderId == report.orderId) = [a] ∧ Fills a.forwarded report := by
  have hemitted := filledIds_nodup strategy maxPosition labels hids
  refine ⟨hemitted,?_,?_⟩
  · have hsub : (popped (run S (init strategy maxPosition) labels).2).Sublist
        (attempted (run S (init strategy maxPosition) labels).2) := by
      refine List.Sublist.trans ?_ (accepted_sublist _)
      rw [accepted_eq strategy maxPosition labels]
      exact List.sublist_append_left _ _
    exact hemitted.sublist ((hsub.filterMap _).map _)
  · rintro before l after report rfl hhandles hfilled
    have hcarried := carried_forwarded (S := S) strategy maxPosition before
    obtain ⟨order,horder,hfills⟩ := hcarried.pending _ hhandles.mem_pending hfilled
    obtain ⟨a,ha,rfl⟩ : ∃ a ∈ acceptances S (init strategy maxPosition) before,
        a.forwarded = order := by
      rw [← List.mem_map, acceptances_forwarded, List.mem_filterMap]
      exact ⟨_,horder,rfl⟩
    have hmem : a ∈ (acceptances S (init strategy maxPosition) before).filter
        (fun a => a.request.orderId == report.orderId) :=
      List.mem_filter.mpr ⟨ha,beq_iff_eq.mpr hfills.orderId.symm⟩
    -- the request that was accepted is the only one pushed with this id
    have hone : ((acceptances S (init strategy maxPosition) before).filter
        (fun a => a.request.orderId == report.orderId)).length ≤ 1 := by
      have hle := forwarded_le (S := S) strategy maxPosition before report.orderId
      have hnodup := List.nodup_iff_count_le_one.mp hids report.orderId
      rw [run_append, requestIds, attempted_append, List.filterMap_append, List.count_append,
        ← countP_isRequest] at hnodup
      rw [length_acceptances]
      omega
    obtain ⟨b,hb⟩ := List.length_eq_one_iff.mp
      (le_antisymm hone (List.length_pos_of_mem hmem))
    rw [hb, List.mem_singleton] at hmem
    rw [hb, ← hmem]
    exact ⟨a,rfl,hfills⟩

/-- An order that rests and is filled by a later tick. -/
def restThenFill : List (Label Double) :=
  [.tick 100,.limit 7 .buy 99 1] ++ Label.processes 12 ++ [.tick 98] ++ Label.processes 6

theorem fill_integrity_restThenFill :
    (filledIds (attempted (run (.silent Double) (init () 100) restThenFill).2)).Nodup ∧
    (filledIds (popped (run (.silent Double) (init () 100) restThenFill).2)).Nodup ∧
    ∀ before l after report, restThenFill = before ++ l :: after →
      Handles (run (.silent Double) (init () 100) before).1 l (.executionReport report) →
      report.status = .filled →
      ∃ a, (acceptances (.silent Double) (init () 100) before).filter
        (fun a => a.request.orderId == report.orderId) = [a] ∧ Fills a.forwarded report :=
  fill_integrity () 100 restThenFill (by decide +kernel)

end EventLoop
end HftEngine.Main
