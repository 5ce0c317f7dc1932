import HftEngine.Exchange.Matching
import HftEngine.Foundation.Double
import HftEngine.Main.History

/-! Lifecycle of an order in the event loop. The reports of one order id, leaving out the
Cancelled ones, follow New, Filled, Rejected as a matching engine should; a Cancelled report
is one per handled cancel, whatever has become of the order. -/
set_option linter.unusedSectionVars false

namespace HftEngine.Main
open HftEngine.Core Strategy Exchange Fifo
variable {α : Type}

def isRequest (id : ℕ) : Event α → Bool
  | .orderRequest request => request.orderId == id
  | _ => false

def isValidated (id : ℕ) : Event α → Bool
  | .validatedOrder order => order.orderId == id
  | _ => false

def isCancel (id : ℕ) : Event α → Bool
  | .cancelOrder orderId => orderId == id
  | _ => false

theorem countP_isRequest_cons (id : ℕ) (request : OrderRequest α) (p : List (Event α)) :
    (Event.orderRequest request :: p).countP (isRequest id) =
      p.countP (isRequest id) + if request.orderId = id then 1 else 0 := by
  by_cases h : request.orderId = id <;> simp [isRequest, h]

theorem countP_isValidated_cons (id : ℕ) (order : OrderRequest α) (p : List (Event α)) :
    (Event.validatedOrder order :: p).countP (isValidated id) =
      p.countP (isValidated id) + if order.orderId = id then 1 else 0 := by
  by_cases h : order.orderId = id <;> simp [isValidated, h]

/-- Status of a report for the order id. -/
def reportStatus (id : ℕ) : Event α → Option OrderStatus
  | .executionReport report => if report.orderId = id then some report.status else none
  | _ => none

/-- Statuses of the reports that the exchange has emitted for an order id, in order. -/
def statuses (id : ℕ) (tr : List (Op (Event α))) : List OrderStatus :=
  (attempted tr).filterMap (reportStatus id)

@[simp] theorem statuses_append (id : ℕ) (xs ys : List (Op (Event α))) :
    statuses id (xs ++ ys) = statuses id xs ++ statuses id ys := by
  simp [statuses]

@[simp] theorem statuses_pop (id : ℕ) (event : Event α) (ops : List (Op (Event α))) :
    statuses id (.pop event :: ops) = statuses id ops := rfl

def requestId : Event α → Option ℕ
  | .orderRequest request => some request.orderId
  | _ => none

/-- Ids of all order requests pushed by strategies, in order. -/
def requestIds (tr : List (Op (Event α))) : List ℕ := (attempted tr).filterMap requestId

/-- The complete report sequences of an order that nobody cancels. -/
def lifecycles : List (List OrderStatus) := [[.filled],[.rejected],[.new,.filled]]

/-- Where an order id stands: requests made, requests and validated copies pending, resting
orders, and the reports so far other than Cancelled. -/
def Stage (requests queued validated resting : ℕ) (st : List OrderStatus) : Prop :=
  queued + validated + resting + (if st ∈ lifecycles then 1 else 0) ≤ requests ∧
    (st = [] ∧ resting = 0 ∨ st = [.new] ∧ resting = 1 ∨ st ∈ lifecycles ∧ resting = 0)

namespace Stage
variable {requests queued validated resting : ℕ} {st : List OrderStatus}

theorem init : Stage 0 0 0 0 [] := by
  refine ⟨?_,.inl ⟨rfl,rfl⟩⟩
  decide

/-- New requests may enter the queue or be refused. -/
theorem request (h : Stage requests queued validated resting st) {a b : ℕ} (hb : b ≤ a) :
    Stage (requests + a) (queued + b) validated resting st := by
  refine ⟨?_,h.2⟩
  have := h.1
  omega

/-- The OMS turns a request into at most one validated copy. -/
theorem forward (h : Stage requests queued validated resting st) {queued' validated' : ℕ}
    (hle : queued' + validated' ≤ queued + validated) :
    Stage requests queued' validated' resting st := by
  refine ⟨?_,h.2⟩
  have := h.1
  omega

/-- A single request whose validated copy is pending has no report and no resting order. -/
theorem fresh (h : Stage requests queued (validated + 1) resting st) (hone : requests ≤ 1) :
    st = [] ∧ resting = 0 ∧ queued + validated = 0 ∧ requests = 1 := by
  obtain ⟨hle,hcase⟩ := h
  rcases hcase with ⟨rfl,hr⟩ | ⟨rfl,hr⟩ | ⟨hmem,hr⟩
  · refine ⟨rfl,hr,?_,?_⟩ <;> omega
  · omega
  · rw [if_pos hmem] at hle
    omega

theorem arriveDone (h : Stage requests queued (validated + 1) resting st) (hone : requests ≤ 1)
    {status : OrderStatus} (hstatus : [status] ∈ lifecycles) :
    Stage requests queued validated resting (st ++ [status]) := by
  obtain ⟨rfl,hr,hq,hreq⟩ := h.fresh hone
  refine ⟨?_,.inr (.inr ⟨hstatus,hr⟩)⟩
  rw [List.nil_append, if_pos hstatus]
  omega

theorem arriveRest (h : Stage requests queued (validated + 1) resting st) (hone : requests ≤ 1) :
    Stage requests queued validated (resting + 1) (st ++ [.new]) := by
  obtain ⟨rfl,hr,hq,hreq⟩ := h.fresh hone
  refine ⟨?_,.inr (.inl ⟨rfl,by omega⟩)⟩
  have hnew : [OrderStatus.new] ∉ lifecycles := by decide
  rw [List.nil_append, if_neg hnew]
  omega

/-- The arrival of an order that may be another one. -/
theorem arriveDone_of {same : Prop} [Decidable same]
    (h : Stage requests queued (validated + if same then 1 else 0) resting st)
    (hone : requests ≤ 1) {status : OrderStatus} (hstatus : [status] ∈ lifecycles) :
    Stage requests queued validated resting (st ++ if same then [status] else []) := by
  by_cases hid : same
  · rw [if_pos hid] at h ⊢
    exact h.arriveDone hone hstatus
  · rw [if_neg hid] at h ⊢
    simpa using h

theorem arriveRest_of {same : Prop} [Decidable same]
    (h : Stage requests queued (validated + if same then 1 else 0) resting st)
    (hone : requests ≤ 1) : Stage requests queued validated (resting + if same then 1 else 0)
      (st ++ if same then [.new] else []) := by
  by_cases hid : same
  · rw [if_pos hid] at h ⊢
    rw [if_pos hid]
    exact h.arriveRest hone
  · rw [if_neg hid] at h ⊢
    rw [if_neg hid]
    simpa using h

/-- A sweep that removes resting orders reports each of them as filled. -/
theorem sweep {filled : ℕ} (h : Stage requests queued validated (resting + filled) st) :
    Stage requests queued validated resting (st ++ List.replicate filled .filled) := by
  obtain ⟨hle,hcase⟩ := h
  cases filled with
  | zero => simpa using ⟨hle,hcase⟩
  | succ n =>
    rcases hcase with ⟨-,hr⟩ | ⟨rfl,hr⟩ | ⟨-,hr⟩
    · omega
    · obtain ⟨rfl,rfl⟩ : n = 0 ∧ resting = 0 := by omega
      have hdone : [OrderStatus.new] ++ List.replicate (0+1) OrderStatus.filled ∈ lifecycles := by
        decide
      have hnew : [OrderStatus.new] ∉ lifecycles := by decide
      rw [if_neg hnew] at hle
      refine ⟨?_,.inr (.inr ⟨hdone,rfl⟩)⟩
      rw [if_pos hdone]
      omega
    · omega

end Stage

/-- Status of a report for the order id that is not Cancelled. -/
def lifeStatus (id : ℕ) : Event α → Option OrderStatus
  | .executionReport report =>
    if report.orderId = id ∧ report.status ≠ .cancelled then some report.status else none
  | _ => none

theorem filterMap_lifeStatus (id : ℕ) (events : List (Event α)) :
    events.filterMap (lifeStatus id) =
      (events.filterMap (reportStatus id)).filter (fun status => status ≠ .cancelled) := by
  induction events with
  | nil => rfl
  | cons event events ih =>
    cases event with
    | executionReport report =>
      by_cases hid : report.orderId = id
      · by_cases hc : report.status = .cancelled <;>
          simp [lifeStatus, reportStatus, hid, hc, ih]
      · simp [lifeStatus, reportStatus, hid, ih]
    | _ => simpa [List.filterMap_cons, lifeStatus, reportStatus] using ih

/-- Strategies push neither validated orders nor reports. -/
theorem countP_isValidated_signals (id : ℕ) (signals : List (StrategyEvent α)) :
    (signals.map StrategyEvent.toEvent).countP (isValidated id) = 0 := by
  rw [List.countP_eq_zero]
  intro event hevent
  obtain ⟨signal,-,rfl⟩ := List.mem_map.mp hevent
  cases signal <;> simp [StrategyEvent.toEvent, isValidated]

theorem lifeStatus_input (id : ℕ) (event : Event α) (h : IsInput event) :
    lifeStatus id event = none := by
  cases event <;> first | rfl | exact h.elim

theorem reportStatus_input (id : ℕ) (event : Event α) (h : IsInput event) :
    reportStatus id event = none := by
  cases event <;> first | rfl | exact h.elim

theorem countP_isRequest_reports (id : ℕ) (reports : List (ExecutionReport α)) :
    (reports.map Event.executionReport).countP (isRequest id) = 0 := by
  simp [List.countP_eq_zero, isRequest]

theorem countP_isValidated_reports (id : ℕ) (reports : List (ExecutionReport α)) :
    (reports.map Event.executionReport).countP (isValidated id) = 0 := by
  simp [List.countP_eq_zero, isValidated]

/-- Orders with the given id among the resting ones. -/
def restingCount (id : ℕ) (e : MatchingEngine α) : ℕ :=
  e.restingOrders.countP (fun order => order.orderId == id)

variable [Add α] [Sub α] [Mul α] [Div α] [Neg α] [LT α] [DecidableLT α] [LE α]
  [DecidableLE α] [Min α] [Max α] [∀ n, OfNat α n]

/-- The statuses of the sweep's reports for an id: Filled, once for each crossing order. -/
theorem lifeStatus_fills (id : ℕ) (e : MatchingEngine α) (orders : List (OrderRequest α)) :
    ((orders.map e.fillOf).map Event.executionReport).filterMap (lifeStatus id) =
      List.replicate (orders.countP (fun order => order.orderId == id)) .filled := by
  induction orders with
  | nil => rfl
  | cons order orders ih =>
    by_cases hid : order.orderId = id
    · simp only [List.map_cons, List.filterMap_cons, ih, lifeStatus, MatchingEngine.fillOf,
        MatchingEngine.reportOf, hid]
      rw [List.countP_cons_of_pos (by simp [hid])]
      rfl
    · simp only [List.map_cons, List.filterMap_cons, ih, lifeStatus, MatchingEngine.fillOf,
        MatchingEngine.reportOf, hid]
      rw [List.countP_cons_of_neg (by simp [hid])]
      rfl

/-- The stage of an id as read from components, pending events and pushed events. -/
def StageAt {σ : Type} (id : ℕ) (c : Components σ α) (p : List (Event α))
    (pushed : List (Event α)) : Prop :=
  Stage (pushed.countP (isRequest id)) (p.countP (isRequest id)) (p.countP (isValidated id))
    (restingCount id c.matchingEngine) (pushed.filterMap (lifeStatus id))

namespace Components
variable {σ : Type} {S : StrategyApi σ α} {id : ℕ} {c : Components σ α}
  {p pushed acc : List (Event α)}

/-- The stage after a handler has pushed `outs`, of which the queue has accepted `acc`. -/
theorem stageAt_append {outs : List (Event α)} : StageAt id c (p ++ acc) (pushed ++ outs) ↔
    Stage (pushed.countP (isRequest id) + outs.countP (isRequest id))
      (p.countP (isRequest id) + acc.countP (isRequest id))
      (p.countP (isValidated id) + acc.countP (isValidated id))
      (restingCount id c.matchingEngine)
      (pushed.filterMap (lifeStatus id) ++ outs.filterMap (lifeStatus id)) := by
  rw [StageAt, List.countP_append, List.countP_append, List.countP_append, List.filterMap_append]

/-- Among reports there are neither requests nor validated orders. -/
theorem countP_of_reports (id : ℕ) {reports : List (ExecutionReport α)}
    (hacc : acc.Sublist (reports.map Event.executionReport)) :
    acc.countP (isRequest id) = 0 ∧ acc.countP (isValidated id) = 0 := by
  have hreq := hacc.countP_le (p := isRequest id)
  have hval := hacc.countP_le (p := isValidated id)
  rw [countP_isRequest_reports] at hreq
  rw [countP_isValidated_reports] at hval
  exact ⟨by omega,by omega⟩

/-- A tick: strategies may push requests, and the sweep fills the crossing resting orders. -/
lemma onMarketData_stage {clock : Clock} {md : MarketDataEvent α}
    (hacc : acc.Sublist (c.onMarketData S clock md).2)
    (h : StageAt id c (.marketData md :: p) pushed) :
    StageAt id (c.onMarketData S clock md).1 (p ++ acc)
      (pushed ++ (c.onMarketData S clock md).2) := by
  have hreq := hacc.countP_le (p := isRequest id)
  have hval := hacc.countP_le (p := isValidated id)
  rw [stageAt_append]
  unfold StageAt at h
  simp only [onMarketData, List.countP_append, countP_isValidated_signals,
    countP_isValidated_reports, countP_isRequest_reports, List.filterMap_append,
    filterMap_signals _ (lifeStatus_input id), List.nil_append] at hreq hval ⊢
  rw [filterMap_reports _ (fun _ => rfl), MatchingEngine.updateMarketPrice_reports,
    lifeStatus_fills]
  have hcount : restingCount id c.matchingEngine =
      restingCount id (c.matchingEngine.updateMarketPrice md).1 +
        (c.matchingEngine.restingOrders.filter (c.matchingEngine.priced md).crosses).countP
          (fun order => order.orderId == id) := by
    have hsplit := List.countP_eq_countP_filter_add c.matchingEngine.restingOrders
      (fun order => order.orderId == id) ((c.matchingEngine.priced md).crosses)
    unfold restingCount
    rw [MatchingEngine.updateMarketPrice_restingOrders]
    omega
  rw [hcount] at h
  have hzero : acc.countP (isValidated id) = 0 := by omega
  rw [hzero, Nat.add_zero, Nat.add_zero]
  have hbefore := Stage.sweep (by simpa [isRequest, isValidated] using h)
  exact hbefore.request hreq

/-- A request leaves the queue; an accepted one comes back as its validated copy. -/
lemma onOrderRequest_stage {clock : Clock} {request : OrderRequest α}
    (hacc : acc.Sublist (c.onOrderRequest clock request).2)
    (h : StageAt id c (.orderRequest request :: p) pushed) :
    StageAt id (c.onOrderRequest clock request).1 (p ++ acc)
      (pushed ++ (c.onOrderRequest clock request).2) := by
  have hreq := hacc.countP_le (p := isRequest id)
  have hval := hacc.countP_le (p := isValidated id)
  rw [stageAt_append]
  unfold StageAt at h
  rw [countP_isRequest_cons, List.countP_cons_of_neg (by simp [isValidated])] at h
  have hengine : (c.onOrderRequest clock request).1.matchingEngine = c.matchingEngine := rfl
  rw [hengine]
  cases hv : Oms.OrderManager.validateOrder c.risk request with
  | true =>
    have houts := onOrderRequest_accepted clock c hv
    rw [houts] at hreq hval ⊢
    rw [List.countP_cons_of_neg (by simp [isRequest])] at hreq
    rw [countP_isValidated_cons] at hval
    rw [List.countP_cons_of_neg (by simp [isRequest])]
    simp only [List.countP_nil, Nat.zero_add] at hreq hval
    have hlife : [Event.validatedOrder { request with orderTs := clock 0 }].filterMap
        (lifeStatus id) = [] := rfl
    rw [hlife, List.append_nil, List.countP_nil, Nat.add_zero]
    exact h.forward (by omega)
  | false =>
    have houts := onOrderRequest_rejected clock c hv
    rw [houts] at hreq hval ⊢
    simp only [List.countP_nil, List.filterMap_nil, List.append_nil, Nat.add_zero] at hreq hval ⊢
    exact h.forward (by omega)

/-- The status that the single report of an arrival shows for an id. -/
lemma lifeStatus_single {reports : List (ExecutionReport α)} {order : OrderRequest α}
    {price quantity : α} {status : OrderStatus} (hstatus : status ≠ .cancelled)
    (h : reports.map blankTradeId = [MatchingEngine.reportOf order price quantity status]) :
    (reports.map Event.executionReport).filterMap (lifeStatus id) =
      if order.orderId = id then [status] else [] := by
  rw [filterMap_reports _ (fun _ => rfl), h]
  by_cases hid : order.orderId = id <;>
    simp [lifeStatus, MatchingEngine.reportOf, hid, hstatus]

/-- A validated order arrives at the exchange and is filled, rests or is rejected. -/
lemma onValidatedOrder_stage {order : OrderRequest α}
    (hone : pushed.countP (isRequest id) ≤ 1)
    (hacc : acc.Sublist (c.onValidatedOrder order).2)
    (h : StageAt id c (.validatedOrder order :: p) pushed) :
    StageAt id (c.onValidatedOrder order).1 (p ++ acc)
      (pushed ++ (c.onValidatedOrder order).2) := by
  obtain ⟨hreq,hval⟩ := countP_of_reports id hacc
  rw [stageAt_append, hreq, hval]
  unfold StageAt at h
  simp only [onValidatedOrder, countP_isRequest_reports, Nat.add_zero]
  rw [List.countP_cons_of_neg (by simp [isRequest]), countP_isValidated_cons] at h
  cases c.matchingEngine.processOrder_arrival order with
  | filled price hprice hresting hreports =>
    rw [lifeStatus_single (by decide) hreports]
    simp only [restingCount, hresting] at h ⊢
    exact h.arriveDone_of hone (by decide)
  | rested hresting hreports =>
    rw [lifeStatus_single (by decide) hreports]
    simp only [restingCount, hresting, List.countP_append, List.countP_singleton,
      beq_iff_eq] at h ⊢
    exact h.arriveRest_of hone
  | rejected hresting hreports =>
    rw [lifeStatus_single (by decide) hreports]
    simp only [restingCount, hresting] at h ⊢
    exact h.arriveDone_of hone (by decide)

/-- Handling any event moves the stage of an id along, if the id is requested at most once. -/
theorem dispatch_stage {event : Event α} {clock : Clock}
    (hone : pushed.countP (isRequest id) ≤ 1)
    (hacc : acc.Sublist (c.dispatch S clock event).2)
    (h : StageAt id c (event :: p) pushed) :
    StageAt id (c.dispatch S clock event).1 (p ++ acc)
      (pushed ++ (c.dispatch S clock event).2) := by
  cases event with
  | marketData md => exact onMarketData_stage hacc h
  | orderRequest request => exact onOrderRequest_stage hacc h
  | validatedOrder order => exact onValidatedOrder_stage hone hacc h
  | cancelOrder orderId =>
    obtain ⟨hreq,hval⟩ := countP_of_reports id hacc
    rw [stageAt_append, hreq, hval]
    unfold StageAt at h
    simp only [dispatch, onCancelOrder, countP_isRequest_reports]
    rw [filterMap_reports _ (fun _ => rfl), MatchingEngine.cancelOrder_reports]
    simpa [isRequest, isValidated, lifeStatus, MatchingEngine.reportOf, restingCount] using h
  | executionReport report =>
    have hreq := hacc.countP_le (p := isRequest id)
    have hval := hacc.countP_le (p := isValidated id)
    rw [stageAt_append]
    unfold StageAt at h
    have hengine : (c.dispatch S clock (.executionReport report)).1.matchingEngine =
        c.matchingEngine := onExecutionReport_matchingEngine S clock report c
    rw [hengine]
    simp only [dispatch, onExecutionReport_pushes, countP_isValidated_signals,
      filterMap_signals _ (lifeStatus_input id), List.append_nil] at hreq hval ⊢
    have hval0 : acc.countP (isValidated id) = 0 := by omega
    rw [hval0, Nat.add_zero]
    have hbefore : Stage (pushed.countP (isRequest id)) (p.countP (isRequest id))
        (p.countP (isValidated id)) (restingCount id c.matchingEngine)
        (pushed.filterMap (lifeStatus id)) := by
      simpa [isRequest, isValidated] using h
    exact hbefore.request hreq

/-- Only the handler of a cancel emits Cancelled, once and for the id it was given. -/
theorem dispatch_cancelled {event : Event α} {clock : Clock} :
    ((c.dispatch S clock event).2.filterMap (reportStatus id)).count .cancelled =
      [event].countP (isCancel id) := by
  cases event with
  | marketData md =>
    simp only [dispatch, onMarketData, List.filterMap_append, List.count_append,
      filterMap_signals _ (reportStatus_input id)]
    rw [filterMap_reports _ (fun _ => rfl), MatchingEngine.updateMarketPrice_reports]
    simp [List.count_eq_zero, isCancel, reportStatus, MatchingEngine.fillOf,
      MatchingEngine.reportOf]
  | orderRequest request =>
    cases hv : Oms.OrderManager.validateOrder c.risk request with
    | true =>
      have houts := onOrderRequest_accepted clock c hv
      simp only [dispatch, houts]
      rfl
    | false =>
      have houts := onOrderRequest_rejected clock c hv
      simp only [dispatch, houts]
      rfl
  | validatedOrder order =>
    simp only [dispatch, onValidatedOrder]
    rw [filterMap_reports _ (fun _ => rfl)]
    cases c.matchingEngine.processOrder_arrival order with
    | filled price hprice hresting hreports =>
      simp [hreports, isCancel, reportStatus, MatchingEngine.reportOf, List.count_eq_zero]
    | rested hresting hreports =>
      simp [hreports, isCancel, reportStatus, MatchingEngine.reportOf, List.count_eq_zero]
    | rejected hresting hreports =>
      simp [hreports, isCancel, reportStatus, MatchingEngine.reportOf, List.count_eq_zero]
  | cancelOrder orderId =>
    simp only [dispatch, onCancelOrder]
    rw [filterMap_reports _ (fun _ => rfl), MatchingEngine.cancelOrder_reports]
    by_cases hid : orderId = id <;>
      simp [hid, isCancel, reportStatus, MatchingEngine.reportOf, MatchingEngine.dummyRequest]
  | executionReport report =>
    simp only [dispatch, onExecutionReport_pushes, filterMap_signals _ (reportStatus_input id)]
    rfl

end Components

/-- Requests of one id, counted by their ids. -/
theorem countP_isRequest (id : ℕ) (events : List (Event α)) :
    events.countP (isRequest id) = (events.filterMap requestId).count id := by
  induction events with
  | nil => rfl
  | cons event events ih =>
    cases event with
    | orderRequest request => simp [List.countP_cons, List.count_cons, isRequest, requestId, ih]
    | _ => simpa [List.countP_cons, List.filterMap_cons, isRequest, requestId] using ih

namespace EventLoop
variable {σ : Type} {S : StrategyApi σ α}

/-- The stage of an id that is requested at most once, after any run. -/
theorem stage_after (strategy : σ) (maxPosition : α) (labels : List (Label α)) (id : ℕ)
    (hone : (attempted (run S (init strategy maxPosition) labels).2).countP (isRequest id) ≤ 1) :
    StageAt id (run S (init strategy maxPosition) labels).1.components
      (run S (init strategy maxPosition) labels).1.pending
      (attempted (run S (init strategy maxPosition) labels).2) := by
  revert hone
  apply run_invariant' (I := fun c p tr =>
    (attempted tr).countP (isRequest id) ≤ 1 → StageAt id c p (attempted tr))
  · intro c p tr event ok hevent ih hone
    rw [attempted_append, List.countP_append] at hone
    have hbefore := ih (by omega)
    unfold StageAt at hbefore ⊢
    rw [attempted_append, List.countP_append, List.countP_append, List.countP_append,
      List.filterMap_append]
    have hreq := (accepted_sublist [Op.push event ok]).countP_le (p := isRequest id)
    have hval : (accepted [Op.push event ok]).countP (isValidated id) = 0 := by
      cases ok <;> cases event <;> simp_all [IsInput, isValidated]
    have hlife : (attempted [Op.push event ok]).filterMap (lifeStatus id) = [] := by
      cases event <;> simp_all [IsInput, lifeStatus]
    rw [hval, hlife, Nat.add_zero, List.append_nil]
    exact hbefore.request hreq
  · intro c event p tr clock ops ih hattempted hpopped hone
    rw [attempted_append, attempted_pop, List.countP_append] at hone
    have hbefore := ih (by omega)
    have hacc := sublist_of_attempted hattempted
    rw [attempted_append, attempted_pop, hattempted]
    exact Components.dispatch_stage (by omega) hacc hbefore
  · intro _
    exact Stage.init

/-- Every handled cancel is answered by one Cancelled report, and nothing else is. -/
theorem cancelled_after (strategy : σ) (maxPosition : α) (labels : List (Label α)) (id : ℕ) :
    (statuses id (run S (init strategy maxPosition) labels).2).count .cancelled =
      (popped (run S (init strategy maxPosition) labels).2).countP (isCancel id) := by
  apply run_invariant' (I := fun _ _ tr =>
    (statuses id tr).count .cancelled = (popped tr).countP (isCancel id))
  · intro c p tr event ok hevent ih
    have hstatus : statuses id [Op.push event ok] = [] := by
      cases event <;> simp_all [IsInput, statuses, reportStatus]
    rw [statuses_append, hstatus, popped_append, List.append_nil]
    simpa using ih
  · intro c event p tr clock ops ih hattempted hpopped
    rw [statuses_append, statuses_pop, List.count_append, ih, popped_append, popped_pop, hpopped,
      List.countP_append]
    congr 1
    rw [statuses, hattempted]
    exact Components.dispatch_cancelled
  · rfl

/-- Among the reports of an order, leaving out the Cancelled ones, there is at most one
Filled or Rejected, after at most one New; and the Cancelled ones are as many as the cancels
that were handled, so that an order nobody cancels has a complete or unfinished lifecycle. -/
theorem statuses_lifecycle (strategy : σ) (maxPosition : α) (labels : List (Label α))
    (hids : (requestIds (run S (init strategy maxPosition) labels).2).Nodup) (id : ℕ) :
    (∃ life ∈ lifecycles, ((statuses id (run S (init strategy maxPosition) labels).2).filter
      (fun status => status ≠ .cancelled)).IsPrefix life) ∧
    (statuses id (run S (init strategy maxPosition) labels).2).count .cancelled =
      (popped (run S (init strategy maxPosition) labels).2).countP (isCancel id) := by
  refine ⟨?_,cancelled_after strategy maxPosition labels id⟩
  have hone : (attempted (run S (init strategy maxPosition) labels).2).countP (isRequest id) ≤
      1 := by
    rw [countP_isRequest]
    exact List.nodup_iff_count_le_one.mp hids id
  have hstage := (stage_after strategy maxPosition labels id hone).2
  rw [statuses, ← filterMap_lifeStatus]
  rcases hstage with ⟨hst,-⟩ | ⟨hst,-⟩ | ⟨hst,-⟩
  · exact ⟨[.filled],by decide,by rw [hst]; exact List.nil_prefix⟩
  · exact ⟨[.new,.filled],by decide,by rw [hst]; decide⟩
  · exact ⟨_,hst,List.prefix_rfl⟩

/-- A resting order is cancelled, and the next tick fills it all the same. -/
def cancelThenFill : List (Label Double) :=
  [.tick 100,.limit 7 .buy 99 1] ++ Label.processes 12 ++ [.cancel 7] ++ Label.processes 6 ++
    [.tick 98] ++ Label.processes 6

theorem statuses_lifecycle_cancelThenFill :
    (∃ life ∈ lifecycles, ((statuses 7 (run (.silent Double) (init () 100) cancelThenFill).2).filter
      (fun status => status ≠ .cancelled)).IsPrefix life) ∧
    (statuses 7 (run (.silent Double) (init () 100) cancelThenFill).2).count .cancelled =
      (popped (run (.silent Double) (init () 100) cancelThenFill).2).countP (isCancel 7) :=
  statuses_lifecycle () 100 cancelThenFill (by decide +kernel) 7

theorem filled_after_cancelled :
    (requestIds (run (.silent Double) (init () 100) cancelThenFill).2).Nodup ∧
    statuses 7 (run (.silent Double) (init () 100) cancelThenFill).2 = [.new,.cancelled,.filled] ∧
    ¬ ∃ life ∈ [.new,.cancelled] :: lifecycles,
      (statuses 7 (run (.silent Double) (init () 100) cancelThenFill).2).IsPrefix life := by
  decide +kernel

end EventLoop
end HftEngine.Main
