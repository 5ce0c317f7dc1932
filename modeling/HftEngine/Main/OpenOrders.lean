import HftEngine.Main.FillIntegrity
import Mathlib.Data.List.Pairwise

/-! Open orders. With every push accepted and no cancels, the table of the OMS and the resting
list of the exchange differ by exactly the orders and closing reports that are under way. -/
set_option linter.unusedSectionVars false

namespace HftEngine.Main
open HftEngine.Core Strategy Oms Exchange Fifo
variable {α : Type}

/-- Order id of a report that closes its order. -/
def closedId : Event α → Option ℕ
  | .executionReport report =>
    if report.status = .filled ∨ report.status = .rejected then some report.orderId else none
  | _ => none

/-- Ids of the validated orders among events. -/
def validatedIds (events : List (Event α)) : List ℕ :=
  (events.filterMap forwardedOrder).map OrderRequest.orderId

/-- Ids of the Filled and Rejected reports among events. -/
def closedIds (events : List (Event α)) : List ℕ := events.filterMap closedId

def restingIds (e : MatchingEngine α) : List ℕ := e.restingOrders.map OrderRequest.orderId

/-- Ids of the orders on their way to the exchange, resting there, or reported as closed. -/
def openIds {σ : Type} (c : Components σ α) (p : List (Event α)) : List ℕ :=
  validatedIds p ++ restingIds c.matchingEngine ++ closedIds p

@[simp] theorem validatedIds_append (xs ys : List (Event α)) :
    validatedIds (xs ++ ys) = validatedIds xs ++ validatedIds ys := by simp [validatedIds]

@[simp] theorem closedIds_append (xs ys : List (Event α)) :
    closedIds (xs ++ ys) = closedIds xs ++ closedIds ys := by simp [closedIds]

theorem closedId_input {event : Event α} (h : IsInput event) : closedId event = none := by
  cases event <;> first | rfl | exact h.elim

theorem validatedIds_input {event : Event α} (h : IsInput event) : validatedIds [event] = [] := by
  rw [validatedIds, List.filterMap_cons_none (forwardedOrder_input h)]
  rfl

@[simp] theorem validatedIds_signals (signals : List (StrategyEvent α)) :
    validatedIds (signals.map StrategyEvent.toEvent) = [] := by
  rw [validatedIds, filterMap_signals forwardedOrder (fun _ => forwardedOrder_input)]
  rfl

@[simp] theorem closedIds_signals (signals : List (StrategyEvent α)) :
    closedIds (signals.map StrategyEvent.toEvent) = [] :=
  filterMap_signals closedId (fun _ => closedId_input) signals

@[simp] theorem validatedIds_reports (reports : List (ExecutionReport α)) :
    validatedIds (reports.map Event.executionReport) = [] := by
  rw [validatedIds, forwardedOrder_reports]
  rfl

/-- Trade ids do not matter for what is closed. -/
theorem closedIds_blank (reports : List (ExecutionReport α)) :
    closedIds (reports.map Event.executionReport) =
      closedIds ((reports.map blankTradeId).map Event.executionReport) :=
  filterMap_reports closedId (fun _ => rfl) reports

variable [Add α] [Sub α] [Mul α] [Div α] [Neg α] [LT α] [DecidableLT α] [LE α]
  [DecidableLE α] [Min α] [Max α] [∀ n, OfNat α n]

/-- The sweep closes the orders it fills. -/
theorem closedIds_fills (e : MatchingEngine α) (orders : List (OrderRequest α)) :
    closedIds ((orders.map e.fillOf).map Event.executionReport) =
      orders.map OrderRequest.orderId := by
  induction orders with
  | nil => rfl
  | cons order orders ih => exact congrArg (order.orderId :: ·) ih

namespace Components
variable {σ : Type} {S : StrategyApi σ α} {clock : Clock} {c : Components σ α} {p : List (Event α)}

/-- A tick closes as many orders as it takes from the resting list. -/
lemma onMarketData_openIds (md : MarketDataEvent α) :
    (openIds (c.onMarketData S clock md).1 (p ++ (c.onMarketData S clock md).2)).Perm
      (openIds c (.marketData md :: p)) := by
  have hresting := (List.filter_append_perm (c.matchingEngine.priced md).crosses
    c.matchingEngine.restingOrders).map OrderRequest.orderId
  rw [List.map_append] at hresting
  simp only [openIds, restingIds, onMarketData, validatedIds_append, closedIds_append,
    validatedIds_signals, closedIds_signals, validatedIds_reports, List.append_nil,
    List.nil_append, MatchingEngine.updateMarketPrice_restingOrders]
  rw [closedIds_blank, MatchingEngine.updateMarketPrice_reports, closedIds_fills]
  have hvalidated : validatedIds (.marketData md :: p) = validatedIds p := rfl
  have hclosed : closedIds (.marketData md :: p) = closedIds p := rfl
  rw [hvalidated, hclosed, List.append_assoc, List.append_assoc]
  refine List.Perm.append_left _ ?_
  refine List.Perm.trans ?_ (hresting.append_right _)
  refine List.Perm.trans ?_ (List.perm_append_comm.append_right _)
  rw [List.append_assoc]
  exact List.Perm.append_left _ List.perm_append_comm

/-- A validated order that arrives rests or is closed at once. -/
lemma onValidatedOrder_openIds (order : OrderRequest α) :
    (openIds (c.onValidatedOrder order).1 (p ++ (c.onValidatedOrder order).2)).Perm
      (openIds c (.validatedOrder order :: p)) := by
  have hvalidated : validatedIds (.validatedOrder order :: p) =
      order.orderId :: validatedIds p := rfl
  have hclosed : closedIds (.validatedOrder order :: p) = closedIds p := rfl
  simp only [openIds, restingIds, onValidatedOrder, validatedIds_append, closedIds_append,
    validatedIds_reports, List.append_nil, hvalidated, hclosed]
  rw [closedIds_blank]
  have hlast : ∀ xs : List ℕ, (xs ++ [order.orderId]).Perm (order.orderId :: xs) :=
    fun xs => List.perm_append_singleton _ _
  cases c.matchingEngine.processOrder_arrival order with
  | filled price hprice hresting hreports =>
    rw [hresting, hreports, ← List.append_assoc]
    exact hlast _
  | rested hresting hreports =>
    rw [hresting, hreports, List.map_append, ← List.append_assoc (validatedIds p)]
    have hnone : closedIds [Event.executionReport
        (MatchingEngine.reportOf order order.price 0 .new)] = [] := rfl
    rw [List.map_singleton, List.map_singleton, hnone, List.append_nil]
    exact (hlast _).append_right _
  | rejected hresting hreports =>
    rw [hresting, hreports, ← List.append_assoc]
    exact hlast _

/-- Which ids are in the table after a report. -/
theorem mem_handleExecutionReport (om : OrderManager α) (report : ExecutionReport α) (id : ℕ) :
    id ∈ (om.handleExecutionReport report).activeOrders ↔ id ∈ om.activeOrders ∧
      ¬ (report.orderId = id ∧ (report.status = .filled ∨ report.status = .cancelled ∨
        report.status = .rejected)) := by
  unfold OrderManager.handleExecutionReport
  split_ifs with hmem hstatus
  · rw [Std.TreeMap.mem_erase, Ne, compare_eq_iff_eq]
    simp only [hstatus, and_true]
    exact and_comm
  · simp only [hstatus, and_false, not_false_eq_true, and_true]
  · constructor
    · intro h
      refine ⟨h,?_⟩
      rintro ⟨rfl,-⟩
      exact hmem h
    · exact And.left

/-- Only requests and reports concern the table. -/
theorem dispatch_orderManager (event : Event α) :
    (c.dispatch S clock event).1.orderManager = match event with
      | .orderRequest request => (c.orderManager.handleOrderRequest c.risk clock request).1
      | .executionReport report => c.orderManager.handleExecutionReport report
      | _ => c.orderManager := by
  cases event with
  | executionReport report =>
    simp only [dispatch, onExecutionReport]
    by_cases h : report.status = .filled <;> simp [h, recordFill, recordHistory]
  | _ => rfl

end Components

/-- Neither a cancel nor the answer to one. -/
def Uncancelled : Event α → Prop
  | .cancelOrder _ => False
  | .executionReport report => report.status ≠ .cancelled
  | _ => True

/-- A report that answers no cancel closes its order if it is final. -/
theorem count_closedIds_report {report : ExecutionReport α} (h : report.status ≠ .cancelled)
    (id : ℕ) : (closedIds [.executionReport report]).count id =
      if report.orderId = id ∧ (report.status = .filled ∨ report.status = .cancelled ∨
        report.status = .rejected) then 1 else 0 := by
  cases hstatus : report.status <;>
    simp [closedIds, closedId, hstatus, List.count_singleton] at h ⊢

/-- The table of the OMS holds the open orders, every one of which was requested once. -/
structure Agree {σ : Type} (c : Components σ α) (p pushed : List (Event α)) : Prop where
  counted : ∀ id, (openIds c p).count id + p.countP (isRequest id) ≤ pushed.countP (isRequest id)
  active : ∀ id, id ∈ c.orderManager.activeOrders ↔ id ∈ openIds c p
  uncancelled : ∀ event ∈ p, Uncancelled event

namespace Agree
variable {σ : Type} {S : StrategyApi σ α} {clock : Clock} {c c' : Components σ α}
  {p pushed outs : List (Event α)} {event : Event α}

theorem init (strategy : σ) (maxPosition : α) :
    Agree (Components.init strategy maxPosition) [] [] where
  counted _ := le_rfl
  active id := by
    constructor
    · intro h
      exact absurd h Std.TreeMap.not_mem_emptyc
    · intro h
      exact absurd h List.not_mem_nil
  uncancelled _ h := absurd h List.not_mem_nil

theorem uncancelled_rest (h : Agree c (event :: p) pushed) : ∀ e ∈ p, Uncancelled e :=
  (List.forall_mem_cons.mp h.uncancelled).2

/-- A push from outside opens nothing yet. -/
theorem input (h : Agree c p pushed) (hevent : IsInput event)
    (hcancel : ∀ id, event ≠ .cancelOrder id) : Agree c (p ++ [event]) (pushed ++ [event]) := by
  have hopen : openIds c (p ++ [event]) = openIds c p := by
    have hclosed : closedIds [event] = [] := by
      rw [closedIds, List.filterMap_cons_none (closedId_input hevent)]
      rfl
    rw [openIds, validatedIds_append, closedIds_append, validatedIds_input hevent, hclosed,
      List.append_nil, List.append_nil]
    rfl
  refine ⟨?_,?_,?_⟩
  · intro id
    have hcount := h.counted id
    rw [hopen, List.countP_append, List.countP_append]
    omega
  · intro id
    rw [hopen]
    exact h.active id
  · intro e he
    rcases List.mem_append.mp he with he | he
    · exact h.uncancelled e he
    · rw [List.mem_singleton.mp he]
      cases event with
      | cancelOrder id => exact absurd rfl (hcancel id)
      | executionReport report => exact hevent.elim
      | _ => trivial

/-- Handlers that leave the table alone and keep the open ids. -/
theorem of_perm (h : Agree c (event :: p) pushed)
    (hopen : (openIds c' (p ++ outs)).Perm (openIds c (event :: p)))
    (htable : c'.orderManager = c.orderManager)
    (hlive : ∀ e ∈ outs, Uncancelled e) : Agree c' (p ++ outs) (pushed ++ outs) := by
  refine ⟨?_,?_,?_⟩
  · intro id
    have hcount := h.counted id
    rw [List.countP_cons] at hcount
    rw [hopen.count_eq, List.countP_append, List.countP_append]
    omega
  · intro id
    rw [htable, hopen.mem_iff]
    exact h.active id
  · exact List.forall_mem_append.mpr ⟨h.uncancelled_rest,hlive⟩

/-- An accepted request enters the table and the queue to the exchange together. -/
theorem accept {request : OrderRequest α} (h : Agree c (.orderRequest request :: p) pushed)
    (hv : OrderManager.validateOrder c.risk request = true) :
    Agree (c.onOrderRequest clock request).1 (p ++ (c.onOrderRequest clock request).2)
      (pushed ++ (c.onOrderRequest clock request).2) := by
  rw [Components.onOrderRequest_accepted clock c hv]
  have hopen : (openIds (c.onOrderRequest clock request).1
      (p ++ [.validatedOrder { request with orderTs := clock 0 }])).Perm
        (request.orderId :: openIds c (.orderRequest request :: p)) := by
    have hvalidated : validatedIds [Event.validatedOrder { request with orderTs := clock 0 }] =
        [request.orderId] := rfl
    have hclosed : closedIds [Event.validatedOrder { request with orderTs := clock 0 }] =
        [] := rfl
    rw [openIds, validatedIds_append, closedIds_append, hvalidated, hclosed, List.append_nil]
    exact ((List.perm_append_singleton _ _).append_right _).append_right _
  have htable : (c.onOrderRequest clock request).1.orderManager.activeOrders =
      c.orderManager.activeOrders.insert request.orderId request := by
    simp [Components.onOrderRequest, OrderManager.handleOrderRequest, hv]
  refine ⟨?_,?_,?_⟩
  · intro id
    have hcount := h.counted id
    rw [countP_isRequest_cons] at hcount
    rw [hopen.count_eq, List.count_cons, List.countP_append, List.countP_append,
      List.countP_cons_of_neg (by simp [isRequest])]
    simp only [beq_iff_eq, List.countP_nil]
    omega
  · intro id
    rw [htable, Std.TreeMap.mem_insert, compare_eq_iff_eq, hopen.mem_iff, List.mem_cons,
      h.active id]
    exact or_congr_left eq_comm
  · exact List.forall_mem_append.mpr ⟨h.uncancelled_rest,by simp [Uncancelled]⟩

theorem reject {request : OrderRequest α} (h : Agree c (.orderRequest request :: p) pushed)
    (hv : OrderManager.validateOrder c.risk request = false) :
    Agree (c.onOrderRequest clock request).1 (p ++ (c.onOrderRequest clock request).2)
      (pushed ++ (c.onOrderRequest clock request).2) := by
  rw [Components.onOrderRequest_rejected clock c hv]
  have htable : (c.onOrderRequest clock request).1.orderManager = c.orderManager := by
    simp [Components.onOrderRequest, OrderManager.handleOrderRequest, hv]
  have hopen : (openIds (c.onOrderRequest clock request).1 (p ++ [])).Perm
      (openIds c (.orderRequest request :: p)) := by
    rw [List.append_nil]
    exact List.Perm.refl _
  exact h.of_perm hopen htable (List.forall_mem_nil _)

/-- A report closes at most the one order it is about. -/
theorem report {report : ExecutionReport α} (h : Agree c (.executionReport report :: p) pushed)
    (hone : ∀ id, pushed.countP (isRequest id) ≤ 1)
    (hlive : ∀ e ∈ (c.onExecutionReport S clock report).2, Uncancelled e) :
    Agree (c.onExecutionReport S clock report).1 (p ++ (c.onExecutionReport S clock report).2)
      (pushed ++ (c.onExecutionReport S clock report).2) := by
  have hopen : openIds (c.onExecutionReport S clock report).1
      (p ++ (c.onExecutionReport S clock report).2) = openIds c p := by
    rw [openIds, Components.onExecutionReport_matchingEngine, Components.onExecutionReport_pushes,
      validatedIds_append, closedIds_append, validatedIds_signals, closedIds_signals,
      List.append_nil, List.append_nil]
    rfl
  have hbefore : ∀ id, (openIds c (.executionReport report :: p)).count id =
      (openIds c p).count id + (closedIds [.executionReport report]).count id := by
    intro id
    have hclosed : closedIds (.executionReport report :: p) =
        closedIds [.executionReport report] ++ closedIds p := closedIds_append [_] p
    have hvalidated : validatedIds (.executionReport report :: p) = validatedIds p := rfl
    rw [openIds, openIds, hclosed, hvalidated]
    simp only [List.count_append]
    omega
  refine ⟨?_,?_,?_⟩
  · intro id
    have hcount := h.counted id
    rw [hbefore, List.countP_cons_of_neg (by simp [isRequest])] at hcount
    rw [hopen, List.countP_append, List.countP_append]
    omega
  · intro id
    have htable : (c.onExecutionReport S clock report).1.orderManager =
        c.orderManager.handleExecutionReport report :=
      Components.dispatch_orderManager (.executionReport report)
    have hcount := h.counted id
    have hid := hone id
    have hactive := h.active id
    have hnot : report.status ≠ .cancelled := h.uncancelled _ List.mem_cons_self
    rw [hbefore, count_closedIds_report hnot] at hcount
    rw [htable, hopen, Components.mem_handleExecutionReport, hactive, ← List.count_pos_iff,
      ← List.count_pos_iff, hbefore, count_closedIds_report hnot]
    by_cases hclose : report.orderId = id ∧ (report.status = .filled ∨
        report.status = .cancelled ∨ report.status = .rejected)
    · rw [if_pos hclose] at hcount ⊢
      constructor
      · rintro ⟨-,hopenYet⟩
        exact absurd hclose hopenYet
      · intro hcount'
        omega
    · rw [if_neg hclose, Nat.add_zero]
      exact and_iff_left hclose
  · exact List.forall_mem_append.mpr ⟨h.uncancelled_rest,hlive⟩

/-- Without cancels no handler answers one. -/
theorem uncancelled_outs (h : Agree c (event :: p) pushed)
    (hcancel : ∀ id, Event.cancelOrder id ∉ (c.dispatch S clock event).2) :
    ∀ e ∈ (c.dispatch S clock event).2, Uncancelled e := by
  intro e he
  cases e with
  | cancelOrder id => exact absurd he (hcancel id)
  | executionReport report =>
    intro hstatus
    have hcount : ((c.dispatch S clock event).2.filterMap
        (reportStatus report.orderId)).count .cancelled =
          [event].countP (isCancel report.orderId) := Components.dispatch_cancelled
    have hnone : [event].countP (isCancel report.orderId) = 0 := by
      have hevent := h.uncancelled event List.mem_cons_self
      cases event <;> first | rfl | exact hevent.elim
    rw [hnone, List.count_eq_zero] at hcount
    apply hcount
    rw [List.mem_filterMap]
    exact ⟨_,he,by simp [reportStatus, hstatus]⟩
  | _ => trivial

/-- Handling any event keeps table, queue and resting list in agreement. -/
theorem dispatch (h : Agree c (event :: p) pushed) (hone : ∀ id, pushed.countP (isRequest id) ≤ 1)
    (hcancel : ∀ id, Event.cancelOrder id ∉ (c.dispatch S clock event).2) :
    Agree (c.dispatch S clock event).1 (p ++ (c.dispatch S clock event).2)
      (pushed ++ (c.dispatch S clock event).2) := by
  have hlive := h.uncancelled_outs hcancel
  cases event with
  | marketData md => exact h.of_perm (Components.onMarketData_openIds md) rfl hlive
  | validatedOrder order => exact h.of_perm (Components.onValidatedOrder_openIds order) rfl hlive
  | orderRequest request =>
    cases hv : OrderManager.validateOrder c.risk request with
    | true => exact h.accept hv
    | false => exact h.reject hv
  | cancelOrder id => exact (h.uncancelled (.cancelOrder id) List.mem_cons_self).elim
  | executionReport report => exact h.report hone hlive

end Agree

/-- Two requests with the same id are one, where ids are pairwise distinct. -/
theorem request_unique {events : List (Event α)} (h : (events.filterMap requestId).Nodup)
    {r r' : OrderRequest α} (hr : Event.orderRequest r ∈ events)
    (hr' : Event.orderRequest r' ∈ events) (hid : r.orderId = r'.orderId) : r = r' := by
  by_contra hne
  have hpair := List.pairwise_filterMap.mp h
  have : Std.Symm (fun a a' : Event α => ∀ b, requestId a = some b →
      ∀ b', requestId a' = some b' → b ≠ b') :=
    ⟨fun a b hab x hx y hy heq => hab y hy x hx heq.symm⟩
  have hevents : Event.orderRequest r ≠ Event.orderRequest r' := by simpa using hne
  exact hpair.forall hr hr' hevents _ rfl _ rfl hid

/-- Table entries and orders at the exchange are the requests that were pushed. -/
structure Registered {σ : Type} (c : Components σ α) (p pushed : List (Event α)) : Prop where
  pending : ∀ event ∈ p, event ∈ pushed
  active : ∀ (id : ℕ) (request : OrderRequest α),
    c.orderManager.activeOrders[id]? = some request →
      request.orderId = id ∧ Event.orderRequest request ∈ pushed
  carried : Carried (fun order => ∃ request, Event.orderRequest request ∈ pushed ∧
    order = { request with orderTs := order.orderTs }) c p

namespace Registered
variable {σ : Type} {S : StrategyApi σ α} {clock : Clock} {c : Components σ α}
  {p pushed : List (Event α)} {event : Event α}

theorem init (strategy : σ) (maxPosition : α) :
    Registered (Components.init strategy maxPosition) [] [] where
  pending _ h := absurd h List.not_mem_nil
  active id request h := by
    have hnone : (∅ : Std.TreeMap ℕ (OrderRequest α))[id]? = none := Std.TreeMap.getElem?_emptyc
    have hsome : (∅ : Std.TreeMap ℕ (OrderRequest α))[id]? = some request := h
    rw [hnone] at hsome
    contradiction
  carried := .init strategy maxPosition

theorem mono (h : Registered c p pushed) (outs : List (Event α)) :
    Registered c p (pushed ++ outs) where
  pending e he := List.mem_append_left _ (h.pending e he)
  active id request hactive := by
    obtain ⟨hid,hmem⟩ := h.active id request hactive
    exact ⟨hid,List.mem_append_left _ hmem⟩
  carried := by
    apply h.carried.mono
    rintro order ⟨request,hmem,horder⟩
    exact ⟨request,List.mem_append_left _ hmem,horder⟩

theorem input (h : Registered c p pushed) (hevent : IsInput event) :
    Registered c (p ++ [event]) (pushed ++ [event]) := by
  have hafter := h.mono [event]
  refine ⟨?_,hafter.active,hafter.carried.input hevent true⟩
  intro e he
  rcases List.mem_append.mp he with he | he
  · exact hafter.pending e he
  · exact List.mem_append_right _ he

theorem dispatch (h : Registered c (event :: p) pushed) :
    Registered (c.dispatch S clock event).1 (p ++ (c.dispatch S clock event).2)
      (pushed ++ (c.dispatch S clock event).2) := by
  have hafter := h.mono (c.dispatch S clock event).2
  refine ⟨?_,?_,hafter.carried.handle ?_ (List.Sublist.refl _)⟩
  · intro e he
    rcases List.mem_append.mp he with he | he
    · exact hafter.pending e (List.mem_cons_of_mem _ he)
    · exact List.mem_append_right _ he
  · intro id request hactive
    rw [Components.dispatch_orderManager] at hactive
    cases event with
    | orderRequest r =>
      simp only [OrderManager.handleOrderRequest] at hactive
      by_cases hv : OrderManager.validateOrder c.risk r = true
      · rw [if_pos hv, Std.TreeMap.getElem?_insert] at hactive
        by_cases hid : compare r.orderId id = .eq
        · rw [if_pos hid, Option.some.injEq] at hactive
          rw [← hactive]
          exact ⟨compare_eq_iff_eq.mp hid,hafter.pending _ List.mem_cons_self⟩
        · rw [if_neg hid] at hactive
          exact hafter.active id request hactive
      · rw [if_neg hv] at hactive
        exact hafter.active id request hactive
    | executionReport report =>
      simp only [OrderManager.handleExecutionReport] at hactive
      split_ifs at hactive
      · rw [Std.TreeMap.getElem?_erase] at hactive
        split_ifs at hactive
        exact hafter.active id request hactive
      · exact hafter.active id request hactive
      · exact hafter.active id request hactive
    | _ => exact hafter.active id request hactive
  · rintro request rfl -
    exact ⟨request,hafter.pending _ List.mem_cons_self,rfl⟩

end Registered

namespace EventLoop
variable {σ : Type} {S : StrategyApi σ α}

theorem agree_after (strategy : σ) (maxPosition : α) (labels : List (Label α))
    (hpushes : refused (run S (init strategy maxPosition) labels).2 = [])
    (hone : ∀ id, (attempted (run S (init strategy maxPosition) labels).2).countP
      (isRequest id) ≤ 1)
    (hcancel : ∀ id, Event.cancelOrder id ∉
      attempted (run S (init strategy maxPosition) labels).2) :
    Agree (run S (init strategy maxPosition) labels).1.components
        (run S (init strategy maxPosition) labels).1.pending
        (attempted (run S (init strategy maxPosition) labels).2) ∧
      Registered (run S (init strategy maxPosition) labels).1.components
        (run S (init strategy maxPosition) labels).1.pending
        (attempted (run S (init strategy maxPosition) labels).2) := by
  revert hpushes hone hcancel
  apply run_invariant' (I := fun c p tr => refused tr = [] →
    (∀ id, (attempted tr).countP (isRequest id) ≤ 1) →
    (∀ id, Event.cancelOrder id ∉ attempted tr) →
    Agree c p (attempted tr) ∧ Registered c p (attempted tr))
  · intro c p tr event ok hevent ih hpushes hone hcancel
    rw [refused_append, List.append_eq_nil_iff] at hpushes
    rw [attempted_append] at hone hcancel ⊢
    simp only [List.countP_append, List.mem_append, not_or] at hone hcancel
    obtain ⟨hagree,hregistered⟩ := ih hpushes.1
      (fun id => (Nat.le_add_right _ _).trans (hone id)) (fun id => (hcancel id).1)
    rw [accepted_eq_attempted hpushes.2]
    refine ⟨hagree.input hevent ?_,hregistered.input hevent⟩
    rintro id rfl
    exact (hcancel id).2 (List.mem_singleton.mpr rfl)
  · intro c event p tr clock ops ih hattempted _ hpushes hone hcancel
    rw [refused_append, refused_pop, List.append_eq_nil_iff] at hpushes
    rw [attempted_append, attempted_pop] at hone hcancel ⊢
    simp only [List.countP_append, List.mem_append, not_or] at hone hcancel
    have hbefore : ∀ id, (attempted tr).countP (isRequest id) ≤ 1 :=
      fun id => (Nat.le_add_right _ _).trans (hone id)
    obtain ⟨hagree,hregistered⟩ := ih hpushes.1 hbefore (fun id => (hcancel id).1)
    rw [accepted_eq_attempted hpushes.2, hattempted]
    rw [hattempted] at hcancel
    exact ⟨hagree.dispatch hbefore (fun id => (hcancel id).2),hregistered.dispatch⟩
  · intro _ _ _
    exact ⟨Agree.init strategy maxPosition,Registered.init strategy maxPosition⟩

/-- With distinct ids, no cancels and pushes that all succeed, the keys of the table of active
orders are in every reachable state the disjoint union of the ids on their way to the exchange,
resting there, and reported as filled or rejected. When nothing is pending the active orders
are the resting ones, except for the stamp that only the forwarded copy carries. -/
theorem open_orders (strategy : σ) (maxPosition : α) (labels : List (Label α))
    (hpushes : refused (run S (init strategy maxPosition) labels).2 = [])
    (hids : (requestIds (run S (init strategy maxPosition) labels).2).Nodup)
    (hcancel : ∀ id, Event.cancelOrder id ∉
      attempted (run S (init strategy maxPosition) labels).2) :
    let final := (run S (init strategy maxPosition) labels).1
    let active := final.components.orderManager.activeOrders
    (validatedIds final.pending ++ restingIds final.components.matchingEngine ++
      closedIds final.pending).Nodup ∧
    (∀ id, id ∈ active ↔ id ∈ validatedIds final.pending ++
      restingIds final.components.matchingEngine ++ closedIds final.pending) ∧
    (final.pending = [] →
      (∀ id, id ∈ active ↔ id ∈ restingIds final.components.matchingEngine) ∧
      ∀ order ∈ final.components.matchingEngine.restingOrders, ∃ request,
        active[order.orderId]? = some request ∧
          order = { request with orderTs := order.orderTs }) := by
  intro final active
  have hone : ∀ id, (attempted (run S (init strategy maxPosition) labels).2).countP
      (isRequest id) ≤ 1 := by
    intro id
    rw [countP_isRequest]
    exact List.nodup_iff_count_le_one.mp hids id
  obtain ⟨hagree,hregistered⟩ := agree_after strategy maxPosition labels hpushes hone hcancel
  have hquiet : final.pending = [] →
      ∀ id, id ∈ active ↔ id ∈ restingIds final.components.matchingEngine := by
    intro hempty id
    have hid : id ∈ active ↔ id ∈ openIds final.components final.pending := hagree.active id
    rw [hempty] at hid
    simpa [openIds, validatedIds, closedIds] using hid
  refine ⟨?_,hagree.active,?_⟩
  · rw [List.nodup_iff_count_le_one]
    intro id
    exact (Nat.le_add_right _ _).trans ((hagree.counted id).trans (hone id))
  · intro hempty
    refine ⟨hquiet hempty,?_⟩
    intro order horder
    obtain ⟨request,hmem,hcopy⟩ := hregistered.carried.resting order horder
    have hkey : order.orderId ∈ active :=
      (hquiet hempty order.orderId).mpr (List.mem_map_of_mem horder)
    obtain ⟨entry,hentry⟩ :=
      Option.isSome_iff_exists.mp (Std.TreeMap.mem_iff_isSome_getElem?.mp hkey)
    obtain ⟨hid,hpushed⟩ := hregistered.active _ _ hentry
    have hsame : request.orderId = entry.orderId := by
      rw [hid, hcopy]
    rw [← request_unique hids hmem hpushed hsame] at hentry
    exact ⟨request,hentry,hcopy⟩

/-- One order rests, another one is filled on arrival. -/
def restAndFill : List (Label Double) :=
  [.tick 100,.limit 7 .buy 99 1,.limit 8 .buy 101 1] ++ Label.processes 24

theorem open_orders_restAndFill :
    let final := (run (.silent Double) (init () 100) restAndFill).1
    let active := final.components.orderManager.activeOrders
    (validatedIds final.pending ++ restingIds final.components.matchingEngine ++
      closedIds final.pending).Nodup ∧
    (∀ id, id ∈ active ↔ id ∈ validatedIds final.pending ++
      restingIds final.components.matchingEngine ++ closedIds final.pending) ∧
    (final.pending = [] →
      (∀ id, id ∈ active ↔ id ∈ restingIds final.components.matchingEngine) ∧
      ∀ order ∈ final.components.matchingEngine.restingOrders, ∃ request,
        active[order.orderId]? = some request ∧
          order = { request with orderTs := order.orderTs }) := by
  apply open_orders
  · decide +kernel
  · decide +kernel
  · have hall : ∀ event ∈ attempted (run (.silent Double) (init () 100) restAndFill).2,
        event.ctorIdx ≠ (.cancelOrder 0 : Event Double).ctorIdx := by decide +kernel
    intro id hmem
    exact hall _ hmem rfl

end EventLoop
end HftEngine.Main
