import HftEngine.Foundation.Double
import HftEngine.Foundation.Fifo
import HftEngine.Foundation.Machine
import HftEngine.Oms.OrderManager

/-! Acceptance by the OMS together with the queue. The table is updated first and the result of
the push is ignored, so an order that finds the queue full is active without being forwarded. -/
set_option linter.unusedSectionVars false

namespace HftEngine.Oms
open HftEngine.Core Risk Fifo
variable {α : Type}

/-- The event hands the request to the exchange, with whatever OMS timestamp. -/
def Forwards (request : OrderRequest α) (event : Event α) : Prop :=
  ∃ orderTs, event = .validatedOrder { request with orderTs := orderTs }

variable [Add α] [Sub α] [Mul α] [Div α] [Neg α] [LT α] [DecidableLT α] [LE α]
  [DecidableLE α] [Min α] [Max α] [∀ n, OfNat α n]

namespace OrderManager

/-- The handler with the content of the queue before and after its push. -/
def handleWithQueue (om : OrderManager α) (risk : RiskEngine α) (clock : Clock)
    (request : OrderRequest α) (capacity : ℕ) (queue : List (Event α)) :
    OrderManager α × List (Event α) :=
  let handled := om.handleOrderRequest risk clock request
  (handled.1,(pushAll (Room.capacity capacity) queue handled.2).1)

/-- The request was accepted and forwarded, or nothing changed. -/
def Atomic (om : OrderManager α) (risk : RiskEngine α) (clock : Clock) (request : OrderRequest α)
    (capacity : ℕ) (queue : List (Event α)) : Prop :=
  let after := om.handleWithQueue risk clock request capacity queue
  ((∃ event ∈ after.2, Forwards request event) ∧
      after.1.activeOrders[request.orderId]? = some request) ∨
    (after.2 = queue ∧ ∀ id : ℕ, after.1.activeOrders[id]? = om.activeOrders[id]?)

theorem handleOrderRequest_activeOrders (om : OrderManager α) (clock : Clock) {risk : RiskEngine α}
    {request : OrderRequest α} (h : validateOrder risk request = true) (id : ℕ) :
    (om.handleOrderRequest risk clock request).1.activeOrders[id]? =
      if request.orderId = id then some request else om.activeOrders[id]? := by
  simp only [handleOrderRequest, if_pos h, Std.TreeMap.getElem?_insert, compare_eq_iff_eq]

/-- What the push of an accepted request adds to the events that the queue has accepted. -/
theorem accepted_forward (om : OrderManager α) (clock : Clock) {risk : RiskEngine α}
    {request : OrderRequest α} (h : validateOrder risk request = true) (capacity : ℕ)
    (queue : List (Event α)) :
    accepted (pushAll (Room.capacity capacity) queue
      (om.handleOrderRequest risk clock request).2).2 =
      if queue.length < capacity then [.validatedOrder { request with orderTs := clock 0 }]
      else [] := by
  rw [accepted_pushAll_capacity, om.handleOrderRequest_accepted clock h]
  split_ifs with hroom
  · obtain ⟨k,hk⟩ : ∃ k, capacity - queue.length = k + 1 := ⟨capacity - queue.length - 1,by omega⟩
    rw [hk, List.take_succ_cons, List.take_nil]
  · have hk : capacity - queue.length = 0 := by omega
    rw [hk, List.take_zero]

theorem handleWithQueue_snd (om : OrderManager α) (clock : Clock) {risk : RiskEngine α}
    {request : OrderRequest α} (h : validateOrder risk request = true) (capacity : ℕ)
    (queue : List (Event α)) : (om.handleWithQueue risk clock request capacity queue).2 = queue ++
      if queue.length < capacity then [.validatedOrder { request with orderTs := clock 0 }]
      else [] := by
  rw [handleWithQueue, pushAll_queue, accepted_forward om clock h]

/-- Handling a request is atomic exactly if the request is not accepted, or its copy finds a free
slot, or such a copy was in the queue before, or the table holds the request already. -/
theorem atomic_iff (om : OrderManager α) (risk : RiskEngine α) (clock : Clock)
    (request : OrderRequest α) (capacity : ℕ) (queue : List (Event α)) :
    om.Atomic risk clock request capacity queue ↔
      validateOrder risk request = false ∨ queue.length < capacity ∨
        (∃ event ∈ queue, Forwards request event) ∨
          om.activeOrders[request.orderId]? = some request := by
  cases hv : validateOrder risk request with
  | false =>
    refine iff_of_true (.inr ?_) (.inl rfl)
    rw [handleWithQueue, om.handleOrderRequest_rejected clock hv]
    exact ⟨rfl,fun _ => rfl⟩
  | true =>
    have hactive := om.handleOrderRequest_activeOrders clock hv
    have hqueue := om.handleWithQueue_snd clock hv capacity queue
    have htable : (om.handleWithQueue risk clock request capacity queue).1 =
        (om.handleOrderRequest risk clock request).1 := rfl
    rw [Atomic, hqueue, htable]
    simp only [hactive, if_true]
    by_cases hroom : queue.length < capacity
    · rw [if_pos hroom]
      refine iff_of_true (.inl ⟨?_,trivial⟩) (.inr (.inl hroom))
      exact ⟨_,List.mem_append_right _ (List.mem_singleton_self _),clock 0,rfl⟩
    · -- the copy is lost: the change of the table must not be one
      rw [if_neg hroom, List.append_nil]
      constructor
      · rintro (⟨hforwarded,-⟩ | ⟨-,hsame⟩)
        · exact .inr (.inr (.inl hforwarded))
        · have hrequest := hsame request.orderId
          rw [if_pos rfl] at hrequest
          exact .inr (.inr (.inr hrequest.symm))
      · rintro (hfalse | hroom' | hforwarded | hsame)
        · contradiction
        · contradiction
        · exact .inl ⟨hforwarded,trivial⟩
        · refine .inr ⟨rfl,?_⟩
          intro id
          split_ifs with hid
          · rw [← hid, hsame]
          · rfl

/-- A report only takes entries out of the table. -/
theorem handleExecutionReport_subset (om : OrderManager α) {report : ExecutionReport α} {id : ℕ}
    {request : OrderRequest α}
    (h : (om.handleExecutionReport report).activeOrders[id]? = some request) :
    om.activeOrders[id]? = some request := by
  simp only [handleExecutionReport] at h
  split_ifs at h
  · rw [Std.TreeMap.getElem?_erase] at h
    split_ifs at h
    exact h
  · exact h
  · exact h

end OrderManager

/-- A call of the event loop, with the content that the queue has at that time. -/
inductive OmsCall (α : Type := ℚ)
  | handleOrderRequest (risk : RiskEngine α) (clock : Clock) (request : OrderRequest α)
    (capacity : ℕ) (queue : List (Event α))
  | handleExecutionReport (report : ExecutionReport α)

/-- The OMS together with the events of its pushes that the queue has accepted. -/
structure Forwarding (α : Type := ℚ) where
  orderManager : OrderManager α
  forwarded : List (Event α)

namespace Forwarding

def init (α : Type := ℚ) : Forwarding α := ⟨.init α,[]⟩

def call (s : Forwarding α) : OmsCall α → Forwarding α × List (Op (Event α))
  | .handleOrderRequest risk clock request capacity queue =>
    let handled := s.orderManager.handleOrderRequest risk clock request
    let pushed := pushAll (Room.capacity capacity) queue handled.2
    (⟨handled.1,s.forwarded ++ accepted pushed.2⟩,pushed.2)
  | .handleExecutionReport report =>
    ({ s with orderManager := s.orderManager.handleExecutionReport report },[])

def machine : Machine (Forwarding α) (OmsCall α) (Op (Event α)) := ⟨call⟩

/-- Every active order has been forwarded to the exchange. -/
def AllForwarded (s : Forwarding α) : Prop :=
  ∀ (id : ℕ) (request : OrderRequest α), s.orderManager.activeOrders[id]? = some request →
    ∃ event ∈ s.forwarded, Forwards request event

/-- An accepted request finds a free slot, unless it has been forwarded before. -/
def FindsRoom (s : Forwarding α) : OmsCall α → Prop
  | .handleOrderRequest risk _ request capacity queue =>
    OrderManager.validateOrder risk request = false ∨ queue.length < capacity ∨
      ∃ event ∈ s.forwarded, Forwards request event
  | .handleExecutionReport _ => True

theorem init_allForwarded : (init α).AllForwarded := by
  intro id request h
  have hnone : (init α).orderManager.activeOrders[id]? = none := Std.TreeMap.getElem?_emptyc
  rw [hnone] at h
  contradiction

/-- A call keeps every active order forwarded exactly if its request finds room. -/
theorem call_allForwarded (s : Forwarding α) (c : OmsCall α) (h : s.AllForwarded) :
    (s.call c).1.AllForwarded ↔ s.FindsRoom c := by
  cases c with
  | handleExecutionReport report =>
    refine iff_of_true ?_ trivial
    intro id request hactive
    exact h id request (s.orderManager.handleExecutionReport_subset hactive)
  | handleOrderRequest risk clock request capacity queue =>
    cases hv : OrderManager.validateOrder risk request with
    | false =>
      have hrejected := s.orderManager.handleOrderRequest_rejected clock hv
      refine iff_of_true ?_ (.inl hv)
      simpa only [call, hrejected, pushAll, accepted_nil, List.append_nil] using h
    | true =>
      have hactive := s.orderManager.handleOrderRequest_activeOrders clock hv
      have haccepted := s.orderManager.accepted_forward clock hv capacity queue
      have hfinds : s.FindsRoom (.handleOrderRequest risk clock request capacity queue) ↔
          queue.length < capacity ∨ ∃ event ∈ s.forwarded, Forwards request event := by
        simp [FindsRoom, hv]
      rw [hfinds]
      simp only [AllForwarded, call, hactive, haccepted]
      constructor
      · intro hall
        obtain ⟨event,hevent,hforwards⟩ := hall request.orderId request (if_pos rfl)
        by_cases hroom : queue.length < capacity
        · exact .inl hroom
        · rw [if_neg hroom, List.append_nil] at hevent
          exact .inr ⟨event,hevent,hforwards⟩
      · intro hfound id other hother
        split_ifs at hother with hid
        · obtain rfl : request = other := Option.some.inj hother
          cases hfound with
          | inl hroom =>
            rw [if_pos hroom]
            exact ⟨_,List.mem_append_right _ (List.mem_singleton_self _),clock 0,rfl⟩
          | inr hbefore =>
            obtain ⟨event,hevent,hforwards⟩ := hbefore
            exact ⟨event,List.mem_append_left _ hevent,hforwards⟩
        · obtain ⟨event,hevent,hforwards⟩ := h id other hother
          exact ⟨event,List.mem_append_left _ hevent,hforwards⟩

/-- Acceptance is atomic in a call exactly if an accepted request finds a free slot, or one that
is the same is in the queue or in the table already; and along a run every active order has been
forwarded exactly if every accepted request finds a free slot or has been forwarded before. -/
theorem acceptance_atomic_iff (om : OrderManager α) (risk : RiskEngine α) (clock : Clock)
    (request : OrderRequest α) (capacity : ℕ) (queue : List (Event α)) (calls : List (OmsCall α)) :
    (om.Atomic risk clock request capacity queue ↔
      OrderManager.validateOrder risk request = false ∨ queue.length < capacity ∨
        (∃ event ∈ queue, Forwards request event) ∨
          om.activeOrders[request.orderId]? = some request) ∧
    ((∀ n, (machine.run (init α) (calls.take n)).1.AllForwarded) ↔
      machine.Along FindsRoom (init α) calls) :=
  ⟨om.atomic_iff risk clock request capacity queue,
    machine.forall_take_iff_along call_allForwarded init_allForwarded calls⟩

/-- A queue without a free slot. -/
def fullQueue (capacity : ℕ) : List (Event Double) :=
  List.replicate capacity (.marketData ⟨['B'],100,1,0,false⟩)

theorem fullQueue_full (capacity : ℕ) : ¬(fullQueue capacity).length < capacity := by
  simp [fullQueue]

theorem fullQueue_forwards_nothing {capacity : ℕ} {request : OrderRequest Double} :
    ¬∃ event ∈ fullQueue capacity, Forwards request event := by
  rintro ⟨event,hevent,orderTs,hforwards⟩
  rw [List.eq_of_mem_replicate hevent] at hforwards
  contradiction

/-- A buy of 1 is accepted while the queue is full: it becomes active and is not forwarded. -/
theorem accepted_not_forwarded :
    ¬(OrderManager.init Double).Atomic (.init 100) (fun _ => 0)
      ⟨1,0,['B'],.buy,.limit,100,1,0,0⟩ 1023 (fullQueue 1023) ∧
    ¬(machine.run (init Double) [.handleOrderRequest (.init 100) (fun _ => 0)
      ⟨1,0,['B'],.buy,.limit,100,1,0,0⟩ 1023 (fullQueue 1023)]).1.AllForwarded := by
  have hvalid : OrderManager.validateOrder (.init (100 : Double))
      ⟨1,0,['B'],.buy,.limit,100,1,0,0⟩ = true := by
    decide +kernel
  constructor
  · rw [OrderManager.atomic_iff, hvalid]
    rintro (hrejected | hroom | hforwarded | hactive)
    · contradiction
    · exact fullQueue_full 1023 hroom
    · exact fullQueue_forwards_nothing hforwarded
    · have hnone : (OrderManager.init Double).activeOrders[1]? = none := Std.TreeMap.getElem?_emptyc
      rw [hnone] at hactive
      contradiction
  · intro hall
    rcases (call_allForwarded (init Double) _ init_allForwarded).mp hall with
      hrejected | hroom | ⟨event,hevent,-⟩
    · rw [hvalid] at hrejected
      contradiction
    · exact fullQueue_full 1023 hroom
    · exact List.not_mem_nil hevent

end Forwarding
end HftEngine.Oms
