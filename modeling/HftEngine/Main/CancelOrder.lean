import HftEngine.Main.OrderLifecycle

/-! Order of a cancel and the order it is for. An order reaches the exchange in two passes
through the queue and a cancel in one, so what counts is not when the request was pushed but
when the OMS pushed the validated order. -/
set_option linter.unusedSectionVars false

namespace HftEngine.Main
open HftEngine.Core Strategy Fifo
variable {α : Type}

variable [Add α] [Sub α] [Mul α] [Div α] [Neg α] [LT α] [DecidableLT α] [LE α]
  [DecidableLE α] [Min α] [Max α] [∀ n, OfNat α n]

namespace Components
variable {σ : Type} (S : StrategyApi σ α) (clock : Clock) (c : Components σ α)

/-- Only an accepted request of the id makes a handler push a validated order of the id. -/
theorem dispatch_isValidated {event pushed : Event α} {id : ℕ}
    (hpushed : pushed ∈ (c.dispatch S clock event).2) (h : isValidated id pushed = true) :
    ∃ request, event = .orderRequest request ∧ request.orderId = id ∧
      Oms.OrderManager.validateOrder c.risk request = true := by
  rcases c.mem_dispatch S clock hpushed with ⟨signal,rfl⟩ | ⟨report,rfl⟩ | ⟨request,rfl,hv,rfl⟩
  · cases signal <;> exact absurd h Bool.false_ne_true
  · exact absurd h Bool.false_ne_true
  · exact ⟨request,rfl,eq_of_beq h,hv⟩

end Components

/-- The operations of the trace by which the OMS takes a request and a strategy cancels. -/
def handlesRequest (id : ℕ) : Op (Event α) → Bool
  | .pop event => isRequest id event
  | .push _ _ => false

def pushesCancel (id : ℕ) : Op (Event α) → Bool
  | .push event _ => isCancel id event
  | .pop _ => false

/-- If the event to be handled is a request of the id, the OMS accepts it. -/
def AcceptsRequest {σ : Type} (id : ℕ) (c : Components σ α) : List (Event α) → Prop
  | .orderRequest request :: _ =>
    request.orderId = id → Oms.OrderManager.validateOrder c.risk request = true
  | _ => True

instance {σ : Type} (id : ℕ) (c : Components σ α) :
    (p : List (Event α)) → Decidable (AcceptsRequest id c p)
  | [] => isTrue trivial
  | .orderRequest request :: _ => inferInstanceAs (Decidable
    (request.orderId = id → Oms.OrderManager.validateOrder c.risk request = true))
  | .marketData _ :: _ => isTrue trivial
  | .validatedOrder _ :: _ => isTrue trivial
  | .executionReport _ :: _ => isTrue trivial
  | .cancelOrder _ :: _ => isTrue trivial

theorem handlesRequest_ops {ops : List (Op (Event α))} (h : popped ops = []) (id : ℕ) :
    ∀ op ∈ ops, handlesRequest id op = false := by
  intro op hop
  cases op with
  | push event ok => rfl
  | pop event =>
    have hmem := mem_popped_iff.mpr hop
    rw [h] at hmem
    exact absurd hmem List.not_mem_nil

/-- Among the accepted events validated orders of the id come before its cancels, and a handled
request has left its validated copy there. -/
structure ValidatedFirst (id : ℕ) (tr : List (Op (Event α))) : Prop where
  before : PrecededBy (isValidated id) (isCancel id) (accepted tr)
  handled : (∃ op ∈ tr, handlesRequest id op = true) →
    ∃ event ∈ accepted tr, isValidated id event = true

namespace ValidatedFirst
variable {id : ℕ} {tr ops : List (Op (Event α))}

theorem nil : ValidatedFirst (α := α) id [] where
  before := by
    intro l x r h _
    exact absurd h (by simp)
  handled := by
    rintro ⟨op,hop,-⟩
    exact absurd hop List.not_mem_nil

/-- Operations that handle no request of the id may push a cancel only behind the copy. -/
theorem quiet (h : ValidatedFirst id tr)
    (hprec : PrecededBy (handlesRequest id) (pushesCancel id) (tr ++ ops))
    (hnone : ∀ op ∈ ops, handlesRequest id op = false) : ValidatedFirst id (tr ++ ops) where
  before := by
    rw [accepted_append]
    by_cases hc : ∃ e ∈ accepted ops, isCancel id e = true
    · obtain ⟨e,he,hce⟩ := hc
      obtain ⟨ok,hok⟩ := mem_attempted_iff.mp ((accepted_sublist ops).subset he)
      exact h.before.append_of_exists (h.handled (hprec.exists_left hok hce hnone))
    · apply h.before.append_of_none
      intro e he
      rw [Bool.eq_false_iff]
      intro hce
      exact hc ⟨e,he,hce⟩
  handled := by
    rintro ⟨op,hop,hhandles⟩
    rw [accepted_append]
    cases List.mem_append.mp hop with
    | inl hold =>
      obtain ⟨e,he,hv⟩ := h.handled ⟨op,hold,hhandles⟩
      exact ⟨e,List.mem_append_left _ he,hv⟩
    | inr hnew =>
      rw [hnone op hnew] at hhandles
      contradiction

/-- The OMS handles the request, and pushes nothing but the validated copy. -/
theorem request (h : ValidatedFirst id tr) {order : OrderRequest α}
    (hops : accepted ops = [.validatedOrder order]) (hid : order.orderId = id) :
    ValidatedFirst id (tr ++ ops) where
  before := by
    rw [accepted_append, hops]
    apply h.before.append_of_none
    intro e he
    rw [List.mem_singleton.mp he]
    rfl
  handled := by
    intro _
    rw [accepted_append, hops]
    exact ⟨_,List.mem_append_right _ List.mem_cons_self,beq_iff_eq.mpr hid⟩

end ValidatedFirst

namespace EventLoop
variable {σ : Type} (S : StrategyApi σ α)

/-- What holds of the order of the accepted pushes holds of the order of handling. -/
theorem precededBy_popped (strategy : σ) (maxPosition : α) (labels : List (Label α))
    {p q : Event α → Bool}
    (h : PrecededBy p q (accepted (run S (init strategy maxPosition) labels).2)) :
    PrecededBy p q (popped (run S (init strategy maxPosition) labels).2) := by
  rw [accepted_eq] at h
  exact h.of_append

/-- If every cancel of the id is pushed after the OMS has handled its request, and the OMS
accepts it, then the validated order is pushed before every cancel. -/
theorem validated_before_cancel (strategy : σ) (maxPosition : α) (actions : List (Action α))
    (id : ℕ)
    (haccepts : Meets S (AcceptsRequest id) (init strategy maxPosition) (actions.map .ample))
    (hcancel : PrecededBy (handlesRequest id) (pushesCancel id)
      (run S (init strategy maxPosition) (actions.map .ample)).2) :
    PrecededBy (isValidated id) (isCancel id)
      (accepted (run S (init strategy maxPosition) (actions.map .ample)).2) := by
  have hinv := run_invariant (S := S) (C := AcceptsRequest id) (I := fun _ _ tr =>
    refused tr = [] → PrecededBy (handlesRequest id) (pushesCancel id) tr →
      ValidatedFirst id tr) ?_ ?_ (fun _ _ => .nil) haccepts
  · exact (hinv (refused_ample S _ actions) hcancel).before
  · intro c p tr event ok _ ih hrefused hprec
    rw [refused_append, List.append_eq_nil_iff] at hrefused
    apply (ih hrefused.1 hprec.of_append).quiet hprec
    intro op hop
    rw [List.mem_singleton.mp hop]
    rfl
  · intro c event p tr clock ops ih hcond hattempted hpopped hrefused hprec
    rw [refused_append, refused_pop, List.append_eq_nil_iff] at hrefused
    have hbefore := ih hrefused.1 hprec.of_append
    by_cases hr : isRequest id event = true
    · cases event with
      | orderRequest request =>
        have hid : request.orderId = id := eq_of_beq hr
        have houts := Components.onOrderRequest_accepted clock c (hcond hid)
        have hpush : accepted (.pop (.orderRequest request) :: ops) =
            [.validatedOrder { request with orderTs := clock 0 }] := by
          rw [accepted_pop, accepted_eq_attempted hrefused.2, hattempted]
          exact houts
        exact hbefore.request hpush hid
      | _ => exact absurd hr Bool.false_ne_true
    · apply hbefore.quiet hprec
      intro op hop
      cases List.mem_cons.mp hop with
      | inl hpop =>
        rw [hpop]
        exact Bool.eq_false_iff.mpr hr
      | inr hlater => exact handlesRequest_ops hpopped id op hlater

/-- If a cancel of the id is pushed before the OMS handles its request, then it is also pushed
before the validated order. -/
theorem cancel_before_validated (strategy : σ) (maxPosition : α) (actions : List (Action α))
    (id : ℕ)
    (hcancel : PrecededBy (pushesCancel id) (handlesRequest id)
      (run S (init strategy maxPosition) (actions.map .ample)).2) :
    PrecededBy (isCancel id) (isValidated id)
      (accepted (run S (init strategy maxPosition) (actions.map .ample)).2) := by
  have hinv := run_invariant' (S := S) (s := init strategy maxPosition) (I := fun _ _ tr =>
    refused tr = [] → PrecededBy (pushesCancel id) (handlesRequest id) tr →
      PrecededBy (isCancel id) (isValidated id) (accepted tr)) ?_ ?_ ?_ (actions.map .ample)
  · exact hinv (refused_ample S _ actions) hcancel
  · intro c p tr event ok hevent ih hrefused hprec
    rw [refused_append, List.append_eq_nil_iff] at hrefused
    rw [accepted_append]
    apply (ih hrefused.1 hprec.of_append).append_of_none
    intro e he
    have hmem := (accepted_sublist _).subset he
    rw [attempted_push, attempted_nil, List.mem_singleton] at hmem
    rw [hmem]
    cases event <;> first | rfl | exact hevent.elim
  · intro c event p tr clock ops ih hattempted hpopped hrefused hprec
    rw [refused_append, refused_pop, List.append_eq_nil_iff] at hrefused
    have hbefore := ih hrefused.1 hprec.of_append
    rw [accepted_append, accepted_pop]
    by_cases hr : isRequest id event = true
    · -- a cancel was pushed earlier, and an accepted one it is
      apply hbefore.append_of_exists
      obtain ⟨op,hop,hc⟩ := hprec tr (.pop event) ops rfl hr
      cases op with
      | pop e => exact absurd hc Bool.false_ne_true
      | push e ok =>
        refine ⟨e,?_,hc⟩
        rw [accepted_eq_attempted hrefused.1]
        exact mem_attempted_iff.mpr ⟨ok,hop⟩
    · apply hbefore.append_of_none
      intro e he
      have hmem := (accepted_sublist ops).subset he
      rw [hattempted] at hmem
      rw [Bool.eq_false_iff]
      intro hv
      obtain ⟨request,rfl,hid,-⟩ := Components.dispatch_isValidated S clock c hmem hv
      exact hr (beq_iff_eq.mpr hid)
  · intro _ _ l x r h _
    exact absurd h (by simp)

/-- The exchange handles an order before its cancels if these are pushed after the OMS has
handled and accepted the request; if a cancel is pushed before that, it is handled first. -/
theorem cancel_order (strategy : σ) (maxPosition : α) (actions : List (Action α)) (id : ℕ)
    (haccepts : Meets S (AcceptsRequest id) (init strategy maxPosition) (actions.map .ample)) :
    let trace := (run S (init strategy maxPosition) (actions.map .ample)).2
    (PrecededBy (handlesRequest id) (pushesCancel id) trace →
      PrecededBy (isValidated id) (isCancel id) (popped trace)) ∧
    (PrecededBy (pushesCancel id) (handlesRequest id) trace →
      PrecededBy (isCancel id) (isValidated id) (popped trace)) := by
  intro trace
  constructor
  · intro hcancel
    exact precededBy_popped S strategy maxPosition _
      (validated_before_cancel S strategy maxPosition actions id haccepts hcancel)
  · intro hcancel
    exact precededBy_popped S strategy maxPosition _
      (cancel_before_validated S strategy maxPosition actions id hcancel)

/-- A request, and its cancel once the OMS has handled the request or right away. -/
def requestAndCancel (steps : ℕ) : List (Action Double) :=
  [.feed ⟨[],100,1,0,false⟩,.submit (.orderRequest ⟨7,1,[],.buy,.limit,101,1,0,0⟩)] ++
    List.replicate steps (.process (fun _ => 0)) ++ [.submit (.cancelOrder 7)] ++
    List.replicate 16 (.process (fun _ => 0))

theorem cancel_order_requestAndCancel :
    PrecededBy (isValidated 7) (isCancel 7)
      (popped (run (.silent Double) (init () 100) ((requestAndCancel 5).map .ample)).2) :=
  (cancel_order (.silent Double) () 100 (requestAndCancel 5) 7 (by decide +kernel)).1
    (by decide +kernel)

/-- Pushed right after the request, the cancel reaches the exchange before the order. -/
theorem cancel_overtakes :
    let trace := (run (.silent Double) (init () 100) ((requestAndCancel 0).map .ample)).2
    PrecededBy (isRequest 7) (isCancel 7) (attempted trace) ∧
    (popped trace).countP (isValidated 7) = 1 ∧
    ¬ PrecededBy (isValidated 7) (isCancel 7) (popped trace) := by
  decide +kernel

end EventLoop
end HftEngine.Main
