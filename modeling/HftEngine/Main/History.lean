import HftEngine.Exchange.Matching
import HftEngine.Main.EventLoop

/-! Histories of the event loop. One lemma lists what a step can do to components, pending
events and history; the run rule turns it into invariants of every run; and the queue
handles events exactly in the order in which it accepted them. -/
set_option linter.unusedSectionVars false

namespace HftEngine.Main
open HftEngine.Core Strategy Exchange Fifo
variable {σ α : Type}

/-- Events that come from the feed or a strategy, as opposed to the OMS and the exchange. -/
def IsInput : Event α → Prop
  | .marketData _ => True
  | .orderRequest _ => True
  | .cancelOrder _ => True
  | .validatedOrder _ => False
  | .executionReport _ => False

theorem isInput_toEvent (event : StrategyEvent α) : IsInput event.toEvent := by
  cases event <;> trivial

theorem isInput_input {action : Action α} {event : Event α} (h : action.input = some event) :
    IsInput event := by
  cases action with
  | feed md => cases h; trivial
  | submit e => cases h; exact isInput_toEvent e
  | process clock => simp [Action.input] at h

theorem exists_process {action : Action α} (h : action.input = none) :
    ∃ clock, action = .process clock := by
  cases action with
  | process clock => exact ⟨clock,rfl⟩
  | feed md => simp [Action.input] at h
  | submit event => simp [Action.input] at h

def tickOf : Event α → Option (MarketDataEvent α)
  | .marketData md => some md
  | _ => none

def ticksOf (events : List (Event α)) : List (MarketDataEvent α) := events.filterMap tickOf

@[simp] theorem ticksOf_nil : ticksOf ([] : List (Event α)) = [] := rfl

@[simp] theorem ticksOf_append (xs ys : List (Event α)) :
    ticksOf (xs ++ ys) = ticksOf xs ++ ticksOf ys := by
  simp [ticksOf]

/-- What is read from reports without looking at trade ids is read from the blanked ones. -/
theorem filterMap_reports {β : Type*} (f : Event α → Option β)
    (hf : ∀ report, f (.executionReport (blankTradeId report)) = f (.executionReport report))
    (reports : List (ExecutionReport α)) : (reports.map Event.executionReport).filterMap f =
      ((reports.map blankTradeId).map Event.executionReport).filterMap f := by
  simp only [List.filterMap_map]
  congr 1
  funext report
  exact (hf report).symm

/-- What is read from reports only is not read from the pushes of a strategy. -/
theorem filterMap_signals {β : Type*} (f : Event α → Option β)
    (hf : ∀ event, IsInput event → f event = none) (signals : List (StrategyEvent α)) :
    (signals.map StrategyEvent.toEvent).filterMap f = [] := by
  rw [List.filterMap_eq_nil_iff]
  intro event hevent
  obtain ⟨signal,-,rfl⟩ := List.mem_map.mp hevent
  exact hf _ (isInput_toEvent signal)

variable [Add α] [Sub α] [Mul α] [Div α] [Neg α] [LT α] [DecidableLT α] [LE α] [DecidableLE α]
  [Min α] [Max α] [∀ n, OfNat α n]

namespace Components
variable (S : StrategyApi σ α) (clock : Clock) (report : ExecutionReport α) (c : Components σ α)

/-- A report concerns every component except the exchange. -/
@[simp] theorem onExecutionReport_matchingEngine :
    (c.onExecutionReport S clock report).1.matchingEngine = c.matchingEngine := by
  unfold onExecutionReport
  by_cases h : report.status = .filled <;> simp [h, recordFill, recordHistory]

@[simp] theorem onExecutionReport_pushes : (c.onExecutionReport S clock report).2 =
    (S.onExecution report c.strategy).2.map StrategyEvent.toEvent := rfl

/-- An accepted request goes on as a copy that carries the OMS timestamp. -/
theorem onOrderRequest_accepted {request : OrderRequest α}
    (h : Oms.OrderManager.validateOrder c.risk request = true) :
    (c.onOrderRequest clock request).2 = [.validatedOrder { request with orderTs := clock 0 }] :=
  Oms.OrderManager.handleOrderRequest_accepted c.orderManager clock h

theorem onOrderRequest_rejected {request : OrderRequest α}
    (h : Oms.OrderManager.validateOrder c.risk request = false) :
    (c.onOrderRequest clock request).2 = [] :=
  congrArg Prod.snd (Oms.OrderManager.handleOrderRequest_rejected c.orderManager clock h)

/-- A handler pushes what the strategies send, reports of the exchange, and the validated copy of
a request that the OMS accepts. -/
theorem mem_dispatch {event pushed : Event α} (h : pushed ∈ (c.dispatch S clock event).2) :
    (∃ signal : StrategyEvent α, pushed = signal.toEvent) ∨
    (∃ report, pushed = .executionReport report) ∨
    ∃ request, event = .orderRequest request ∧
      Oms.OrderManager.validateOrder c.risk request = true ∧
      pushed = .validatedOrder { request with orderTs := clock 0 } := by
  have hsignals : ∀ signals : List (StrategyEvent α),
      pushed ∈ signals.map StrategyEvent.toEvent →
        ∃ signal : StrategyEvent α, pushed = signal.toEvent := by
    intro signals hmem
    obtain ⟨signal,-,rfl⟩ := List.mem_map.mp hmem
    exact ⟨signal,rfl⟩
  have hreports : ∀ reports : List (ExecutionReport α),
      pushed ∈ reports.map Event.executionReport → ∃ report, pushed = .executionReport report := by
    intro reports hmem
    obtain ⟨report,-,rfl⟩ := List.mem_map.mp hmem
    exact ⟨report,rfl⟩
  cases event with
  | marketData md =>
    rcases List.mem_append.mp h with hsignal | hreport
    · exact .inl (hsignals _ hsignal)
    · exact .inr (.inl (hreports _ hreport))
  | orderRequest request =>
    cases hv : Oms.OrderManager.validateOrder c.risk request with
    | true =>
      rw [dispatch, onOrderRequest_accepted clock c hv] at h
      exact .inr (.inr ⟨request,rfl,hv,List.mem_singleton.mp h⟩)
    | false =>
      rw [dispatch, onOrderRequest_rejected clock c hv] at h
      exact absurd h List.not_mem_nil
  | validatedOrder order => exact .inr (.inl (hreports _ h))
  | cancelOrder orderId => exact .inr (.inl (hreports _ h))
  | executionReport report => exact .inl (hsignals _ h)

end Components

/-- Ticks come from the feed only. -/
theorem ticksOf_dispatch (S : StrategyApi σ α) (clock : Clock)
    (c : Components σ α) (event : Event α) : ticksOf (c.dispatch S clock event).2 = [] := by
  rw [ticksOf, List.filterMap_eq_nil_iff]
  intro pushed hpushed
  rcases c.mem_dispatch S clock hpushed with ⟨signal,rfl⟩ | ⟨report,rfl⟩ | ⟨request,-,-,rfl⟩
  · cases signal <;> rfl
  · rfl
  · rfl

namespace EventLoop

@[simp] theorem pending_init (strategy : σ) (maxPosition : α) :
    (init strategy maxPosition).pending = [] := rfl

@[simp] theorem components_init (strategy : σ) (maxPosition : α) :
    (init strategy maxPosition).components = .init strategy maxPosition := rfl

/-- Filling the batch moves an event without changing what is pending. -/
@[simp] theorem popNext_pending (s : EventLoop σ α) : s.popNext.pending = s.pending := by
  unfold popNext pending
  cases s.queue with
  | nil => rfl
  | cons event rest => simp

@[simp] theorem popNext_components (s : EventLoop σ α) : s.popNext.components = s.components := by
  unfold popNext
  cases s.queue <;> rfl

variable (S : StrategyApi σ α)

/-- A push from outside: the pending events grow by the item if it was accepted. -/
theorem step_input (s : EventLoop σ α) (l : Label α) {event : Event α}
    (h : l.action.input = some event) : ∃ ok, (step S s l).2 = [.push event ok] ∧
      (step S s l).1.pending = s.pending ++ accepted [.push event ok] ∧
      (step S s l).1.components = s.components := by
  refine ⟨l.room 0 s.queue,?_⟩
  cases haction : l.action with
  | process clock => simp [haction, Action.input] at h
  | feed md =>
    obtain rfl : Event.marketData md = event := by simpa [haction, Action.input] using h
    simp only [step, haction, pending, pushAll_queue]
    exact ⟨rfl,(List.append_assoc _ _ _).symm,trivial⟩
  | submit e =>
    obtain rfl : e.toEvent = event := by simpa [haction, Action.input] using h
    simp only [step, haction, pending, pushAll_queue]
    exact ⟨rfl,(List.append_assoc _ _ _).symm,trivial⟩

/-- A processor step that fills the batch, or finds nothing to handle, leaves no trace. -/
theorem step_fill (s : EventLoop σ α) (l : Label α) {clock : Clock} (h : l.action = .process clock)
    (hfill : s.handling = false ∨ s.batch = []) : (step S s l).2 = [] ∧
      (step S s l).1.pending = s.pending ∧ (step S s l).1.components = s.components := by
  simp only [step, h]
  by_cases hh : s.handling = true
  · have hb : s.batch = [] := by simpa [hh] using hfill
    rw [if_pos hh]
    simp [handleNext, hb, pending]
  · rw [if_neg hh]
    exact ⟨rfl,popNext_pending s,popNext_components s⟩

/-- Handling one event: it leaves the front, and what the handlers push is appended. -/
theorem step_handle (s : EventLoop σ α) (l : Label α) {clock : Clock}
    (h : l.action = .process clock) (hh : s.handling = true) (hb : s.batch ≠ []) :
    ∃ event rest ops, s.batch.head? = some event ∧ s.pending = event :: rest ∧
      (step S s l).2 = .pop event :: ops ∧
      attempted ops = (s.components.dispatch S clock event).2 ∧ popped ops = [] ∧
      (step S s l).1.pending = rest ++ accepted ops ∧
      (step S s l).1.components = (s.components.dispatch S clock event).1 := by
  obtain ⟨event,rest,hbatch⟩ := List.exists_cons_of_ne_nil hb
  simp only [step, h, hh, if_true, handleNext, hbatch, pending]
  refine ⟨event,rest ++ s.queue,_,rfl,rfl,rfl,attempted_pushAll _ _ _,popped_pushAll _ _ _,?_,rfl⟩
  rw [pushAll_queue, List.append_assoc]

/-- The step handles an event. -/
def HandlesNext (s : EventLoop σ α) (l : Label α) : Prop :=
  l.action.isProcess = true ∧ s.handling = true ∧ s.batch ≠ []

/-- All that a step can do to components, pending events and history. -/
inductive StepCase (s : EventLoop σ α) (l : Label α) : Prop
  | input (event : Event α) (ok : Bool) (hpush : l.action.input = some event)
    (hother : ¬HandlesNext s l) (htrace : (step S s l).2 = [.push event ok])
    (hpending : (step S s l).1.pending = s.pending ++ accepted [.push event ok])
    (hcomponents : (step S s l).1.components = s.components)
  | idle (hother : ¬HandlesNext s l) (htrace : (step S s l).2 = [])
    (hpending : (step S s l).1.pending = s.pending)
    (hcomponents : (step S s l).1.components = s.components)
  | handle (clock : Clock) (event : Event α) (rest : List (Event α)) (ops : List (Op (Event α)))
    (hnext : HandlesNext s l) (hprocess : l.action = .process clock)
    (hhead : s.batch.head? = some event) (hfront : s.pending = event :: rest)
    (htrace : (step S s l).2 = .pop event :: ops)
    (hattempted : attempted ops = (s.components.dispatch S clock event).2)
    (hpopped : popped ops = []) (hpending : (step S s l).1.pending = rest ++ accepted ops)
    (hcomponents : (step S s l).1.components = (s.components.dispatch S clock event).1)

theorem step_cases (s : EventLoop σ α) (l : Label α) : StepCase S s l := by
  cases haction : l.action.input with
  | some event =>
    obtain ⟨ok,htrace,hpending,hcomponents⟩ := step_input S s l haction
    refine .input event ok haction ?_ htrace hpending hcomponents
    rintro ⟨hprocess,-,-⟩
    cases ha : l.action <;> simp [ha, Action.input, Action.isProcess] at haction hprocess
  | none =>
    obtain ⟨clock,hprocess⟩ := exists_process haction
    by_cases hidle : s.handling = false ∨ s.batch = []
    · obtain ⟨htrace,hpending,hcomponents⟩ := step_fill S s l hprocess hidle
      refine .idle ?_ htrace hpending hcomponents
      rintro ⟨-,hh,hb⟩
      rcases hidle with hidle | hidle
      · exact absurd hh (by simp [hidle])
      · exact absurd hidle hb
    · obtain ⟨hh,hb⟩ := not_or.mp hidle
      have hh' : s.handling = true := by simpa using hh
      obtain ⟨event,rest,ops,hhead,hfront,htrace,hattempted,hpopped,hpending,hcomponents⟩ :=
        step_handle S s l hprocess hh' hb
      have hnext : HandlesNext s l := ⟨by rw [hprocess]; rfl,hh',hb⟩
      exact .handle clock event rest ops hnext hprocess hhead hfront htrace hattempted hpopped
        hpending hcomponents

/-- What `f` reads off the event that a step handles, if it handles one. -/
def onHandled {β : Type*} (f : Components σ α → Clock → Event α → List β) (s : EventLoop σ α)
    (l : Label α) : List β :=
  match l.action, s.handling, s.batch with
  | .process clock, true, event :: _ => f s.components clock event
  | _, _, _ => []

theorem onHandled_head {β : Type*} (f : Components σ α → Clock → Event α → List β)
    {s : EventLoop σ α} {l : Label α} {clock : Clock} {event : Event α} (hnext : HandlesNext s l)
    (hprocess : l.action = .process clock) (hhead : s.batch.head? = some event) :
    onHandled f s l = f s.components clock event := by
  obtain ⟨rest,hbatch⟩ := List.head?_eq_some_iff.mp hhead
  simp only [onHandled, hprocess, hnext.2.1, hbatch]

theorem onHandled_other {β : Type*} (f : Components σ α → Clock → Event α → List β)
    {s : EventLoop σ α} {l : Label α} (h : ¬HandlesNext s l) : onHandled f s l = [] := by
  unfold onHandled
  split
  · next hprocess hh hb =>
    refine absurd ⟨?_,hh,?_⟩ h
    · rw [hprocess]
      rfl
    · rw [hb]
      exact List.cons_ne_nil _ _
  · rfl

theorem run_cons (s : EventLoop σ α) (l : Label α) (ls : List (Label α)) :
    run S s (l :: ls) = ((run S (step S s l).1 ls).1,
      (step S s l).2 ++ (run S (step S s l).1 ls).2) := rfl

theorem run_append (s : EventLoop σ α) (xs ys : List (Label α)) :
    run S s (xs ++ ys) = ((run S (run S s xs).1 ys).1,
      (run S s xs).2 ++ (run S (run S s xs).1 ys).2) := (machine S).run_append s xs ys

/-- What is read off a step and what its pushes amount to are the same if they are the same for
every handled event and for a push from outside they are nothing. -/
theorem onHandled_step {β A : Type*} {f : Components σ α → Clock → Event α → List β}
    {v : List β → A} {w : List (Event α) → A} (hnil : v [] = w [])
    (hinput : ∀ event, IsInput event → w [event] = w [])
    (hdispatch : ∀ c clock event, v (f c clock event) = w (c.dispatch S clock event).2)
    (s : EventLoop σ α) (l : Label α) : v (onHandled f s l) = w (attempted (step S s l).2) := by
  cases step_cases S s l with
  | input event ok hpush hother htrace =>
    rw [onHandled_other f hother, htrace, attempted_push, attempted_nil, hnil,
      hinput event (isInput_input hpush)]
  | idle hother htrace =>
    rw [onHandled_other f hother, htrace, hnil]
    rfl
  | handle clock event rest ops hnext hprocess hhead _ htrace hattempted =>
    rw [onHandled_head f hnext hprocess hhead, htrace, attempted_pop, hattempted, hdispatch]

/-- A reading of the handled events that is what their handlers' pushes amount to is, over a
run, what all its pushes amount to. -/
theorem collect_onHandled {β A : Type*} {op : A → A → A}
    {f : Components σ α → Clock → Event α → List β} {v : List β → A} {w : List (Event α) → A}
    (hv : ∀ xs ys, v (xs ++ ys) = op (v xs) (v ys))
    (hw : ∀ xs ys, w (xs ++ ys) = op (w xs) (w ys)) (hnil : v [] = w [])
    (hinput : ∀ event, IsInput event → w [event] = w [])
    (hdispatch : ∀ c clock event, v (f c clock event) = w (c.dispatch S clock event).2)
    (s : EventLoop σ α) (labels : List (Label α)) :
    v ((machine S).collect (onHandled f) s labels) = w (attempted (run S s labels).2) := by
  induction labels generalizing s with
  | nil => exact hnil
  | cons l labels ih =>
    have hfirst := onHandled_step S hnil hinput hdispatch s l
    have hrest := ih (step S s l).1
    rw [Machine.collect_cons, run_cons, attempted_append, hv, hw, hfirst]
    exact congrArg (op _) hrest

/-- A reading that amounts to a selection from the pushes. -/
theorem map_collect_onHandled {β γ : Type*} {f : Components σ α → Clock → Event α → List β}
    {φ : β → γ} {g : Event α → Option γ} (hinput : ∀ event, IsInput event → g event = none)
    (hstep : ∀ c clock event, (f c clock event).map φ = (c.dispatch S clock event).2.filterMap g)
    (s : EventLoop σ α) (labels : List (Label α)) :
    ((machine S).collect (onHandled f) s labels).map φ =
      (attempted (run S s labels).2).filterMap g :=
  collect_onHandled S (fun _ _ => List.map_append) (fun _ _ =>
    List.filterMap_append) rfl (fun event h => List.filterMap_cons_none (hinput event h)) hstep
    s labels

theorem run_singleton (s : EventLoop σ α) (l : Label α) : run S s [l] = step S s l := by
  simp [run, machine]

/-- With pushes that all succeed nothing is ever refused. -/
theorem refused_ample (s : EventLoop σ α) (actions : List (Action α)) :
    refused (run S s (actions.map .ample)).2 = [] := by
  induction actions generalizing s with
  | nil => rfl
  | cons action actions ih =>
    have hstep : refused (step S s (.ample action)).2 = [] := by
      cases action with
      | feed md => exact refused_pushAll_unbounded _ _
      | submit event => exact refused_pushAll_unbounded _ _
      | process clock =>
        simp only [step, Label.ample]
        by_cases hh : s.handling = true
        · rw [if_pos hh]
          unfold handleNext
          cases s.batch with
          | nil => rfl
          | cons event rest => exact refused_pushAll_unbounded _ _
        · rw [if_neg hh]
          rfl
    rw [List.map_cons, run_cons, refused_append, hstep, ih, List.append_nil]

/-- Every event handled along the run is handled in a state that meets `C`, which sees the
components and the pending events with the handled one at their head. -/
def Meets (C : Components σ α → List (Event α) → Prop) (s : EventLoop σ α)
    (labels : List (Label α)) : Prop :=
  (machine S).Along (fun s l => l.action.isProcess = true → s.handling = true →
    s.batch ≠ [] → C s.components s.pending) s labels

instance (C : Components σ α → List (Event α) → Prop) [∀ c p, Decidable (C c p)]
    (s : EventLoop σ α) (labels : List (Label α)) : Decidable (Meets S C s labels) :=
  (machine S).decidableAlong _ s labels

theorem meets_true (s : EventLoop σ α) (labels : List (Label α)) :
    Meets S (fun _ _ => True) s labels :=
  (machine S).along_of_forall (fun _ _ _ _ _ => trivial) s labels

variable {S}

/-- The run rule for the event loop: a property of components, pending events and history
that survives every push from outside and every handled event holds after every run. The
pushes from outside may be restricted, and the states in which an event is handled. -/
theorem run_invariant_of {J : Event α → Prop} {C : Components σ α → List (Event α) → Prop}
    {I : Components σ α → List (Event α) → List (Op (Event α)) → Prop}
    (hinput : ∀ c p tr event ok, J event → I c p tr →
      I c (p ++ accepted [.push event ok]) (tr ++ [.push event ok]))
    (hhandle : ∀ c event p tr clock ops, I c (event :: p) tr → C c (event :: p) →
      attempted ops = (c.dispatch S clock event).2 → popped ops = [] →
      I (c.dispatch S clock event).1 (p ++ accepted ops) (tr ++ .pop event :: ops))
    {s : EventLoop σ α} (h : I s.components s.pending []) {labels : List (Label α)}
    (hlabels : ∀ l ∈ labels, ∀ event, l.action.input = some event → J event)
    (hmeets : Meets S C s labels) :
    I (run S s labels).1.components (run S s labels).1.pending (run S s labels).2 := by
  have hpushed := (machine S).along_of_mem
    (P := fun _ l => ∀ event, l.action.input = some event → J event)
    (fun _ l hl => hlabels l hl) s
  have hrun := (machine S).run_invariant
    (I := fun s tr => I s.components s.pending tr) ?_ h (hpushed.and _ hmeets)
  · rw [List.nil_append] at hrun
    exact hrun
  rintro s tr l hinv ⟨hpush,hcond⟩
  change I (step S s l).1.components (step S s l).1.pending (tr ++ (step S s l).2)
  cases step_cases S s l with
  | input event ok haction _ htrace hpending hcomponents =>
    rw [htrace, hpending, hcomponents]
    exact hinput _ _ _ _ _ (hpush event haction) hinv
  | idle _ htrace hpending hcomponents =>
    rw [htrace, hpending, hcomponents, List.append_nil]
    exact hinv
  | handle clock event rest ops hnext hprocess _ hfront htrace hattempted hpopped hpending
      hcomponents =>
    have hnow := hcond hnext.1 hnext.2.1 hnext.2.2
    rw [hfront] at hinv hnow
    rw [htrace, hpending, hcomponents]
    exact hhandle _ _ _ _ _ _ hinv hnow hattempted hpopped

/-- The run rule for any pushes from outside. -/
theorem run_invariant {C : Components σ α → List (Event α) → Prop}
    {I : Components σ α → List (Event α) → List (Op (Event α)) → Prop}
    (hinput : ∀ c p tr event ok, IsInput event → I c p tr →
      I c (p ++ accepted [.push event ok]) (tr ++ [.push event ok]))
    (hhandle : ∀ c event p tr clock ops, I c (event :: p) tr → C c (event :: p) →
      attempted ops = (c.dispatch S clock event).2 → popped ops = [] →
      I (c.dispatch S clock event).1 (p ++ accepted ops) (tr ++ .pop event :: ops))
    {s : EventLoop σ α} (h : I s.components s.pending []) {labels : List (Label α)}
    (hmeets : Meets S C s labels) :
    I (run S s labels).1.components (run S s labels).1.pending (run S s labels).2 :=
  run_invariant_of hinput hhandle h (fun _ _ _ hpush => isInput_input hpush) hmeets

/-- The run rule without a condition on the handled events. -/
theorem run_invariant' {I : Components σ α → List (Event α) → List (Op (Event α)) → Prop}
    (hinput : ∀ c p tr event ok, IsInput event → I c p tr →
      I c (p ++ accepted [.push event ok]) (tr ++ [.push event ok]))
    (hhandle : ∀ c event p tr clock ops, I c (event :: p) tr →
      attempted ops = (c.dispatch S clock event).2 → popped ops = [] →
      I (c.dispatch S clock event).1 (p ++ accepted ops) (tr ++ .pop event :: ops))
    {s : EventLoop σ α} (h : I s.components s.pending []) (labels : List (Label α)) :
    I (run S s labels).1.components (run S s labels).1.pending (run S s labels).2 :=
  run_invariant hinput (fun c event p tr clock ops hinv _ => hhandle c event p tr clock ops hinv)
    h (meets_true S s labels)

/-- First in, first out: the accepted pushes are the handled events, then the pending ones. -/
theorem accepted_eq (strategy : σ) (maxPosition : α) (labels : List (Label α)) :
    accepted (run S (init strategy maxPosition) labels).2 =
      popped (run S (init strategy maxPosition) labels).2 ++
        (run S (init strategy maxPosition) labels).1.pending := by
  apply run_invariant' (I := fun _ p tr => accepted tr = popped tr ++ p)
  · intro c p tr event ok _ h
    simp [h]
  · intro c event p tr clock ops h _ hpopped
    simp [h, hpopped]
  · simp

/-- What every handled event moves by its own measure is the measure of all handled events. -/
theorem read_eq_popped {A : Type*} [Add A] {r : Components σ α → A} {w : List (Event α) → A}
    (happend : ∀ xs ys, w (xs ++ ys) = w xs + w ys)
    (hstep : ∀ c event clock, r (c.dispatch S clock event).1 = r c + w [event])
    {s : EventLoop σ α} (hinit : r s.components = w []) (labels : List (Label α)) :
    r (run S s labels).1.components = w (popped (run S s labels).2) := by
  apply run_invariant' (I := fun c _ tr => r c = w (popped tr))
  · intro c p tr event ok _ ih
    simpa using ih
  · intro c event p tr clock ops ih _ hpopped
    rw [popped_append, popped_pop, hpopped, hstep, ih, happend]
  · exact hinit

end EventLoop
end HftEngine.Main
