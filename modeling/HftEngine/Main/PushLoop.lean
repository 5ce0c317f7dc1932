import HftEngine.Foundation.Double
import HftEngine.Main.Positions

/-! The event loop with one step for each test, pop and push of the processor thread, so that the
feed may push between two pushes of one handler. The queue is the real one, which refuses a push
when it stores 1023 events. The fills of the exchange are accounted for as long as no Filled report
meets a full queue. -/
set_option linter.unusedSectionVars false

namespace HftEngine.Main
open HftEngine.Core Strategy Exchange Fifo

/-- Where the processor thread is: at the test of its loop, filling its batch, or handling
it, with the pushes that the current handler has not made yet. -/
inductive ProcessorPc (α : Type := ℚ)
  | testing
  | popping (batch : List (Event α))
  | handling (pushes batch : List (Event α))
  | returned

namespace ProcessorPc
variable {α : Type}

/-- The events that are popped and not handled yet. -/
def batch : ProcessorPc α → List (Event α)
  | .testing => []
  | .popping batch => batch
  | .handling _ batch => batch
  | .returned => []

def pushes : ProcessorPc α → List (Event α)
  | .testing => []
  | .popping _ => []
  | .handling pushes _ => pushes
  | .returned => []

def isTesting : ProcessorPc α → Bool
  | .testing => true
  | _ => false

def isReturned : ProcessorPc α → Bool
  | .returned => true
  | _ => false

/-- After the test `while (running)`. -/
def afterTest (running : Bool) : ProcessorPc α := if running then .popping [] else .returned

/-- After a pop that returned an event. -/
def afterPop (batch : List (Event α)) : ProcessorPc α :=
  if batch.length = EventLoop.batchSize then .handling [] batch else .popping batch

/-- After a pop that found the queue empty. -/
def afterEmpty (batch : List (Event α)) : ProcessorPc α :=
  if batch = [] then .testing else .handling [] batch

@[simp] theorem batch_afterTest (running : Bool) : (afterTest (α := α) running).batch = [] := by
  cases running <;> rfl

@[simp] theorem pushes_afterTest (running : Bool) : (afterTest (α := α) running).pushes = [] := by
  cases running <;> rfl

@[simp] theorem isReturned_afterTest (running : Bool) :
    (afterTest (α := α) running).isReturned = !running := by
  cases running <;> rfl

@[simp] theorem batch_afterPop (events : List (Event α)) : (afterPop events).batch = events := by
  unfold afterPop
  split <;> rfl

@[simp] theorem pushes_afterPop (events : List (Event α)) : (afterPop events).pushes = [] := by
  unfold afterPop
  split <;> rfl

@[simp] theorem isReturned_afterPop (events : List (Event α)) :
    (afterPop events).isReturned = false := by
  unfold afterPop
  split <;> rfl

@[simp] theorem batch_afterEmpty (events : List (Event α)) :
    (afterEmpty events).batch = events := by
  unfold afterEmpty
  split
  · rename_i h
    exact h.symm
  · rfl

@[simp] theorem pushes_afterEmpty (events : List (Event α)) : (afterEmpty events).pushes = [] := by
  unfold afterEmpty
  split <;> rfl

@[simp] theorem isReturned_afterEmpty (events : List (Event α)) :
    (afterEmpty events).isReturned = false := by
  unfold afterEmpty
  split <;> rfl

end ProcessorPc

structure PushLoop (σ : Type) (α : Type := ℚ) where
  queue : List (Event α)
  processorPc : ProcessorPc α
  components : Components σ α

namespace PushLoop
variable {σ α : Type}

def init [∀ n, OfNat α n] (strategy : σ) (maxPosition : α) : PushLoop σ α where
  queue := []
  processorPc := .testing
  components := .init strategy maxPosition

/-- Events that were accepted by the queue and not handled yet, oldest first. -/
def pending (s : PushLoop σ α) : List (Event α) := s.processorPc.batch ++ s.queue

/-- A push; no caller looks at its result. -/
def push (event : Event α) (s : PushLoop σ α) : PushLoop σ α × List (Op (Event α)) :=
  let pushed := pushAll (Room.capacity 1023) s.queue [event]
  ({ s with queue := pushed.1 },pushed.2)

/-- One iteration of the loop that fills the batch. -/
def popNext (batch : List (Event α)) (s : PushLoop σ α) : PushLoop σ α :=
  match s.queue with
  | [] => { s with processorPc := .afterEmpty batch }
  | event :: rest =>
    { s with
      queue := rest
      processorPc := .afterPop (batch ++ [event]) }

variable [Add α] [Sub α] [Mul α] [Div α] [Neg α] [LT α] [DecidableLT α] [LE α] [DecidableLE α]
  [Min α] [Max α] [∀ n, OfNat α n]

def processorStep (S : StrategyApi σ α) (clock : Clock) (s : PushLoop σ α) :
    PushLoop σ α × List (Op (Event α)) :=
  match s.processorPc with
  | .testing => ({ s with processorPc := .afterTest true },[])
  | .popping batch => (s.popNext batch,[])
  | .handling (event :: pushes) batch =>
    let pushed := s.push event
    ({ pushed.1 with processorPc := .handling pushes batch },pushed.2)
  | .handling [] (event :: batch) =>
    let handled := s.components.dispatch S clock event
    ({ s with
        processorPc := .handling handled.2 batch
        components := handled.1 },
      [.pop event])
  | .handling [] [] => ({ s with processorPc := .testing },[])
  | .returned => (s,[])

def step (S : StrategyApi σ α) (s : PushLoop σ α) :
    Action α → PushLoop σ α × List (Op (Event α))
  | .feed md => s.push (.marketData md)
  | .submit event => s.push event.toEvent
  | .process clock => s.processorStep S clock

def machine (S : StrategyApi σ α) : Machine (PushLoop σ α) (Action α) (Op (Event α)) := ⟨step S⟩

def run (S : StrategyApi σ α) (s : PushLoop σ α) (actions : List (Action α)) :
    PushLoop σ α × List (Op (Event α)) := (machine S).run s actions

theorem run_append (S : StrategyApi σ α) (s : PushLoop σ α) (xs ys : List (Action α)) :
    run S s (xs ++ ys) = ((run S (run S s xs).1 ys).1,
      (run S s xs).2 ++ (run S (run S s xs).1 ys).2) := (machine S).run_append s xs ys

theorem run_singleton (S : StrategyApi σ α) (s : PushLoop σ α) (a : Action α) :
    run S s [a] = step S s a := by
  simp [run, machine]

/-- The event that a step pushes. -/
def nextPush (s : PushLoop σ α) : Action α → Option (Event α)
  | .feed md => some (.marketData md)
  | .submit event => some event.toEvent
  | .process _ => s.processorPc.pushes.head?

/-- All that a step can do: push one event, move on in silence, or handle one event. -/
inductive StepCase (S : StrategyApi σ α) (s : PushLoop σ α) (a : Action α) : Prop
  | push (event : Event α) (hnext : s.nextPush a = some event)
    (htrace : (step S s a).2 = [.push event (decide (s.queue.length < 1023))])
    (hpending : (step S s a).1.pending =
      s.pending ++ accepted [.push event (decide (s.queue.length < 1023))])
    (hcomponents : (step S s a).1.components = s.components)
  | quiet (hnext : s.nextPush a = none) (htrace : (step S s a).2 = [])
    (hpending : (step S s a).1.pending = s.pending)
    (hcomponents : (step S s a).1.components = s.components)
  | handle (clock : Clock) (event : Event α) (rest : List (Event α)) (hnext : s.nextPush a = none)
    (hfront : s.pending = event :: rest) (htrace : (step S s a).2 = [.pop event])
    (hpending : (step S s a).1.pending = rest)
    (hcomponents : (step S s a).1.components = (s.components.dispatch S clock event).1)

theorem push_pending (event : Event α) (s : PushLoop σ α) : (s.push event).1.pending =
    s.pending ++ accepted [.push event (decide (s.queue.length < 1023))] := by
  simp only [push, pending, pushAll_queue, List.append_assoc]
  rfl

@[simp] theorem popNext_pending {s : PushLoop σ α} {batch : List (Event α)}
    (h : s.processorPc = .popping batch) : (s.popNext batch).pending = s.pending := by
  have hbatch : s.processorPc.batch = batch := congrArg ProcessorPc.batch h
  unfold popNext pending
  rw [hbatch]
  cases s.queue <;> simp

@[simp] theorem popNext_components (batch : List (Event α)) (s : PushLoop σ α) :
    (s.popNext batch).components = s.components := by
  unfold popNext
  cases s.queue <;> rfl

theorem popNext_pushes (batch : List (Event α)) (s : PushLoop σ α) :
    (s.popNext batch).processorPc.pushes = [] := by
  unfold popNext
  cases s.queue <;> simp

theorem step_cases (S : StrategyApi σ α) (s : PushLoop σ α) (a : Action α) : StepCase S s a := by
  cases a with
  | feed md => exact .push _ rfl rfl (push_pending _ s) rfl
  | submit event => exact .push _ rfl rfl (push_pending _ s) rfl
  | process clock =>
    obtain ⟨queue,pc,components⟩ := s
    cases pc with
    | testing => exact .quiet rfl rfl rfl rfl
    | popping batch => exact .quiet rfl rfl (popNext_pending rfl) (popNext_components _ _)
    | handling pushes batch =>
      cases pushes with
      | cons event pushes => exact .push event rfl rfl (push_pending event ⟨queue,_,components⟩) rfl
      | nil =>
        cases batch with
        | nil => exact .quiet rfl rfl rfl rfl
        | cons event batch => exact .handle clock event (batch ++ queue) rfl rfl rfl rfl rfl
    | returned => exact .quiet rfl rfl rfl rfl

/-- The position once the queued fills are booked, one after another. -/
def balance (s : PushLoop σ α) : α :=
  (filledQtys s.pending).foldl (· + ·) s.components.risk.currentPosition

/-- A step that pushes a Filled report finds a free slot in the queue, unless the quantity is one
that does not change the sum it would be added to. -/
def KeepsFill (s : PushLoop σ α) (a : Action α) : Prop :=
  ∀ event ∈ s.nextPush a, ∀ quantity ∈ filledQtys [event],
    s.queue.length < 1023 ∨ s.balance + quantity = s.balance

/-- A step keeps the sum of the reported fills equal to the balance exactly if it keeps the fill
that it reports. -/
theorem step_balance (S : StrategyApi σ α) (s : PushLoop σ α) (tr : List (Op (Event α)))
    (a : Action α) (h : (filledQtys (attempted tr)).foldl (· + ·) 0 = s.balance) :
    (filledQtys (attempted (tr ++ (step S s a).2))).foldl (· + ·) 0 = (step S s a).1.balance ↔
      s.KeepsFill a := by
  rw [attempted_append, filledQtys_append, List.foldl_append, h]
  cases step_cases S s a with
  | push event hnext htrace hpending hcomponents =>
    have hkeeps : s.KeepsFill a ↔ ∀ quantity ∈ filledQtys [event],
        s.queue.length < 1023 ∨ s.balance + quantity = s.balance := by
      simp [KeepsFill, hnext]
    have hbalance : (step S s a).1.balance =
        (filledQtys (accepted [.push event (decide (s.queue.length < 1023))])).foldl (· + ·)
          s.balance := by
      rw [balance, hpending, hcomponents, filledQtys_append, List.foldl_append]
      rfl
    rw [hkeeps, htrace, hbalance, attempted_push, attempted_nil]
    by_cases hroom : s.queue.length < 1023
    · simp [hroom]
    · rcases hfill : filledReport event with _ | report
      · simp [hroom, filledQtys, filledReports, hfill]
      · simp [hroom, filledQtys, filledReports, hfill]
  | quiet hnext htrace hpending hcomponents =>
    simp [htrace, balance, hpending, hcomponents, KeepsFill, hnext, filledQtys]
  | handle clock event rest hnext hfront htrace hpending hcomponents =>
    have hbalance : (step S s a).1.balance = s.balance := by
      have hsplit : s.pending = [event] ++ rest := hfront
      rw [balance, balance, hpending, hcomponents, hsplit, filledQtys_append, List.foldl_append,
        Components.dispatch_booked]
    simp [htrace, hbalance, KeepsFill, hnext, filledQtys]

variable [DecidableEq α]

/-- The orders that the handler fills which a step starts: those that the price update removes from
the resting list, or the order that is matched on arrival. -/
def handlerFills (s : PushLoop σ α) (a : Action α) : List (OrderRequest α) :=
  match a, s.processorPc with
  | .process _, .handling [] (.marketData md :: _) => s.components.matchingEngine.sweptOrders md
  | .process _, .handling [] (.validatedOrder order :: _) =>
    s.components.matchingEngine.matchedOrders order
  | _, _ => []

/-- The orders that the exchange has filled so far, in their order. A handler pushes the report of
one order before it comes to the next, so of the orders that it fills those count whose push has
been made. -/
def filledOrders (S : StrategyApi σ α) (s : PushLoop σ α) (actions : List (Action α)) :
    List (OrderRequest α) :=
  ((machine S).collect handlerFills s actions).take
    (filledReports (attempted (run S s actions).2)).length

/-- The position and the queued Filled reports make up the fills of the exchange. Every sum is
taken in the order of the fills. -/
def FillsAccounted (S : StrategyApi σ α) (s : PushLoop σ α) (actions : List (Action α)) : Prop :=
  ((filledOrders S s actions).map OrderRequest.signedQty).foldl (· + ·) 0 =
    (filledQtys (run S s actions).1.pending).foldl (· + ·)
      (run S s actions).1.components.risk.currentPosition

/-- The fills that a step's handler is going to report, or the step reports, are the same. -/
theorem handlerFills_qtys (S : StrategyApi σ α) (s : PushLoop σ α) (a : Action α) :
    filledQtys s.processorPc.pushes ++ (s.handlerFills a).map OrderRequest.signedQty =
      filledQtys (attempted (step S s a).2) ++ filledQtys (step S s a).1.processorPc.pushes := by
  have hinput : ∀ event, IsInput event → filledQtys ([event] : List (Event α)) = [] := by
    intro event hevent
    rw [filledQtys, filledReports_input hevent, List.map_nil]
  cases a with
  | feed md =>
    change filledQtys s.processorPc.pushes ++ [] = filledQtys [.marketData md] ++ _
    rw [List.append_nil, hinput (.marketData md) trivial]
    rfl
  | submit event =>
    change filledQtys s.processorPc.pushes ++ [] = filledQtys [event.toEvent] ++ _
    rw [List.append_nil, hinput _ (isInput_toEvent event)]
    rfl
  | process clock =>
    obtain ⟨queue,pc,components⟩ := s
    cases pc with
    | testing => rfl
    | popping batch =>
      change [] ++ [] = filledQtys [] ++ filledQtys (popNext batch _).processorPc.pushes
      rw [popNext_pushes]
      rfl
    | handling pushes batch =>
      cases pushes with
      | cons event pushes =>
        change filledQtys ([event] ++ pushes) ++ [] = filledQtys [event] ++ filledQtys pushes
        rw [filledQtys_append, List.append_nil]
      | nil =>
        cases batch with
        | nil => rfl
        | cons event batch =>
          change (handlerFills _ _).map OrderRequest.signedQty =
            filledQtys (components.dispatch S clock event).2
          cases event with
          | marketData md => exact (components.onMarketData_filledQtys S clock md).symm
          | validatedOrder order => exact (components.onValidatedOrder_filledQtys order).symm
          | _ =>
            rw [filledQtys, components.dispatch_no_fills S clock (by simp) (by simp)]
            rfl
    | returned => simp [handlerFills, step, processorStep, ProcessorPc.pushes, filledQtys]

/-- Over a run the orders that the handlers fill are those reported and those to be reported. -/
theorem collect_handlerFills (S : StrategyApi σ α) (s : PushLoop σ α) (actions : List (Action α)) :
    filledQtys s.processorPc.pushes ++
        ((machine S).collect handlerFills s actions).map OrderRequest.signedQty =
      filledQtys (attempted (run S s actions).2) ++
        filledQtys (run S s actions).1.processorPc.pushes := by
  induction actions generalizing s with
  | nil => simp [run, filledQtys]
  | cons a actions ih =>
    have hfirst := handlerFills_qtys S s a
    have hrest := ih (step S s a).1
    have hrun : run S s (a :: actions) = ((run S (step S s a).1 actions).1,
      (step S s a).2 ++ (run S (step S s a).1 actions).2) := rfl
    rw [Machine.collect_cons, List.map_append, ← List.append_assoc, hfirst, List.append_assoc,
      hrun, attempted_append, filledQtys_append, List.append_assoc, ← hrest]
    rfl

/-- So the orders filled so far are those reported. -/
theorem filledOrders_qtys (S : StrategyApi σ α) (strategy : σ) (maxPosition : α)
    (actions : List (Action α)) :
    (filledOrders S (init strategy maxPosition) actions).map OrderRequest.signedQty =
      filledQtys (attempted (run S (init strategy maxPosition) actions).2) := by
  have hcollect := collect_handlerFills S (init strategy maxPosition) actions
  have hstart : filledQtys (init strategy maxPosition : PushLoop σ α).processorPc.pushes = [] := rfl
  rw [hstart, List.nil_append] at hcollect
  rw [filledOrders, List.map_take, hcollect]
  exact List.take_left' (List.length_map _)

/-- The fills are accounted for in every state of a run exactly when no step of the run loses
one. -/
theorem fillsAccounted_iff (S : StrategyApi σ α) (strategy : σ) (maxPosition : α)
    (actions : List (Action α)) :
    (∀ n, FillsAccounted S (init strategy maxPosition) (actions.take n)) ↔
      (machine S).Along KeepsFill (init strategy maxPosition) actions := by
  have hstart : (filledQtys (attempted ([] : List (Op (Event α))))).foldl (· + ·) 0 =
      (init strategy maxPosition : PushLoop σ α).balance := rfl
  have hrule := (machine S).forall_take_iff_along_of_trace
    (I := fun s tr => (filledQtys (attempted tr)).foldl (· + ·) 0 = s.balance)
    (step_balance S) hstart actions
  rw [← hrule]
  apply forall_congr'
  intro n
  rw [FillsAccounted, filledOrders_qtys]
  rfl

theorem filledQtys_ticks (mds : List (MarketDataEvent α)) :
    filledQtys (mds.map Event.marketData) = [] := by
  induction mds with
  | nil => rfl
  | cons md mds ih => exact ih

/-- While there is room the feed only lengthens the queue. -/
theorem run_feeds (S : StrategyApi σ α) (mds : List (MarketDataEvent α)) (s : PushLoop σ α)
    (h : s.queue.length + mds.length ≤ 1023) :
    run S s (mds.map .feed) = ({ s with queue := s.queue ++ mds.map .marketData },
      (mds.map Event.marketData).map (fun event => .push event true)) := by
  induction mds generalizing s with
  | nil => simp [run]
  | cons md mds ih =>
    rw [List.length_cons] at h
    have hroom : decide (s.queue.length < 1023) = true := decide_eq_true (by omega)
    have hstep : step S s (.feed md) =
        ({ s with queue := s.queue ++ [.marketData md] },[.push (.marketData md) true]) := by
      simp [step, push, pushAll, Room.capacity, hroom]
    have hrest := ih { s with queue := s.queue ++ [.marketData md] } (by
      rw [List.length_append, List.length_singleton]
      omega)
    simp only [run, machine, List.map_cons, Machine.run_cons, hstep] at hrest ⊢
    rw [hrest]
    simp

/-- A buy order at 99 rests, and the handler of a tick at 98 is about to report its fill. -/
def fillAt98 : List (Action Double) :=
  [.feed ⟨[],100,1,0,false⟩,.submit (.orderRequest ⟨7,1,[],.buy,.limit,99,1,0,0⟩)] ++
    List.replicate 19 (.process (fun _ => 0)) ++ [.feed ⟨[],98,1,0,false⟩] ++
      List.replicate 4 (.process (fun _ => 0))

/-- When the feed fills the queue just before that push, the report is refused and the fill is
lost. -/
theorem fillsAccounted_full {ticks : List (MarketDataEvent Double)} (h : ticks.length = 1023) :
    ¬FillsAccounted (.silent Double) (init () 100)
      (fillAt98 ++ ticks.map .feed ++ [.process (fun _ => 0)]) := by
  obtain ⟨hqueue,hbatch,hposition,hnext,htrace⟩ :
      let filling := run (.silent Double) (init () 100) fillAt98
      filling.1.queue = [] ∧ filling.1.processorPc.batch = [] ∧
        filling.1.components.risk.currentPosition = 0 ∧
        (filling.1.processorPc.pushes.head?.any (fun event => decide (filledQtys [event] = [1]))) ∧
        filledQtys (attempted filling.2) = [] := by
    decide +kernel
  let filling := run (.silent Double) (init () 100) fillAt98
  let full : PushLoop Unit Double := { filling.1 with queue := ticks.map .marketData }
  have hfeeds := run_feeds (.silent Double) ticks filling.1 (by
    rw [hqueue, h]
    rfl)
  rw [hqueue, List.nil_append] at hfeeds
  -- Up to the last push the fills are accounted for: there are none.
  have hpending : filledQtys full.pending = [] := by
    simp only [pending, full, filling, hbatch, List.nil_append]
    exact filledQtys_ticks ticks
  have hbalance : full.balance = 0 := by
    rw [balance, hpending]
    exact hposition
  have hlaw := step_balance (.silent Double) full
    (filling.2 ++ (ticks.map Event.marketData).map (fun event => .push event true))
    (.process (fun _ => 0)) (by
      rw [attempted_append, attempted_map_push, filledQtys_append, filledQtys_ticks, hbalance,
        htrace]
      rfl)
  intro haccounted
  rw [FillsAccounted, filledOrders_qtys, run_append, run_append, hfeeds, run_singleton]
    at haccounted
  obtain ⟨event,hhead,hquantity⟩ := (Option.any_eq_true _ _).mp hnext
  have hfill : filledQtys [event] = [1] := of_decide_eq_true hquantity
  have hone : (1 : Double) ∈ filledQtys [event] := by
    rw [hfill]
    exact List.mem_singleton_self 1
  rcases hlaw.mp haccounted event hhead 1 hone with hroom | hsame
  · have hfull : full.queue.length = 1023 := by simp [full, h]
    omega
  · rw [hbalance] at hsame
    exact absurd hsame (by decide +kernel)

/-- The feed pushes 1023 ticks before the report is pushed. -/
def flood : List (Action Double) :=
  fillAt98 ++ (List.replicate 1023 ⟨[],98,1,0,false⟩).map .feed ++ [.process (fun _ => 0)]

theorem fillsAccounted_flood : ¬FillsAccounted (.silent Double) (init () 100) flood :=
  fillsAccounted_full List.length_replicate

end PushLoop
end HftEngine.Main
