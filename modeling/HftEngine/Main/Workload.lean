import HftEngine.Main.History
import HftEngine.Strategy.WorkingOrders

/-! How much work the feed makes for the processor thread. An event is worth the handlings that can
follow from it: a request is forwarded, answered and filled later at the most. Fills to come are
saved up in the resting orders and cancels to come in the quotes of the market maker. -/
namespace HftEngine.Strategy
open HftEngine.Core Book

/-- What a signal of a strategy is worth. -/
def StrategyEvent.worth : StrategyEvent → ℕ
  | .orderRequest _ => 4
  | .cancelOrder _ => 2

def signalWorth (signals : List StrategyEvent) : ℕ := (signals.map StrategyEvent.worth).sum

@[simp] theorem signalWorth_nil : signalWorth [] = 0 := rfl

@[simp] theorem signalWorth_cons (signal : StrategyEvent) (signals : List StrategyEvent) :
    signalWorth (signal :: signals) = signal.worth + signalWorth signals := by
  simp [signalWorth]

theorem signalWorth_append (xs ys : List StrategyEvent) :
    signalWorth (xs ++ ys) = signalWorth xs + signalWorth ys := by
  simp [signalWorth]

theorem signalWorth_eq (signals : List StrategyEvent) :
    signalWorth signals = 4 * (requestsOf signals).length + 2 * (cancelIds signals).length := by
  induction signals with
  | nil => rfl
  | cons signal signals ih =>
    cases signal with
    | orderRequest request =>
      rw [signalWorth_cons, ih, requestsOf_orderRequest, cancelIds_orderRequest, List.length_cons,
        StrategyEvent.worth]
      omega
    | cancelOrder orderId =>
      have hrequests : requestsOf (.cancelOrder orderId :: signals) = requestsOf signals := rfl
      have hcancels : cancelIds (.cancelOrder orderId :: signals) =
          orderId :: cancelIds signals := rfl
      rw [signalWorth_cons, ih, hrequests, hcancels, List.length_cons, StrategyEvent.worth]
      omega

/-- A quote round cancels the working orders and submits at most two. -/
theorem MarketMakerStrategy.Requotes.worth {s s' : MarketMakerStrategy}
    {signals : List StrategyEvent} (h : Requotes s s' signals) :
    signalWorth signals + 2 * s'.activeOrders.length ≤ 2 * s.activeOrders.length + 12 := by
  have hsides := h.sides.length_le
  rw [List.length_map, List.length_cons, List.length_singleton] at hsides
  rw [signalWorth_eq, h.cancels, h.active, requestIds, List.length_map]
  omega

theorem MarketMakerStrategy.onMarketData_worth (book : OrderBook) (clock : Clock)
    (md : MarketDataEvent) (s : MarketMakerStrategy) :
    signalWorth (s.onMarketData book clock md).2 +
        2 * (s.onMarketData book clock md).1.activeOrders.length ≤
      2 * s.activeOrders.length + 12 := by
  rw [s.onMarketData_eq book clock md]
  cases s.quote book clock with
  | none =>
    dsimp only
    rw [signalWorth_nil]
    omega
  | some targets => exact (s.requote_requotes clock targets.1 targets.2).worth

theorem MomentumStrategy.onMarketData_worth (book : OrderBook) (clock : Clock)
    (md : MarketDataEvent) (s : MomentumStrategy) :
    signalWorth (s.onMarketData book clock md).2 ≤ 4 := by
  unfold onMarketData
  dsimp only
  split_ifs <;> simp [submitOrder, StrategyEvent.worth]

namespace StrategyVariant
variable (book : OrderBook) (clock : Clock) (md : MarketDataEvent) (position : ℚ)

/-- What a strategy may send on a tick beyond its savings. -/
def allowance : StrategyVariant → ℕ
  | .marketMaker _ => 12
  | .momentum _ => 4

/-- Each working quote is worth its cancel. -/
def savings : StrategyVariant → ℕ
  | .marketMaker s => 2 * s.activeOrders.length
  | .momentum _ => 0

theorem onMarketData_worth (s : StrategyVariant) :
    signalWorth (s.onMarketData book clock md).2 + (s.onMarketData book clock md).1.savings ≤
      s.savings + s.allowance := by
  cases s with
  | marketMaker s => exact s.onMarketData_worth book clock md
  | momentum s => exact (s.onMarketData_worth book clock md).trans (Nat.le_add_left ..)

theorem onMarketData_allowance (s : StrategyVariant) :
    (s.onMarketData book clock md).1.allowance = s.allowance := by
  cases s <;> rfl

theorem updatePosition_savings (s : StrategyVariant) :
    (s.updatePosition position).savings = s.savings := by
  cases s <;> rfl

theorem updatePosition_allowance (s : StrategyVariant) :
    (s.updatePosition position).allowance = s.allowance := by
  cases s <;> rfl

end StrategyVariant

namespace StrategyEngine
variable (book : OrderBook) (md : MarketDataEvent) (position : ℚ)

def allowance (engine : StrategyEngine) : ℕ := (engine.map StrategyVariant.allowance).sum

def savings (engine : StrategyEngine) : ℕ := (engine.map StrategyVariant.savings).sum

/-- On a tick all strategies together send no more than what they saved and are allowed. -/
theorem onMarketData_worth (clock : Clock) (engine : StrategyEngine) :
    signalWorth (onMarketData book clock md engine).2 +
        savings (onMarketData book clock md engine).1 ≤ savings engine + allowance engine := by
  induction engine generalizing clock with
  | nil => exact Nat.le_refl _
  | cons s rest ih =>
    have hfirst := s.onMarketData_worth book clock md
    have hrest := ih (fun i => clock (i+3))
    simp only [onMarketData, signalWorth_append, savings, allowance, List.map_cons,
      List.sum_cons] at hrest ⊢
    omega

theorem onMarketData_allowance (clock : Clock) (engine : StrategyEngine) :
    allowance (onMarketData book clock md engine).1 = allowance engine := by
  induction engine generalizing clock with
  | nil => rfl
  | cons s rest ih =>
    have hfirst := s.onMarketData_allowance book clock md
    have hrest := ih (fun i => clock (i+3))
    simp only [onMarketData, allowance, List.map_cons, List.sum_cons] at hrest ⊢
    rw [hfirst, hrest]

theorem updatePosition_savings (engine : StrategyEngine) :
    savings (updatePosition position engine) = savings engine := by
  rw [savings, updatePosition, List.map_map]
  exact congrArg List.sum (List.map_congr_left fun s _ => s.updatePosition_savings position)

theorem updatePosition_allowance (engine : StrategyEngine) :
    allowance (updatePosition position engine) = allowance engine := by
  rw [allowance, updatePosition, List.map_map]
  exact congrArg List.sum (List.map_congr_left fun s _ => s.updatePosition_allowance position)

end StrategyEngine
end HftEngine.Strategy

namespace HftEngine.Main
open HftEngine.Core Strategy Exchange Fifo

/-- The handlings that an event leads to: its own, and those of what its handlers push. A tick also
pays what the strategies may send. -/
def weight (allowance : ℕ) : Event → ℕ
  | .marketData _ => 1 + allowance
  | .orderRequest _ => 4
  | .validatedOrder _ => 3
  | .cancelOrder _ => 2
  | .executionReport _ => 1

def totalWeight (allowance : ℕ) (events : List Event) : ℕ := (events.map (weight allowance)).sum

section
variable (allowance : ℕ)

@[simp] theorem totalWeight_nil : totalWeight allowance [] = 0 := rfl

@[simp] theorem totalWeight_cons (event : Event) (events : List Event) :
    totalWeight allowance (event :: events) = weight allowance event +
      totalWeight allowance events := by
  simp [totalWeight]

@[simp] theorem totalWeight_append (xs ys : List Event) :
    totalWeight allowance (xs ++ ys) = totalWeight allowance xs + totalWeight allowance ys := by
  simp [totalWeight]

theorem totalWeight_sublist {xs ys : List Event} (h : xs.Sublist ys) :
    totalWeight allowance xs ≤ totalWeight allowance ys := by
  induction h with
  | slnil => exact Nat.le_refl _
  | cons y _ ih =>
    rw [totalWeight_cons]
    omega
  | cons_cons x _ ih =>
    rw [totalWeight_cons, totalWeight_cons]
    omega

theorem length_le_totalWeight (events : List Event) :
    events.length ≤ totalWeight allowance events := by
  induction events with
  | nil => exact Nat.le_refl _
  | cons event events ih =>
    have hone : 1 ≤ weight allowance event := by cases event <;> simp [weight]
    rw [List.length_cons, totalWeight_cons]
    omega

theorem totalWeight_le (events : List Event) :
    totalWeight allowance events ≤ (allowance + 4) * events.length := by
  induction events with
  | nil => exact Nat.zero_le _
  | cons event events ih =>
    have hone : weight allowance event ≤ allowance + 4 := by
      cases event with
      | marketData md => exact (Nat.add_comm 1 allowance).trans_le (by omega)
      | _ => simp [weight]
    rw [totalWeight_cons, List.length_cons, Nat.mul_succ]
    omega

theorem totalWeight_signals (signals : List StrategyEvent) :
    totalWeight allowance (signals.map StrategyEvent.toEvent) = signalWorth signals := by
  induction signals with
  | nil => rfl
  | cons signal signals ih =>
    rw [List.map_cons, totalWeight_cons, ih, signalWorth_cons]
    cases signal <;> rfl

theorem totalWeight_reports (reports : List ExecutionReport) :
    totalWeight allowance (reports.map .executionReport) = reports.length := by
  induction reports with
  | nil => rfl
  | cons report reports ih =>
    rw [List.map_cons, totalWeight_cons, ih, weight, List.length_cons, Nat.add_comm]

end

/-- A price update reports each resting order that it removes. -/
theorem updateMarketPrice_balance (e : MatchingEngine) (md : MarketDataEvent) :
    (e.updateMarketPrice md).2.length + (e.updateMarketPrice md).1.restingOrders.length =
      e.restingOrders.length := by
  have hreports := congrArg List.length (e.updateMarketPrice_reports md)
  have hsplit := List.length_eq_length_filter_add (l := e.restingOrders) (e.priced md).crosses
  rw [List.length_map, List.length_map] at hreports
  rw [hreports, e.updateMarketPrice_restingOrders]
  exact hsplit.symm

/-- An order on arrival is answered by one report and comes to rest at most once. -/
theorem processOrder_balance (e : MatchingEngine) (order : OrderRequest) :
    (e.processOrder order).2.length + (e.processOrder order).1.restingOrders.length ≤
      e.restingOrders.length + 2 := by
  cases e.processOrder_arrival order with
  | filled price _ hresting hreports =>
    have hone := congrArg List.length hreports
    rw [List.length_map, List.length_singleton] at hone
    rw [hone, hresting]
    omega
  | rested hresting hreports =>
    have hone := congrArg List.length hreports
    rw [List.length_map, List.length_singleton] at hone
    rw [hone, hresting, List.length_append, List.length_singleton]
    omega
  | rejected hresting hreports =>
    have hone := congrArg List.length hreports
    rw [List.length_map, List.length_singleton] at hone
    rw [hone, hresting]
    omega

namespace Components
variable (clock : Clock) (c : Components StrategyEngine)

/-- What the components have still to send besides the pending events. -/
def savings : ℕ := c.matchingEngine.restingOrders.length + c.strategy.savings

theorem onExecutionReport_savings (report : ExecutionReport) :
    (c.onExecutionReport StrategyEngine.api clock report).1.savings = c.savings := by
  unfold onExecutionReport savings
  by_cases h : report.status = .filled <;> simp [h, recordFill, recordHistory, StrategyEngine.api]

theorem dispatch_allowance (event : Event) :
    (c.dispatch StrategyEngine.api clock event).1.strategy.allowance = c.strategy.allowance := by
  cases event with
  | marketData md =>
    exact (StrategyEngine.onMarketData_allowance _ _ _ _).trans
      (StrategyEngine.updatePosition_allowance _ _)
  | executionReport report =>
    unfold dispatch onExecutionReport
    by_cases h : report.status = .filled <;>
      simp [h, recordFill, recordHistory, StrategyEngine.api]
  | _ => rfl

/-- Handling an event is paid for: its weight covers the handling itself, what the handlers push
and what the components save up. -/
theorem dispatch_worth (event : Event) :
    1 + totalWeight c.strategy.allowance (c.dispatch StrategyEngine.api clock event).2 +
        (c.dispatch StrategyEngine.api clock event).1.savings ≤
      weight c.strategy.allowance event + c.savings := by
  cases event with
  | marketData md =>
    have hsignals := StrategyEngine.onMarketData_worth c.orderBook md clock
      (StrategyEngine.updatePosition c.pnlEngine.getTotalPosition c.strategy)
    rw [StrategyEngine.updatePosition_savings, StrategyEngine.updatePosition_allowance] at hsignals
    have hreports := updateMarketPrice_balance c.matchingEngine md
    simp only [dispatch, onMarketData, StrategyEngine.api, totalWeight_append, totalWeight_signals,
      totalWeight_reports, savings, weight]
    omega
  | orderRequest request =>
    cases hv : Oms.OrderManager.validateOrder c.risk request with
    | true =>
      rw [dispatch, onOrderRequest_accepted clock c hv, totalWeight_cons, totalWeight_nil]
      simp only [onOrderRequest, savings, weight]
      omega
    | false =>
      rw [dispatch, onOrderRequest_rejected clock c hv, totalWeight_nil]
      simp only [onOrderRequest, savings, weight]
      omega
  | validatedOrder order =>
    have hreports := processOrder_balance c.matchingEngine order
    simp only [dispatch, onValidatedOrder, totalWeight_reports, savings, weight]
    omega
  | cancelOrder orderId =>
    have hone : (c.matchingEngine.cancelOrder orderId).2.length = 1 := rfl
    simp only [dispatch, onCancelOrder, totalWeight_reports, savings, weight, hone,
      MatchingEngine.cancelOrder_restingOrders]
    omega
  | executionReport report =>
    rw [dispatch, onExecutionReport_savings, onExecutionReport_pushes, totalWeight_signals, weight]
    exact Nat.le_refl _

end Components

namespace EventLoop
variable (allowance : ℕ) (s : EventLoop StrategyEngine)

/-- What is still to come of the pending events and of what the components saved up. -/
def potential : ℕ := totalWeight allowance s.pending + s.components.savings

/-- What a label brings in from outside. -/
def credit (l : Label) : ℕ := totalWeight allowance l.action.input.toList

theorem credit_process {l : Label} (h : l.action.isProcess = true) : credit allowance l = 0 := by
  unfold credit
  cases haction : l.action with
  | process clock => rfl
  | _ =>
    rw [haction] at h
    contradiction

theorem step_allowance (l : Label) :
    (step StrategyEngine.api s l).1.components.strategy.allowance =
      s.components.strategy.allowance := by
  cases step_cases StrategyEngine.api s l with
  | input _ _ _ _ _ _ hcomponents => rw [hcomponents]
  | idle _ _ _ hcomponents => rw [hcomponents]
  | handle _ _ _ _ _ _ _ _ _ _ _ _ hcomponents =>
    rw [hcomponents, Components.dispatch_allowance]

/-- No step handles more than what its label brings in and what was still to come. -/
theorem step_worth (h : s.components.strategy.allowance = allowance) (l : Label) :
    (popped (step StrategyEngine.api s l).2).length +
        (step StrategyEngine.api s l).1.potential allowance ≤
      s.potential allowance + credit allowance l := by
  unfold potential
  cases step_cases StrategyEngine.api s l with
  | input event ok hpush _ htrace hpending hcomponents =>
    have haccepted := totalWeight_sublist allowance (accepted_sublist [Op.push event ok])
    rw [htrace, hpending, hcomponents, totalWeight_append, credit, hpush]
    simp only [attempted_push, attempted_nil] at haccepted
    simp only [popped_push, popped_nil, List.length_nil, Option.toList_some]
    omega
  | idle _ htrace hpending hcomponents =>
    rw [htrace, hpending, hcomponents, popped_nil, List.length_nil, Nat.zero_add]
    exact Nat.le_add_right ..
  | handle clock event rest ops _ _ _ hfront htrace hattempted hpopped hpending hcomponents =>
    have hworth := s.components.dispatch_worth clock event
    have haccepted := totalWeight_sublist allowance (accepted_sublist ops)
    rw [h, ← hattempted] at hworth
    rw [htrace, hpending, hcomponents, hfront, popped_pop, hpopped, totalWeight_append,
      totalWeight_cons, List.length_singleton]
    omega

theorem run_worth (strategies : StrategyEngine) (maxPosition : ℚ) (labels : List Label) :
    (popped (run StrategyEngine.api (init strategies maxPosition) labels).2).length +
        (run StrategyEngine.api (init strategies maxPosition) labels).1.potential
          strategies.allowance ≤
      strategies.savings + (labels.map (credit strategies.allowance)).sum := by
  have hrun := (machine StrategyEngine.api).run_potential
    (I := fun s => s.components.strategy.allowance = strategies.allowance)
    (v := fun ops => (popped ops).length) rfl (by simp)
    (fun s l h => (step_allowance s l).trans h) (fun s l h => step_worth _ s h l)
    (s := init strategies maxPosition) rfl labels
  have hstart : (init strategies maxPosition).potential strategies.allowance =
      strategies.savings := (Nat.zero_add _).trans (Nat.zero_add _)
  rw [hstart] at hrun
  exact hrun

/-- Whatever the strategies, the schedule and the answers of the queue: the events handled, pending
and still to come as fills of resting orders are bounded by what the feed and the submissions
brought in, a fixed number for each tick. -/
theorem work_bounded (strategies : StrategyEngine) (maxPosition : ℚ) (labels : List Label) :
    let final := run StrategyEngine.api (init strategies maxPosition) labels
    (popped final.2).length + final.1.pending.length +
        final.1.components.matchingEngine.restingOrders.length ≤
      strategies.savings + (labels.map (credit strategies.allowance)).sum := by
  have hrun := run_worth strategies maxPosition labels
  have hpending := length_le_totalWeight strategies.allowance
    (run StrategyEngine.api (init strategies maxPosition) labels).1.pending
  simp only [potential, Components.savings] at hrun
  dsimp only
  omega

/-- In main.cpp a tick of the feed is worth 17 handlings. -/
example (md : MarketDataEvent) :
    weight (StrategyEngine.allowance StrategyEngine.main) (.marketData md) = 17 := rfl

/-- The processor handles a batch only if it popped something. -/
def HoldsBatch : Prop := s.handling = true → s.batch ≠ []

theorem step_holdsBatch (h : s.HoldsBatch) (l : Label) :
    (step StrategyEngine.api s l).1.HoldsBatch := by
  unfold HoldsBatch
  cases haction : l.action with
  | feed md =>
    simp only [step, haction]
    exact h
  | submit event =>
    simp only [step, haction]
    exact h
  | process clock =>
    simp only [step, haction]
    by_cases hh : s.handling = true
    · rw [if_pos hh]
      unfold handleNext
      cases s.batch with
      | nil => simp
      | cons event rest => cases rest <;> simp
    · rw [if_neg hh]
      unfold popNext
      cases s.queue with
      | nil => cases s.batch <;> simp
      | cons event rest => simp

/-- The processor steps that may pass before nothing is pending. -/
def stepsLeft : ℕ :=
  3 * s.potential allowance - s.batch.length - (if s.handling then 1 else 0)

theorem length_pending_le : s.batch.length + s.queue.length ≤ s.potential allowance := by
  have hpending := length_le_totalWeight allowance s.pending
  rw [pending, List.length_append] at hpending
  rw [potential, pending]
  omega

/-- While something is pending every processor step brings the end nearer: it pops an event, closes
the batch or handles an event. -/
theorem stepsLeft_step {l : Label} (hl : l.action.isProcess = true)
    (h : s.components.strategy.allowance = allowance) (hbatch : s.HoldsBatch)
    (hpending : s.pending ≠ []) :
    (step StrategyEngine.api s l).1.stepsLeft allowance < s.stepsLeft allowance := by
  have hlength := s.length_pending_le allowance
  have hworth := step_worth allowance s h l
  rw [credit_process allowance hl] at hworth
  obtain ⟨clock,haction⟩ : ∃ clock, l.action = .process clock := by
    apply exists_process
    cases ha : l.action <;> simp [ha, Action.input, Action.isProcess] at hl ⊢
  unfold stepsLeft
  by_cases hh : s.handling = true
  · obtain ⟨event,rest,hb⟩ := List.exists_cons_of_ne_nil (hbatch hh)
    have hstep : step StrategyEngine.api s l = s.handleNext StrategyEngine.api l.room clock := by
      simp only [step, haction, if_pos hh]
    have hpopped : (popped (step StrategyEngine.api s l).2).length = 1 := by
      rw [hstep, handleNext, hb, popped_pop, popped_pushAll, List.length_singleton]
    have hrest : (step StrategyEngine.api s l).1.batch = rest := by
      rw [hstep, handleNext, hb]
    have hnext : (step StrategyEngine.api s l).1.handling = !rest.isEmpty := by
      rw [hstep, handleNext, hb]
    rw [hb, List.length_cons] at hlength
    rw [hrest, hnext, hb, if_pos hh, List.length_cons]
    cases rest with
    | nil =>
      simp only [List.isEmpty_nil, Bool.not_true, List.length_nil] at *
      omega
    | cons next rest =>
      simp only [List.isEmpty_cons, Bool.not_false, List.length_cons, if_true] at *
      omega
  · have hstep : (step StrategyEngine.api s l).1 = s.popNext := by
      simp only [step, haction, if_neg hh]
    have hsame : s.popNext.potential allowance = s.potential allowance := by
      rw [potential, potential, popNext_pending, popNext_components]
    rw [hstep, hsame, if_neg hh]
    unfold popNext
    cases hq : s.queue with
    | nil =>
      have hb : s.batch ≠ [] := by simpa [pending, hq] using hpending
      have hpos := List.length_pos_of_ne_nil hb
      have hclose : (!s.batch.isEmpty) = true := by simp [hb]
      simp only [hclose, if_true]
      omega
    | cons event rest =>
      rw [hq, List.length_cons] at hlength
      simp only [List.length_append, List.length_singleton]
      split_ifs <;> omega

theorem pending_of_stepsLeft (hbatch : s.HoldsBatch) (h : s.stepsLeft allowance = 0) :
    s.pending = [] := by
  have hlength := s.length_pending_le allowance
  unfold stepsLeft at h
  rw [pending, List.append_eq_nil_iff, ← List.length_eq_zero_iff, ← List.length_eq_zero_iff]
  by_cases hh : s.handling = true
  · have hpos := List.length_pos_of_ne_nil (hbatch hh)
    rw [if_pos hh] at h
    omega
  · rw [if_neg hh] at h
    omega

/-- What the state reached has still to work off. -/
def work : ℕ := s.potential s.components.strategy.allowance

/-- Three steps for each handling are enough: one for a pop, one for the handling and one to close
the batch. -/
theorem drains_of_holdsBatch {s : EventLoop StrategyEngine} (h : s.HoldsBatch)
    {steps : List Label} (hsteps : ∀ l ∈ steps, l.action.isProcess = true)
    (henough : 3 * s.work ≤ steps.length) :
    (run StrategyEngine.api s steps).1.pending = [] := by
  refine (machine StrategyEngine.api).run_reaches (P := fun _ l => l.action.isProcess = true)
    (I := fun s' => s'.components.strategy.allowance = s.components.strategy.allowance ∧
      s'.HoldsBatch)
    (T := fun s' => s'.pending = []) (U := stepsLeft s.components.strategy.allowance)
    (fun s' l h _ => ⟨(step_allowance s' l).trans h.1,step_holdsBatch s' h.2 l⟩) ?_
    (fun s' l h hl hT => stepsLeft_step _ s' hl h.1 h.2 hT)
    (fun s' h hzero => pending_of_stepsLeft _ s' h.2 hzero) ⟨rfl,h⟩
    ((machine StrategyEngine.api).along_of_mem (fun _ l hl => hsteps l hl) _) ?_
  · intro s' l _ hl hempty
    change (step StrategyEngine.api s' l).1.pending = []
    cases step_cases StrategyEngine.api s' l with
    | input event ok hpush =>
      cases ha : l.action <;> simp [ha, Action.input, Action.isProcess] at hl hpush
    | idle _ _ hpending => rw [hpending, hempty]
    | handle _ _ _ _ _ _ _ hfront =>
      rw [hempty] at hfront
      contradiction
  · unfold stepsLeft
    rw [work] at henough
    omega

/-- After one processor step the processor handles a batch only if it has one. -/
theorem process_holdsBatch {l : Label} (hl : l.action.isProcess = true) :
    HoldsBatch (step StrategyEngine.api s l).1 := by
  by_cases h : s.HoldsBatch
  · exact step_holdsBatch s h l
  · obtain ⟨hh,hnone⟩ := Classical.not_imp.mp h
    have hb : s.batch = [] := not_not.mp hnone
    obtain ⟨clock,haction⟩ : ∃ clock, l.action = .process clock := by
      apply exists_process
      cases ha : l.action <;> simp [ha, Action.input, Action.isProcess] at hl ⊢
    simp [HoldsBatch, step, haction, hh, handleNext, hb]

/-- The processor thread catches up from any state: once nothing comes in from outside, three times
as many of its steps as there is work outstanding, and one, leave no event pending, whatever the
queue refuses meanwhile. The work is a bounded amount for each pending event, one for each resting
order, and what the strategies saved up. -/
theorem drains (steps : List Label) (hsteps : ∀ l ∈ steps, l.action.isProcess = true)
    (henough : 3 * s.work + 1 ≤ steps.length) :
    (run StrategyEngine.api s steps).1.pending = [] ∧
      s.work ≤ (s.components.strategy.allowance + 4) * s.pending.length +
        s.components.matchingEngine.restingOrders.length + s.components.strategy.savings := by
  constructor
  · cases steps with
    | nil => simp at henough
    | cons l steps =>
      have hl := hsteps l List.mem_cons_self
      have hworth := step_worth s.components.strategy.allowance s rfl l
      rw [credit_process _ hl] at hworth
      have hsame := step_allowance s l
      refine drains_of_holdsBatch (process_holdsBatch s hl)
        (fun l' hl' => hsteps l' (List.mem_cons_of_mem _ hl')) ?_
      rw [List.length_cons] at henough
      unfold work at henough ⊢
      rw [hsame]
      omega
  · have hweight := totalWeight_le s.components.strategy.allowance s.pending
    rw [work, potential, Components.savings]
    omega

/-- A tick that fills a resting order is pending, with the events it leads to. -/
theorem drains_restThenFill :
    let reached := (run StrategyEngine.api (init StrategyEngine.main 100)
      (([.tick 100,.limit 7 .buy 99 1] : List Label) ++ Label.processes 20 ++ [.tick 98])).1
    reached.work = 18 ∧
      (run StrategyEngine.api reached (Label.processes 55)).1.pending = [] := by
  intro reached
  have hwork : reached.work = 18 := by decide +kernel
  exact ⟨hwork,(drains reached (Label.processes 55)
    (fun l hl => by rw [List.eq_of_mem_replicate hl]; rfl) (by rw [hwork]; rfl)).1⟩

end EventLoop
end HftEngine.Main
