import HftEngine.Main.PushLoop
import HftEngine.Replay.ReplayEngine

/-! The three threads of main.cpp in REPLAY mode: the feed thread runs the replay engine, the
processor thread runs the event loop, and the main thread runs the UI loop, clears `running`,
stops and joins the other two and computes the summary. Every access to the queue or to a flag
is a step of its own. A pop enters the trace when its event is handled. -/
set_option linter.unusedSectionVars false

namespace HftEngine.Main
open HftEngine.Core Strategy Fifo Replay

/-- Where the main thread is. -/
inductive UiPc
  | testing
  | asking
  | completing
  | clearing
  | stopping
  | joiningFeed
  | joiningProcessor
  | summary

namespace UiPc

/-- In the UI loop, before a decision to leave it. -/
def isWatching : UiPc → Bool
  | .testing => true
  | .asking => true
  | _ => false

def isSummary : UiPc → Bool
  | .summary => true
  | _ => false

end UiPc

structure Backtest (σ : Type) (α : Type := ℚ) where
  queue : List (Event α)
  running : Bool
  replay : ReplayEngine
  feedPc : RunPc α
  processorPc : ProcessorPc α
  uiPc : UiPc
  /-- Whether the UI loop was left because the feed was finished. -/
  backtestComplete : Bool
  components : Components σ α

namespace Backtest
variable {σ α : Type}

/-- The next step of a thread, with what it takes from its surroundings: the content of
uninitialized memory, the clock, and whether the user closes the window. -/
inductive Turn (α : Type := ℚ)
  | feed (stale : MarketDataEvent α)
  | processor (clock : Clock)
  | ui (shouldClose : Bool)

def init [∀ n, OfNat α n] (strategy : σ) (maxPosition : α) (file : Option (List Line)) :
    Backtest σ α where
  queue := []
  running := true
  replay := .init file
  feedPc := .starting
  processorPc := .testing
  uiPc := .testing
  backtestComplete := false
  components := .init strategy maxPosition

/-- The queue stores at most 1023 events, and no caller looks at the result of a push. -/
def pushed (s : Backtest σ α) (events : List (Event α)) : List (Event α) × List (Op (Event α)) :=
  pushAll (Room.capacity 1023) s.queue events

variable [Text.ReadNumber α] [Add α] [Sub α] [Mul α] [Div α] [Neg α] [LT α] [DecidableLT α]
  [LE α] [DecidableLE α] [Min α] [Max α] [∀ n, OfNat α n]

def feedStep (stale : MarketDataEvent α) (s : Backtest σ α) : Backtest σ α × List (Op (Event α)) :=
  let next := s.replay.runStep stale s.feedPc
  let pushed := s.pushed (s.feedPc.inFlight.map .marketData)
  ({ s with
      queue := pushed.1
      replay := next.1
      feedPc := next.2 },
    pushed.2)

/-- One iteration of the loop that fills the batch. -/
def popNext (batch : List (Event α)) (s : Backtest σ α) : Backtest σ α :=
  match s.queue with
  | [] => { s with processorPc := .afterEmpty batch }
  | event :: rest =>
    { s with
      queue := rest
      processorPc := .afterPop (batch ++ [event]) }

def processorStep (S : StrategyApi σ α) (clock : Clock) (s : Backtest σ α) :
    Backtest σ α × List (Op (Event α)) :=
  match s.processorPc with
  | .testing => ({ s with processorPc := .afterTest s.running },[])
  | .popping batch => (s.popNext batch,[])
  | .handling (event :: pushes) batch =>
    let pushed := s.pushed [event]
    ({ s with
        queue := pushed.1
        processorPc := .handling pushes batch },
      pushed.2)
  | .handling [] (event :: batch) =>
    let handled := s.components.dispatch S clock event
    ({ s with
        processorPc := .handling handled.2 batch
        components := handled.1 },
      [.pop event])
  | .handling [] [] => ({ s with processorPc := .testing },[])
  | .returned => (s,[])

def uiStep (shouldClose : Bool) (s : Backtest σ α) : Backtest σ α :=
  match s.uiPc with
  | .testing => { s with uiPc := if !shouldClose && s.running then .asking else .clearing }
  | .asking =>
    if s.replay.isFinished then
      { s with
        uiPc := .completing
        backtestComplete := true }
    else { s with uiPc := .testing }
  | .completing =>
    { s with
      running := false
      uiPc := .clearing }
  | .clearing =>
    { s with
      running := false
      uiPc := .stopping }
  | .stopping =>
    { s with
      replay := s.replay.stop
      uiPc := .joiningFeed }
  | .joiningFeed => if s.feedPc.isReturned then { s with uiPc := .joiningProcessor } else s
  | .joiningProcessor => if s.processorPc.isReturned then { s with uiPc := .summary } else s
  | .summary => s

/-- An exception that leaves the feed thread terminates the program. -/
def step (S : StrategyApi σ α) (s : Backtest σ α) (turn : Turn α) :
    Backtest σ α × List (Op (Event α)) :=
  if s.feedPc.isThrown then (s,[])
  else match turn with
  | .feed stale => s.feedStep stale
  | .processor clock => s.processorStep S clock
  | .ui shouldClose => (s.uiStep shouldClose,[])

def machine (S : StrategyApi σ α) : Machine (Backtest σ α) (Turn α) (Op (Event α)) := ⟨step S⟩

def run (S : StrategyApi σ α) (s : Backtest σ α) (turns : List (Turn α)) :
    Backtest σ α × List (Op (Event α)) := (machine S).run s turns

/-- Events that were accepted by the queue and not handled yet, oldest first. -/
def pending (s : Backtest σ α) : List (Event α) := s.processorPc.batch ++ s.queue

@[simp] theorem ticksOf_map_marketData (mds : List (MarketDataEvent α)) :
    ticksOf (mds.map .marketData) = mds := by
  induction mds with
  | nil => rfl
  | cons md mds ih => exact congrArg (md :: ·) ih

/-- Pushes are appended to the queue as far as they are accepted. -/
theorem pushed_queue (s : Backtest σ α) (events : List (Event α)) :
    (s.pushed events).1 = s.queue ++ accepted (s.pushed events).2 := pushAll_queue _ _ _

@[simp] theorem attempted_pushed (s : Backtest σ α) (events : List (Event α)) :
    attempted (s.pushed events).2 = events := attempted_pushAll _ _ _

@[simp] theorem popped_pushed (s : Backtest σ α) (events : List (Event α)) :
    popped (s.pushed events).2 = [] := popped_pushAll _ _ _

/-- The main thread owns the flags: queue, feed thread and processor thread go on unchanged. -/
@[simp] theorem uiStep_queue (shouldClose : Bool) (s : Backtest σ α) :
    (s.uiStep shouldClose).queue = s.queue := by
  unfold uiStep
  repeat' split
  all_goals rfl

@[simp] theorem uiStep_feedPc (shouldClose : Bool) (s : Backtest σ α) :
    (s.uiStep shouldClose).feedPc = s.feedPc := by
  unfold uiStep
  repeat' split
  all_goals rfl

@[simp] theorem uiStep_processorPc (shouldClose : Bool) (s : Backtest σ α) :
    (s.uiStep shouldClose).processorPc = s.processorPc := by
  unfold uiStep
  repeat' split
  all_goals rfl

@[simp] theorem uiStep_components (shouldClose : Bool) (s : Backtest σ α) :
    (s.uiStep shouldClose).components = s.components := by
  unfold uiStep
  repeat' split
  all_goals rfl

/-- Only the UI loop decides that the backtest is complete. -/
theorem uiStep_backtestComplete (shouldClose : Bool) {s : Backtest σ α}
    (h : s.uiPc.isWatching = false) :
    (s.uiStep shouldClose).backtestComplete = s.backtestComplete := by
  unfold uiStep
  cases hpc : s.uiPc with
  | asking =>
    rw [hpc] at h
    contradiction
  | joiningFeed =>
    change (if s.feedPc.isReturned then _ else _ : Backtest σ α).backtestComplete = _
    split <;> rfl
  | joiningProcessor =>
    change (if s.processorPc.isReturned then _ else _ : Backtest σ α).backtestComplete = _
    split <;> rfl
  | _ => rfl

/-- The processor thread leaves the replay, the flags and the main thread alone. -/
@[simp] theorem processorStep_replay (S : StrategyApi σ α) (clock : Clock) (s : Backtest σ α) :
    (s.processorStep S clock).1.replay = s.replay := by
  unfold processorStep popNext
  repeat' split
  all_goals rfl

@[simp] theorem processorStep_feedPc (S : StrategyApi σ α) (clock : Clock) (s : Backtest σ α) :
    (s.processorStep S clock).1.feedPc = s.feedPc := by
  unfold processorStep popNext
  repeat' split
  all_goals rfl

@[simp] theorem processorStep_running (S : StrategyApi σ α) (clock : Clock) (s : Backtest σ α) :
    (s.processorStep S clock).1.running = s.running := by
  unfold processorStep popNext
  repeat' split
  all_goals rfl

@[simp] theorem processorStep_uiPc (S : StrategyApi σ α) (clock : Clock) (s : Backtest σ α) :
    (s.processorStep S clock).1.uiPc = s.uiPc := by
  unfold processorStep popNext
  repeat' split
  all_goals rfl

@[simp] theorem processorStep_backtestComplete (S : StrategyApi σ α) (clock : Clock)
    (s : Backtest σ α) : (s.processorStep S clock).1.backtestComplete = s.backtestComplete := by
  unfold processorStep popNext
  repeat' split
  all_goals rfl

theorem processorStep_testing (S : StrategyApi σ α) (clock : Clock) {s : Backtest σ α}
    (h : s.processorPc.isTesting = true) : s.processorStep S clock =
      ({ s with processorPc := .afterTest s.running },[]) := by
  unfold processorStep
  cases hpc : s.processorPc with
  | testing => rfl
  | _ =>
    rw [hpc] at h
    contradiction

theorem processorStep_returned (S : StrategyApi σ α) (clock : Clock) {s : Backtest σ α}
    (h : s.processorPc.isReturned = true) : s.processorStep S clock = (s,[]) := by
  unfold processorStep
  cases hpc : s.processorPc with
  | returned => rfl
  | _ =>
    rw [hpc] at h
    contradiction

/-- The processor thread returns only from the test of its loop. -/
theorem processorStep_returns (S : StrategyApi σ α) (clock : Clock) {s : Backtest σ α}
    (hworking : s.processorPc.isReturned = false)
    (h : (s.processorStep S clock).1.processorPc.isReturned = true) :
    s.processorPc.isTesting = true ∧ s.running = false := by
  unfold processorStep popNext at h
  split at h
  · rename_i hpc
    refine ⟨by rw [hpc]; rfl,?_⟩
    simpa using h
  · split at h
    · simp at h
    · simp at h
  · contradiction
  · contradiction
  · contradiction
  · rename_i hpc
    rw [hpc] at hworking
    contradiction

theorem step_thrown (S : StrategyApi σ α) {s : Backtest σ α} (h : s.feedPc.isThrown = true)
    (turn : Turn α) : step S s turn = (s,[]) := by
  unfold step
  rw [if_pos h]

theorem step_feed (S : StrategyApi σ α) {s : Backtest σ α} (h : s.feedPc.isThrown = false)
    (stale : MarketDataEvent α) : step S s (.feed stale) = s.feedStep stale := by
  simp [step, h]

theorem step_processor (S : StrategyApi σ α) {s : Backtest σ α} (h : s.feedPc.isThrown = false)
    (clock : Clock) : step S s (.processor clock) = s.processorStep S clock := by
  simp [step, h]

theorem step_ui (S : StrategyApi σ α) {s : Backtest σ α} (h : s.feedPc.isThrown = false)
    (shouldClose : Bool) : step S s (.ui shouldClose) = (s.uiStep shouldClose,[]) := by
  simp [step, h]

/-- Of the pushes that a handler has not made yet, the next one is made. -/
theorem ticksOf_attempted_processorStep (S : StrategyApi σ α) (clock : Clock) {s : Backtest σ α}
    (h : ticksOf s.processorPc.pushes = []) :
    ticksOf (attempted (s.processorStep S clock).2) = [] := by
  unfold processorStep
  split
  · rfl
  · rfl
  · rename_i event pushes batch hpc
    rw [hpc] at h
    have hsplit : ticksOf [event] ++ ticksOf pushes = [] := by
      rw [← ticksOf_append]
      exact h
    rw [attempted_pushed]
    exact (List.append_eq_nil_iff.mp hsplit).1
  · rfl
  · rfl
  · rfl

/-- What the push loop has of the three threads. It never ends, so a processor thread that has
returned is one that waits at its test. -/
def pushLoop (s : Backtest σ α) : PushLoop σ α :=
  ⟨s.queue,if s.processorPc.isReturned then .testing else s.processorPc,s.components⟩

/-- The step of the push loop that a turn is, if it is one. -/
def loopActions (s : Backtest σ α) : Turn α → List (Action α)
  | .feed _ => s.feedPc.inFlight.map .feed
  | .processor clock =>
    if s.processorPc.isReturned || (s.processorPc.isTesting && !s.running) then []
    else [.process clock]
  | .ui _ => []

theorem feedStep_pushLoop (S : StrategyApi σ α) (stale : MarketDataEvent α) (s : Backtest σ α) :
    ((s.feedStep stale).1.pushLoop,(s.feedStep stale).2) =
      PushLoop.run S s.pushLoop (s.loopActions (.feed stale)) := by
  cases hpc : s.feedPc <;>
    simp [feedStep, loopActions, hpc, RunPc.inFlight, pushed, pushAll, pushLoop, PushLoop.run,
      PushLoop.machine, PushLoop.step, PushLoop.push]

theorem processorStep_pushLoop (S : StrategyApi σ α) (clock : Clock) (s : Backtest σ α) :
    ((s.processorStep S clock).1.pushLoop,(s.processorStep S clock).2) =
      PushLoop.run S s.pushLoop (s.loopActions (.processor clock)) := by
  cases hpc : s.processorPc with
  | testing =>
    cases hrunning : s.running <;>
      simp [processorStep, hpc, hrunning, pushLoop, loopActions, PushLoop.run, PushLoop.machine,
        PushLoop.step, PushLoop.processorStep, ProcessorPc.afterTest, ProcessorPc.isReturned,
        ProcessorPc.isTesting]
  | popping batch =>
    have hworking : (ProcessorPc.popping batch).isReturned = false := rfl
    have hpast : (ProcessorPc.popping batch).isTesting = false := rfl
    cases hqueue : s.queue <;>
      simp [processorStep, hpc, popNext, hqueue, pushLoop, loopActions, PushLoop.run,
        PushLoop.machine, PushLoop.step, PushLoop.processorStep, PushLoop.popNext, hworking, hpast]
  | handling pushes batch =>
    cases pushes with
    | cons event pushes =>
      simp [processorStep, hpc, pushed, pushLoop, loopActions, PushLoop.run, PushLoop.machine,
        PushLoop.step, PushLoop.processorStep, PushLoop.push, ProcessorPc.isReturned,
        ProcessorPc.isTesting]
    | nil =>
      cases batch <;>
        simp [processorStep, hpc, pushLoop, loopActions, PushLoop.run, PushLoop.machine,
          PushLoop.step, PushLoop.processorStep, ProcessorPc.isReturned, ProcessorPc.isTesting]
  | returned =>
    simp [processorStep, hpc, pushLoop, loopActions, PushLoop.run, ProcessorPc.isReturned]

theorem uiStep_pushLoop (shouldClose : Bool) (s : Backtest σ α) :
    (s.uiStep shouldClose).pushLoop = s.pushLoop := by
  simp only [pushLoop, uiStep_queue, uiStep_processorPc, uiStep_components]

/-- As long as no exception ends it, a backtest is a run of the push loop, with the same trace. -/
theorem run_pushLoop (S : StrategyApi σ α) (s : Backtest σ α) (turns : List (Turn α))
    (halive : (machine S).Along (fun s _ => s.feedPc.isThrown = false) s turns) :
    ((run S s turns).1.pushLoop,(run S s turns).2) =
      PushLoop.run S s.pushLoop ((machine S).collect loopActions s turns) := by
  induction turns generalizing s with
  | nil => rfl
  | cons turn turns ih =>
    have hstep : ((step S s turn).1.pushLoop,(step S s turn).2) =
        PushLoop.run S s.pushLoop (s.loopActions turn) := by
      cases turn with
      | feed stale =>
        rw [step_feed S halive.1]
        exact feedStep_pushLoop S stale s
      | processor clock =>
        rw [step_processor S halive.1]
        exact processorStep_pushLoop S clock s
      | ui shouldClose =>
        rw [step_ui S halive.1, uiStep_pushLoop]
        rfl
    have hrest := ih (step S s turn).1 halive.2
    have hrun : run S s (turn :: turns) = ((run S (step S s turn).1 turns).1,
      (step S s turn).2 ++ (run S (step S s turn).1 turns).2) := rfl
    rw [Machine.collect_cons, PushLoop.run_append, ← hstep, hrun]
    exact congrArg (fun final : PushLoop σ α × List (Op (Event α)) =>
      (final.1,(step S s turn).2 ++ final.2)) hrest

end Backtest
end HftEngine.Main
