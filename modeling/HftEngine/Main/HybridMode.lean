import HftEngine.Feed.Shutdown
import HftEngine.Main.Backtest

/-! The whole program in HYBRID mode: the feed thread runs the hybrid feed, which starts a thread
for each of its feeds, the processor thread runs the event loop, and the main thread stays in the
UI loop until the user closes the window, for nothing else ends it. -/
namespace HftEngine.Main
open HftEngine.Core Strategy Fifo Replay Feed

/-- Where the main thread is; outside of REPLAY mode it does not ask the feed whether it is
finished. -/
inductive WindowPc
  | testing
  | clearing
  | stopping
  | joiningFeed
  | joiningProcessor
  | summary
  deriving DecidableEq

/-- The steps of the main thread to its summary once the window is closed and if it need not wait;
a call of `stop` counts as one. -/
def WindowPc.stepsLeft : WindowPc → ℕ
  | .testing => 5
  | .clearing => 4
  | .stopping => 3
  | .joiningFeed => 2
  | .joiningProcessor => 1
  | .summary => 0

structure HybridMode (σ : Type) where
  queue : List Event
  running : Bool
  feed : HybridFeed
  processorPc : ProcessorPc
  uiPc : WindowPc
  components : Components σ

namespace HybridMode
variable {σ : Type}

/-- The next step of a thread: the feed thread in `HybridFeed::run`, the thread of a feed, the
processor thread, or the main thread. -/
inductive Turn
  | run
  | feed (i : ℕ) (stale : MarketDataEvent) (now : ℕ)
  | processor (clock : Clock)
  | ui (shouldClose : Bool)

def init (strategy : σ) (maxPosition : ℚ) (file : Option (List Line)) : HybridMode σ where
  queue := []
  running := true
  feed := .hybridMode file
  processorPc := .testing
  uiPc := .testing
  components := .init strategy maxPosition

/-- What the processor thread sees of the program; it is the same in all modes. -/
def view (s : HybridMode σ) : Backtest σ where
  queue := s.queue
  running := s.running
  replay := .init none
  feedPc := .starting
  processorPc := s.processorPc
  uiPc := .testing
  backtestComplete := false
  components := s.components

def feedTurn (dis : ℕ → ℚ) (turn : HybridTurn) (s : HybridMode σ) :
    HybridMode σ × List (Op Event) :=
  let next := (HybridFeed.machine dis).step s.feed turn
  let pushed := s.view.pushed (next.2.map (fun p => .marketData p.2))
  ({ s with
      queue := pushed.1
      feed := next.1 },
    pushed.2)

def processorStep (S : StrategyApi σ) (clock : Clock) (s : HybridMode σ) :
    HybridMode σ × List (Op Event) :=
  let next := s.view.processorStep S clock
  ({ s with
      queue := next.1.queue
      processorPc := next.1.processorPc
      components := next.1.components },
    next.2)

def uiStep (dis : ℕ → ℚ) (shouldClose : Bool) (s : HybridMode σ) : HybridMode σ :=
  match s.uiPc with
  | .testing => if !shouldClose && s.running then s else { s with uiPc := .clearing }
  | .clearing =>
    { s with
      running := false
      uiPc := .stopping }
  | .stopping =>
    if s.feed.stopPc = .stopped then { s with uiPc := .joiningFeed }
    else { s with feed := ((HybridFeed.machine dis).step s.feed .stop).1 }
  | .joiningFeed => if s.feed.runPc = .returned then { s with uiPc := .joiningProcessor } else s
  | .joiningProcessor => if s.processorPc.isReturned then { s with uiPc := .summary } else s
  | .summary => s

/-- An exception that leaves the thread of a feed terminates the program. -/
def step (S : StrategyApi σ) (dis : ℕ → ℚ) (s : HybridMode σ) (turn : Turn) :
    HybridMode σ × List (Op Event) :=
  if s.feed.isThrown then (s,[])
  else match turn with
  | .run => s.feedTurn dis .run
  | .feed i stale now => s.feedTurn dis (.feed i stale now)
  | .processor clock => s.processorStep S clock
  | .ui shouldClose => (s.uiStep dis shouldClose,[])

def machine (S : StrategyApi σ) (dis : ℕ → ℚ) : Machine (HybridMode σ) Turn (Op Event) :=
  ⟨step S dis⟩

def run (S : StrategyApi σ) (dis : ℕ → ℚ) (s : HybridMode σ) (turns : List Turn) :
    HybridMode σ × List (Op Event) := (machine S dis).run s turns

/-- The turns of the program that are turns of the hybrid feed. -/
def Turn.hybrid? : Turn → Option HybridTurn
  | .run => some .run
  | .feed i stale now => some (.feed i stale now)
  | _ => none

section Step
variable (S : StrategyApi σ) (dis : ℕ → ℚ) {s : HybridMode σ}

theorem step_thrown (hthrown : s.feed.isThrown = true) (turn : Turn) :
    step S dis s turn = (s,[]) := if_pos hthrown

theorem step_of_hybrid (halive : s.feed.isThrown = false) {turn : Turn} {t : HybridTurn}
    (hturn : turn.hybrid? = some t) : step S dis s turn = s.feedTurn dis t := by
  cases turn with
  | run =>
    obtain rfl := Option.some.inj hturn
    simp [step, halive]
  | feed i stale now =>
    obtain rfl := Option.some.inj hturn
    simp [step, halive]
  | processor clock => contradiction
  | ui shouldClose => contradiction

theorem step_processor (halive : s.feed.isThrown = false) (clock : Clock) :
    step S dis s (.processor clock) = s.processorStep S clock := by
  simp [step, halive]

theorem step_ui (halive : s.feed.isThrown = false) (shouldClose : Bool) :
    step S dis s (.ui shouldClose) = (s.uiStep dis shouldClose,[]) := by
  simp [step, halive]

/-- The main thread waits, goes on, or makes a step of `stop`. -/
theorem uiStep_cases (shouldClose : Bool) (s : HybridMode σ) :
    (s.uiStep dis shouldClose).queue = s.queue ∧
    (s.uiStep dis shouldClose).processorPc = s.processorPc ∧
    (s.uiStep dis shouldClose).components = s.components ∧
    ((s.uiStep dis shouldClose).feed = s.feed ∧
      (s.uiStep dis shouldClose).uiPc.stepsLeft ≤ s.uiPc.stepsLeft ∨
    s.uiPc = .stopping ∧ s.feed.stopPc ≠ .stopped ∧ (s.uiStep dis shouldClose).uiPc = s.uiPc ∧
      (s.uiStep dis shouldClose).running = s.running ∧
      (s.uiStep dis shouldClose).feed = ((HybridFeed.machine dis).step s.feed .stop).1) := by
  unfold uiStep
  cases hpc : s.uiPc with
  | stopping =>
    dsimp only
    split
    · exact ⟨rfl,rfl,rfl,.inl ⟨rfl,by simp [WindowPc.stepsLeft]⟩⟩
    · rename_i hstop
      exact ⟨rfl,rfl,rfl,.inr ⟨rfl,hstop,rfl,rfl,rfl⟩⟩
  | clearing => exact ⟨rfl,rfl,rfl,.inl ⟨rfl,by simp [WindowPc.stepsLeft]⟩⟩
  | summary => exact ⟨rfl,rfl,rfl,.inl ⟨rfl,by simp [hpc]⟩⟩
  | _ =>
    dsimp only
    split
    · exact ⟨rfl,rfl,rfl,.inl ⟨rfl,by simp [hpc, WindowPc.stepsLeft]⟩⟩
    · exact ⟨rfl,rfl,rfl,.inl ⟨rfl,by simp [hpc, WindowPc.stepsLeft]⟩⟩

/-- The hybrid feed is a part of the program. -/
theorem part : Machine.Part (HybridFeed.machine dis) (machine S dis) HybridMode.feed
    (fun turn t => turn.hybrid? = some t) where
  step s turn := by
    change (HybridMode.step S dis s turn).1.feed = s.feed ∨ ∃ t,
      (HybridMode.step S dis s turn).1.feed = ((HybridFeed.machine dis).step s.feed t).1
    cases hthrown : s.feed.isThrown with
    | true =>
      rw [step_thrown S dis hthrown]
      exact .inl rfl
    | false =>
      cases hturn : turn.hybrid? with
      | some t =>
        rw [step_of_hybrid S dis hthrown hturn]
        exact .inr ⟨t,rfl⟩
      | none =>
        cases turn with
        | run => contradiction
        | feed i stale now => contradiction
        | processor clock =>
          rw [step_processor S dis hthrown]
          exact .inl rfl
        | ui shouldClose =>
          rw [step_ui S dis hthrown]
          obtain ⟨-,-,-,⟨hsame,-⟩ | ⟨-,-,-,-,hstop⟩⟩ := uiStep_cases dis shouldClose s
          · exact .inl hsame
          · exact .inr ⟨.stop,hstop⟩
  acts s turn t hturn := by
    change (HybridMode.step S dis s turn).1.feed = ((HybridFeed.machine dis).step s.feed t).1
    cases hthrown : s.feed.isThrown with
    | true => rw [step_thrown S dis hthrown, HybridFeed.step_thrown dis hthrown]
    | false =>
      rw [step_of_hybrid S dis hthrown hturn]
      rfl

/-- Only the main thread moves itself and clears `running`. -/
theorem step_window (turn : Turn) :
    ((step S dis s turn).1.uiPc = s.uiPc ∧ (step S dis s turn).1.running = s.running) ∨
      (s.feed.isThrown = false ∧ ∃ shouldClose, turn = .ui shouldClose) := by
  cases hthrown : s.feed.isThrown with
  | true =>
    rw [step_thrown S dis hthrown]
    exact .inl ⟨rfl,rfl⟩
  | false =>
    cases turn with
    | ui shouldClose => exact .inr ⟨rfl,shouldClose,rfl⟩
    | processor clock =>
      rw [step_processor S dis hthrown]
      exact .inl ⟨rfl,rfl⟩
    | run =>
      rw [step_of_hybrid S dis hthrown rfl]
      exact .inl ⟨rfl,rfl⟩
    | feed i stale now =>
      rw [step_of_hybrid S dis hthrown rfl]
      exact .inl ⟨rfl,rfl⟩

/-- Only the processor thread moves itself. -/
theorem step_processorPc (turn : Turn) :
    (step S dis s turn).1.processorPc = s.processorPc ∨
      (s.feed.isThrown = false ∧ ∃ clock, turn = .processor clock) := by
  cases hthrown : s.feed.isThrown with
  | true =>
    rw [step_thrown S dis hthrown]
    exact .inl rfl
  | false =>
    cases turn with
    | processor clock => exact .inr ⟨rfl,clock,rfl⟩
    | ui shouldClose =>
      rw [step_ui S dis hthrown]
      exact .inl (uiStep_cases dis shouldClose s).2.1
    | run =>
      rw [step_of_hybrid S dis hthrown rfl]
      exact .inl rfl
    | feed i stale now =>
      rw [step_of_hybrid S dis hthrown rfl]
      exact .inl rfl

end Step

end HybridMode
end HftEngine.Main
