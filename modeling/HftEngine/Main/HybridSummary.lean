import HftEngine.Main.HybridMode
import HftEngine.Main.OnlyMomentum

/-! What the processor thread handles in HYBRID mode, and what the summary then says. The program
refines its hybrid feed: the ticks that it pushes are those of the feeds in the order of their
threads, and the queue hands them on in that order. -/
namespace HftEngine.Main
open HftEngine.Core Strategy Fifo Replay Feed

namespace HybridMode
variable {σ : Type}

/-- What a step of the program is for the hybrid feed. -/
def hybridTurns (s : HybridMode σ) : Turn → List HybridTurn
  | .run => [.run]
  | .feed i stale now => [.feed i stale now]
  | .processor _ => []
  | .ui _ => if s.uiPc = .stopping ∧ s.feed.stopPc ≠ .stopped then [.stop] else []

section
variable (S : StrategyApi σ) (dis : ℕ → ℚ) {s : HybridMode σ}

/-- The ticks that a thread of the hybrid feed offers to the queue. -/
theorem ticksOf_feedTurn (turn : HybridTurn) (s : HybridMode σ) :
    ticksOf (attempted (s.feedTurn dis turn).2) =
      ((HybridFeed.machine dis).step s.feed turn).2.map Prod.snd := by
  have hcomp : ((HybridFeed.machine dis).step s.feed turn).2.map (fun p => Event.marketData p.2) =
      (((HybridFeed.machine dis).step s.feed turn).2.map Prod.snd).map Event.marketData := by
    rw [List.map_map]
    rfl
  rw [feedTurn, Backtest.attempted_pushed, hcomp, Backtest.ticksOf_map_marketData]

/-- A step of the program is a step of the hybrid feed, or none, and offers its ticks. -/
theorem step_refines (h : ticksOf s.processorPc.pushes = []) (turn : Turn) :
    (step S dis s turn).1.feed = ((HybridFeed.machine dis).run s.feed (s.hybridTurns turn)).1 ∧
      ticksOf (attempted (step S dis s turn).2) =
        ((HybridFeed.machine dis).run s.feed (s.hybridTurns turn)).2.map Prod.snd := by
  cases hthrown : s.feed.isThrown with
  | true =>
    have hstay : ∀ t, (HybridFeed.machine dis).step s.feed t = (s.feed,[]) :=
      HybridFeed.step_thrown dis hthrown
    rw [step_thrown S dis hthrown]
    cases turn with
    | ui shouldClose =>
      rw [hybridTurns]
      split <;> simp [hstay]
    | _ => simp [hybridTurns, hstay]
  | false =>
    cases turn with
    | run =>
      rw [step_of_hybrid S dis hthrown rfl, ticksOf_feedTurn]
      simp [hybridTurns, feedTurn]
    | feed i stale now =>
      rw [step_of_hybrid S dis hthrown rfl, ticksOf_feedTurn]
      simp [hybridTurns, feedTurn]
    | processor clock =>
      rw [step_processor S dis hthrown]
      exact ⟨rfl,Backtest.ticksOf_attempted_processorStep S clock (s := s.view) h⟩
    | ui shouldClose =>
      rw [step_ui S dis hthrown, hybridTurns]
      unfold uiStep
      cases hpc : s.uiPc with
      | stopping =>
        by_cases hstopped : s.feed.stopPc = .stopped
        · simp [hstopped]
        · simp [hstopped, HybridFeed.step_stop dis hthrown]
      | testing =>
        dsimp only
        split <;> simp
      | joiningFeed =>
        dsimp only
        split <;> simp
      | joiningProcessor =>
        dsimp only
        split <;> simp
      | _ => simp

/-- The processor thread moves only if it makes its step. -/
theorem step_processorPc_of {I : ProcessorPc → Prop} (h : I s.processorPc)
    (hstep : ∀ clock, I (s.view.processorStep S clock).1.processorPc) (turn : Turn) :
    I (step S dis s turn).1.processorPc := by
  obtain hsame | ⟨halive,clock,rfl⟩ := step_processorPc S dis (s := s) turn
  · rw [hsame]
    exact h
  · rw [step_processor S dis halive]
    exact hstep clock

theorem step_handlers (h : ticksOf s.processorPc.pushes = []) (turn : Turn) :
    ticksOf (step S dis s turn).1.processorPc.pushes = [] :=
  step_processorPc_of S dis (I := fun pc => ticksOf pc.pushes = []) h
    (fun clock => Backtest.processorStep_handlers S clock (s := s.view) h) turn

/-- The queue hands the events on in their order. -/
theorem step_fifo {tr : List (Op Event)} (h : accepted tr = popped tr ++ s.view.pending)
    (turn : Turn) : accepted (tr ++ (step S dis s turn).2) =
      popped (tr ++ (step S dis s turn).2) ++ (step S dis s turn).1.view.pending := by
  rw [accepted_append, popped_append, h, List.append_assoc, List.append_assoc]
  refine congrArg (popped tr ++ ·) ?_
  have hfeed : ∀ t, s.view.pending ++ accepted (s.feedTurn dis t).2 =
      popped (s.feedTurn dis t).2 ++ (s.feedTurn dis t).1.view.pending := by
    intro t
    simp [feedTurn, view, Backtest.pending, Backtest.pushed_queue]
  cases hthrown : s.feed.isThrown with
  | true =>
    rw [step_thrown S dis hthrown]
    exact List.append_nil _
  | false =>
    cases turn with
    | run =>
      rw [step_of_hybrid S dis hthrown rfl]
      exact hfeed .run
    | feed i stale now =>
      rw [step_of_hybrid S dis hthrown rfl]
      exact hfeed (.feed i stale now)
    | processor clock =>
      rw [step_processor S dis hthrown]
      exact s.view.processorStep_fifo S clock
    | ui shouldClose =>
      obtain ⟨hqueue,hprocessor,-,-⟩ := uiStep_cases dis shouldClose s
      rw [step_ui S dis hthrown]
      simp [Backtest.pending, view, hqueue, hprocessor]

theorem step_unordered {strategy : σ} {maxPosition : ℚ} {done : List Event}
    (h : Unordered S Backtest.IsTick strategy maxPosition s.components s.view.inFlight done)
    (turn : Turn) :
    Unordered S Backtest.IsTick strategy maxPosition (step S dis s turn).1.components
      (step S dis s turn).1.view.inFlight (done ++ popped (step S dis s turn).2) := by
  have hfeed : ∀ t, Unordered S Backtest.IsTick strategy maxPosition
      (s.feedTurn dis t).1.components (s.feedTurn dis t).1.view.inFlight
      (done ++ popped (s.feedTurn dis t).2) := by
    intro t
    have hpushed := Backtest.pushed_unordered S (s := s.view)
      (((HybridFeed.machine dis).step s.feed t).2.map Prod.snd) h
    rw [List.map_map] at hpushed
    exact hpushed
  have hstay : Unordered S Backtest.IsTick strategy maxPosition s.components s.view.inFlight
      (done ++ popped []) := by
    rw [popped_nil, List.append_nil]
    exact h
  cases hthrown : s.feed.isThrown with
  | true =>
    rw [step_thrown S dis hthrown]
    exact hstay
  | false =>
    cases turn with
    | run =>
      rw [step_of_hybrid S dis hthrown rfl]
      exact hfeed .run
    | feed i stale now =>
      rw [step_of_hybrid S dis hthrown rfl]
      exact hfeed (.feed i stale now)
    | processor clock =>
      rw [step_processor S dis hthrown]
      exact Backtest.processorStep_unordered S clock (s := s.view) h
    | ui shouldClose =>
      obtain ⟨hqueue,hprocessor,hcomponents,-⟩ := uiStep_cases dis shouldClose s
      have hsame : (s.uiStep dis shouldClose).view.inFlight = s.view.inFlight := by
        simp [Backtest.inFlight, view, hqueue, hprocessor]
      rw [step_ui S dis hthrown, hcomponents, hsame]
      exact hstay

variable (strategy : σ) (maxPosition : ℚ) (file : Option (List Line)) (turns : List Turn)

/-- As in REPLAY mode, the processor thread is an event system into which only ticks come. -/
theorem unordered : Unordered S Backtest.IsTick strategy maxPosition
    (run S dis (init strategy maxPosition file) turns).1.components
    (run S dis (init strategy maxPosition file) turns).1.view.inFlight
    (popped (run S dis (init strategy maxPosition file) turns).2) := by
  have hinit : Unordered S Backtest.IsTick strategy maxPosition
      (init strategy maxPosition file).components (init strategy maxPosition file).view.inFlight
      (popped ([] : List (Op Event))) := .init
  have hrun := (machine S dis).run_invariant (P := fun _ _ => True)
    (I := fun s tr => Unordered S Backtest.IsTick strategy maxPosition s.components
      s.view.inFlight (popped tr))
    ?_ hinit ((machine S dis).along_of_forall (fun _ _ => trivial) _ turns)
  · rw [List.nil_append] at hrun
    exact hrun
  · intro s tr turn h _
    rw [popped_append]
    exact step_unordered S dis h turn

theorem run_fifo :
    let final := run S dis (init strategy maxPosition file) turns
    accepted final.2 = popped final.2 ++ final.1.view.pending := by
  have hinit : accepted ([] : List (Op Event)) =
      popped [] ++ (init strategy maxPosition file).view.pending := rfl
  have hrun := (machine S dis).run_invariant (P := fun _ _ => True)
    (I := fun s tr => accepted tr = popped tr ++ s.view.pending)
    (fun s tr turn h _ => step_fifo S dis h turn) hinit
    ((machine S dis).along_of_forall (fun _ _ => trivial) _ turns)
  rw [List.nil_append] at hrun
  exact hrun

/-- A run of the program is a run of its hybrid feed, whose pushes are the ticks it offers. -/
theorem run_refines : ∃ hybrid : List HybridTurn,
    (run S dis (init strategy maxPosition file) turns).1.feed =
      ((HybridFeed.machine dis).run (.hybridMode file) hybrid).1 ∧
    ticksOf (attempted (run S dis (init strategy maxPosition file) turns).2) =
      ((HybridFeed.machine dis).run (.hybridMode file) hybrid).2.map Prod.snd := by
  obtain ⟨⟨hfeed,-⟩,hticks⟩ := (machine S dis).run_refines (N := HybridFeed.machine dis)
    (R := fun s feed => s.feed = feed ∧ ticksOf s.processorPc.pushes = [])
    (f := hybridTurns) (v := fun tr => ticksOf (attempted tr)) (w := List.map Prod.snd) rfl
    (fun xs ys => by rw [attempted_append, ticksOf_append]) (fun _ _ => List.map_append)
    (fun s feed turn h => by
      obtain ⟨rfl,hhandlers⟩ := h
      obtain ⟨hfeed,hticks⟩ := step_refines S dis hhandlers turn
      exact ⟨⟨hfeed,step_handlers S dis hhandlers turn⟩,hticks⟩)
    (s := init strategy maxPosition file) ⟨rfl,rfl⟩ turns
  exact ⟨_,hfeed,hticks⟩

end

/-- The ticks that reach the strategies in HYBRID mode are a part of a shuffle of the walk and the
rows of the file, both in order. As long as the queue has refused nothing they are a beginning of
it. -/
theorem hybrid_ticks (S : StrategyApi σ) (dis : ℕ → ℚ) (strategy : σ) (maxPosition : ℚ)
    {lines : List Line} (hlines : ∀ line ∈ lines, Acceptable line) (turns : List Turn) :
    let final := run S dis (init strategy maxPosition (some lines)) turns
    let handled := ticksOf (popped final.2)
    ∃ pushed : List (ℕ × MarketDataEvent),
      HybridFeed.Streams dis (lines.filterMap rowEvent) pushed ∧
      ticksOf (attempted final.2) = pushed.map Prod.snd ∧
      handled.Sublist (pushed.map Prod.snd) ∧
      (refused final.2 = [] → handled ++ ticksOf final.1.view.pending = pushed.map Prod.snd) := by
  intro final handled
  obtain ⟨hybrid,-,hticks⟩ := run_refines S dis strategy maxPosition (some lines) turns
  have hfifo := run_fifo S dis strategy maxPosition (some lines) turns
  refine ⟨_,HybridFeed.run_streams dis hlines hybrid,hticks,?_,?_⟩
  · have hpopped : (popped final.2).Sublist (attempted final.2) := by
      refine List.Sublist.trans ?_ (accepted_sublist final.2)
      rw [hfifo]
      exact List.sublist_append_left _ _
    rw [← hticks]
    exact hpopped.filterMap tickOf
  · intro hrefused
    rw [← hticks, ← ticksOf_append, ← accepted_eq_attempted hrefused]
    exact congrArg ticksOf hfifo.symm

/-- One row and four rounds of the threads. -/
theorem hybrid_ticks_oneRow :
    let turns : List Turn := (List.replicate 4 [.run,.feed 0 blankEvent 5,.feed 1 blankEvent 6,
      .processor (fun _ => 0),.ui false]).flatten
    let final := run StrategyApi.silent (fun _ => 1/4)
      (init () 100 (some ["B,100,1,1,0".toList])) turns
    let handled := ticksOf (popped final.2)
    ∃ pushed : List (ℕ × MarketDataEvent),
      HybridFeed.Streams (fun _ => 1/4) (["B,100,1,1,0".toList].filterMap rowEvent) pushed ∧
      ticksOf (attempted final.2) = pushed.map Prod.snd ∧
      handled.Sublist (pushed.map Prod.snd) ∧
      (refused final.2 = [] → handled ++ ticksOf final.1.view.pending = pushed.map Prod.snd) :=
  hybrid_ticks _ _ _ _ (by decide +kernel) _

/-- The summary of HYBRID mode is as exact as that of a backtest: whatever the live feed draws, the
file, the interleaving of the threads and the events that the queue refused. -/
theorem hybrid_summary (dis : ℕ → ℚ) (maxPosition : ℚ) (file : Option (List Line))
    (turns : List Turn) :
    let final := run StrategyEngine.api dis (init StrategyEngine.main maxPosition file) turns
    let reports := reportsOf (popped final.2)
    let fills := filledReports (popped final.2)
    let metrics := final.1.components.metrics
    AllOfMomentum (popped final.2) ∧
    metrics.totalPnl = equityAfter reports ∧
    IsGreatest (Drawdown.falls (equityCurve reports)) metrics.maxDrawdown ∧
    metrics.tradeCount = closingFills reports ∧
    metrics.winRate =
      (if 0 < (AverageCost.Book.ofTrades (fills.map tradeOf)).realized then 50 else 0) ∧
    final.1.components.risk.currentPosition = netPosition fills ∧
    final.1.components.pnlEngine.getTotalPosition = netPosition fills := by
  intro final reports fills metrics
  have hunordered := unordered StrategyEngine.api dis StrategyEngine.main maxPosition file turns
  have hhandled := (hunordered.onlyMomentum (fun _ htick => htick)).handled
  obtain ⟨hpnl,hdrawdown,htrades,hrisk,hposition⟩ := hunordered.summary
  exact ⟨hhandled,hpnl,hdrawdown,htrades,hunordered.winRate,hrisk,hposition⟩

end HybridMode
end HftEngine.Main
