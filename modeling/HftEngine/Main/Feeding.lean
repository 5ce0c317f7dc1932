import HftEngine.Main.Backtest
import HftEngine.Replay.Malformed

/-! The ticks of a backtest. The feed thread and the main thread together replay the file and may
stop the replay, only the feed pushes ticks, and the queue hands on in order what it accepts. So the
handled ticks are among the events that the replay has read from the file, in their order. -/
set_option linter.unusedSectionVars false

namespace HftEngine.Main
open HftEngine.Core Strategy Fifo Replay Text

namespace Backtest
variable {σ α : Type} [ReadNumber α] [Add α] [Sub α] [Mul α] [Div α] [Neg α] [LT α]
  [DecidableLT α] [LE α] [DecidableLE α] [Min α] [Max α] [∀ n, OfNat α n]

/-- The processor thread takes the events in their order. -/
theorem processorStep_fifo (S : StrategyApi σ α) (clock : Clock) (s : Backtest σ α) :
    s.pending ++ accepted (s.processorStep S clock).2 =
      popped (s.processorStep S clock).2 ++ (s.processorStep S clock).1.pending := by
  cases hpc : s.processorPc with
  | testing =>
    have hbatch : (ProcessorPc.testing (α := α)).batch = [] := rfl
    simp [processorStep, hpc, pending, hbatch]
  | popping batch =>
    have hbatch : (ProcessorPc.popping batch).batch = batch := rfl
    cases hqueue : s.queue <;> simp [processorStep, hpc, popNext, hqueue, pending, hbatch]
  | returned => simp [processorStep, hpc]
  | handling pushes batch =>
    cases pushes with
    | cons event pushes =>
      simp [processorStep, hpc, pending, ProcessorPc.batch, pushed_queue]
    | nil => cases batch <;> simp [processorStep, hpc, pending, ProcessorPc.batch]

/-- No handler is about to push a tick. -/
theorem processorStep_handlers (S : StrategyApi σ α) (clock : Clock) {s : Backtest σ α}
    (h : ticksOf s.processorPc.pushes = []) :
    ticksOf (s.processorStep S clock).1.processorPc.pushes = [] := by
  cases hpc : s.processorPc with
  | testing => simp [processorStep, hpc]
  | popping batch => cases hqueue : s.queue <;> simp [processorStep, hpc, popNext, hqueue]
  | returned =>
    rw [processorStep_returned S clock (by rw [hpc]; rfl)]
    exact h
  | handling pushes batch =>
    rw [hpc] at h
    cases pushes with
    | cons event pushes =>
      have hsplit : ticksOf [event] ++ ticksOf pushes = [] := by
        rw [← ticksOf_append]
        exact h
      rw [processorStep, hpc]
      exact (List.append_eq_nil_iff.mp hsplit).2
    | nil =>
      cases batch with
      | nil =>
        rw [processorStep, hpc]
        rfl
      | cons event batch =>
        rw [processorStep, hpc]
        exact ticksOf_dispatch S clock s.components event

/-- The queue hands the events on in their order. -/
theorem step_fifo (S : StrategyApi σ α) {s : Backtest σ α} {tr : List (Op (Event α))}
    (h : accepted tr = popped tr ++ s.pending) (turn : Turn α) :
    accepted (tr ++ (step S s turn).2) =
      popped (tr ++ (step S s turn).2) ++ (step S s turn).1.pending := by
  rw [accepted_append, popped_append, h, List.append_assoc, List.append_assoc]
  refine congrArg (popped tr ++ ·) ?_
  cases hthrown : s.feedPc.isThrown with
  | true =>
    rw [step_thrown S hthrown]
    exact List.append_nil _
  | false =>
    cases turn with
    | feed stale =>
      rw [step_feed S hthrown]
      simp [feedStep, pending, pushed_queue]
    | processor clock =>
      rw [step_processor S hthrown]
      exact s.processorStep_fifo S clock
    | ui shouldClose =>
      rw [step_ui S hthrown]
      simp [pending]

/-- What a turn is for the replay. -/
def replaySteps (s : Backtest σ α) : Turn α → List (ReplayStep α)
  | .feed stale => if s.feedPc.isThrown then [] else [.run stale]
  | .processor _ => []
  | .ui _ =>
    match s.uiPc with
    | .stopping => if s.feedPc.isThrown then [] else [.stop]
    | _ => []

/-- A turn is a step of the replay, or none, and the ticks that it pushes are the replay's. -/
theorem step_replays (S : StrategyApi σ α) {s : Backtest σ α}
    (h : ticksOf s.processorPc.pushes = []) (turn : Turn α) :
    ((step S s turn).1.replay,(step S s turn).1.feedPc) =
        (stoppable.run (s.replay,s.feedPc) (s.replaySteps turn)).1 ∧
      ticksOf (attempted (step S s turn).2) =
        (stoppable.run (s.replay,s.feedPc) (s.replaySteps turn)).2 := by
  cases hthrown : s.feedPc.isThrown with
  | true =>
    have hnone : s.replaySteps turn = [] := by
      cases turn with
      | ui shouldClose => cases hpc : s.uiPc <;> simp [replaySteps, hthrown, hpc]
      | _ => simp [replaySteps, hthrown]
    rw [step_thrown S hthrown, hnone]
    exact ⟨rfl,rfl⟩
  | false =>
    cases turn with
    | feed stale =>
      rw [step_feed S hthrown]
      simp [replaySteps, hthrown, feedStep, stoppable]
    | processor clock =>
      rw [step_processor S hthrown, processorStep_replay, processorStep_feedPc,
        ticksOf_attempted_processorStep S clock h]
      exact ⟨rfl,rfl⟩
    | ui shouldClose =>
      rw [step_ui S hthrown]
      cases hpc : s.uiPc with
      | stopping => simp [replaySteps, uiStep, hpc, hthrown, stoppable]
      | asking =>
        simp only [replaySteps, uiStep, hpc]
        split <;> simp
      | joiningFeed =>
        simp only [replaySteps, uiStep, hpc]
        split <;> simp
      | joiningProcessor =>
        simp only [replaySteps, uiStep, hpc]
        split <;> simp
      | _ => simp [replaySteps, uiStep, hpc]

theorem step_handlers (S : StrategyApi σ α) {s : Backtest σ α}
    (h : ticksOf s.processorPc.pushes = []) (turn : Turn α) :
    ticksOf (step S s turn).1.processorPc.pushes = [] := by
  cases hthrown : s.feedPc.isThrown with
  | true =>
    rw [step_thrown S hthrown]
    exact h
  | false =>
    cases turn with
    | feed stale =>
      rw [step_feed S hthrown]
      exact h
    | processor clock =>
      rw [step_processor S hthrown]
      exact processorStep_handlers S clock h
    | ui shouldClose =>
      rw [step_ui S hthrown, uiStep_processorPc]
      exact h

section Run
variable (S : StrategyApi σ α) (strategy : σ) (maxPosition : α) (file : Option (List Line))
  (turns : List (Turn α))

theorem run_fifo :
    let final := run S (init strategy maxPosition file) turns
    accepted final.2 = popped final.2 ++ final.1.pending := by
  have hinit : accepted ([] : List (Op (Event α))) =
      popped [] ++ (init strategy maxPosition file).pending := rfl
  have hrun := (machine S).run_invariant (P := fun _ _ => True)
    (I := fun s tr => accepted tr = popped tr ++ s.pending)
    (fun s tr turn h _ => step_fifo S h turn) hinit
    ((machine S).along_of_forall (fun _ _ => trivial) _ turns)
  rw [List.nil_append] at hrun
  exact hrun

/-- The events that the replay pushes in a run, whether the queue takes them or not. -/
def replayed : List (MarketDataEvent α) :=
  (stoppable.run (.init file,.starting)
    ((machine S).collect replaySteps (init strategy maxPosition file) turns)).2

theorem run_replays :
    ticksOf (attempted (run S (init strategy maxPosition file) turns).2) =
      replayed S strategy maxPosition file turns :=
  ((machine S).run_refines (N := stoppable)
    (R := fun s t => (s.replay,s.feedPc) = t ∧ ticksOf s.processorPc.pushes = [])
    (f := replaySteps) (v := fun tr => ticksOf (attempted tr)) (w := fun mds => mds) rfl
    (fun xs ys => by rw [attempted_append, ticksOf_append]) (fun _ _ => rfl)
    (fun s t turn h => by
      obtain ⟨rfl,hhandlers⟩ := h
      obtain ⟨hreplay,hticks⟩ := step_replays S hhandlers turn
      exact ⟨⟨hreplay,step_handlers S hhandlers turn⟩,hticks⟩)
    (s := init strategy maxPosition file) ⟨rfl,rfl⟩ turns).2

/-- The handled ticks have been pushed by the replay, in this order. -/
theorem ticksOf_popped_sublist :
    (ticksOf (popped (run S (init strategy maxPosition file) turns).2)).Sublist
      (replayed S strategy maxPosition file turns) := by
  have haccepted := (accepted_sublist
    (run S (init strategy maxPosition file) turns).2).filterMap tickOf
  rw [run_fifo S strategy maxPosition file turns, List.filterMap_append] at haccepted
  rw [← run_replays]
  exact (List.sublist_append_left _ _).trans haccepted

/-- From a file without malformed lines the replay pushes rows, in their order. -/
theorem replayed_rows {lines : List Line} (h : ∀ line ∈ lines, Acceptable line α) :
    replayed S strategy maxPosition (some lines) turns <+: lines.filterMap rowEvent := by
  have hreading := (ReplayEngine.reading_iff_along lines _).mpr
    (ReplayEngine.along_of_acceptable
      ((machine S).collect replaySteps (init strategy maxPosition (some lines)) turns) h)
  rw [← hreading.accounted, ReplayEngine.accounted, List.append_assoc]
  exact List.prefix_append _ _

end Run
end Backtest
end HftEngine.Main
