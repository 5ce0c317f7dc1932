import HftEngine.Foundation.DoubleText
import HftEngine.Main.Feeding

/-! What a backtest has done when its summary is computed. Along every run the rows are pushed
in file order and the queue hands them on in that order; they are all handled exactly when no
push of a row is refused and the processor thread does not leave its loop too early. -/
set_option linter.unusedSectionVars false

namespace HftEngine.Main
open HftEngine.Core Strategy Fifo Replay Text

namespace Backtest
variable {σ α : Type} [ReadNumber α] [Add α] [Sub α] [Mul α] [Div α] [Neg α] [LT α] [DecidableLT α]
  [LE α] [DecidableLE α] [Min α] [Max α] [∀ n, OfNat α n]

/-- A row is pushed while the queue has a free slot, and the processor thread leaves its loop
with an empty queue. -/
def DropsNothing (s : Backtest σ α) : Turn α → Prop
  | .feed _ => s.feedPc.inFlight ≠ [] → s.queue.length < 1023
  | .processor _ => s.processorPc.isTesting = true → s.running = false → s.queue = []
  | .ui _ => True

instance (s : Backtest σ α) : (turn : Turn α) → Decidable (DropsNothing s turn)
  | .feed _ => inferInstanceAs (Decidable (s.feedPc.inFlight ≠ [] → s.queue.length < 1023))
  | .processor _ => inferInstanceAs
    (Decidable (s.processorPc.isTesting = true → s.running = false → s.queue = []))
  | .ui _ => isTrue trivial

/-- What holds at every moment of a backtest of a file with the given rows. -/
structure Sound (rows : List (MarketDataEvent α)) (s : Backtest σ α)
    (tr : List (Op (Event α))) : Prop where
  fifo : accepted tr = popped tr ++ s.pending
  reads : ReplayEngine.Reads rows (ticksOf (attempted tr)) (!s.uiPc.isWatching) s.replay s.feedPc
  handlers : ticksOf s.processorPc.pushes = []
  running : s.uiPc.isWatching = true → s.running = true
  watching : s.uiPc.isWatching = true → s.backtestComplete = false
  complete : s.backtestComplete = true →
    s.feedPc.isReturned = true ∧ ticksOf (attempted tr) = rows
  exited : s.processorPc.isReturned = true → s.running = false
  joined : s.uiPc.isSummary = true → s.processorPc.isReturned = true

namespace Sound
variable {S : StrategyApi σ α} {rows : List (MarketDataEvent α)} {s : Backtest σ α}
  {tr : List (Op (Event α))}

theorem init {strategy : σ} {maxPosition : α} {lines : List Line}
    (h : ∀ line ∈ lines, (rowEvent (α := α) line).isSome = true) :
    Sound (lines.filterMap rowEvent) (Backtest.init strategy maxPosition (some lines)) [] where
  fifo := rfl
  reads := .init h
  handlers := rfl
  running _ := rfl
  watching _ := rfl
  complete h := by contradiction
  exited h := by contradiction
  joined h := by contradiction

theorem feedStep (h : Sound rows s tr) (stale : MarketDataEvent α) :
    Sound rows (s.feedStep stale).1 (tr ++ (s.feedStep stale).2) := by
  have hticks : ticksOf (attempted (tr ++ (s.feedStep stale).2)) =
      ticksOf (attempted tr) ++ s.feedPc.inFlight := by
    simp [Backtest.feedStep]
  refine ⟨?_,?_,h.handlers,h.running,h.watching,?_,h.exited,h.joined⟩
  · simp only [Backtest.feedStep, accepted_append, popped_append, popped_pushed, pending,
      pushed_queue, h.fifo, List.append_nil, List.append_assoc]
  · rw [hticks]
    exact h.reads.runStep stale
  · intro hcomplete
    obtain ⟨hreturned,hrows⟩ := h.complete hcomplete
    cases hpc : s.feedPc with
    | returned =>
      rw [hticks, hpc]
      refine ⟨?_,?_⟩
      · simp [Backtest.feedStep, hpc, ReplayEngine.runStep, RunPc.isReturned]
      · simpa [RunPc.inFlight] using hrows
    | _ => simp [hpc, RunPc.isReturned] at hreturned

theorem processorStep (h : Sound rows s tr) (clock : Clock) :
    Sound rows (s.processorStep S clock).1 (tr ++ (s.processorStep S clock).2) := by
  have hticks : ticksOf (attempted (tr ++ (s.processorStep S clock).2)) =
      ticksOf (attempted tr) := by
    rw [attempted_append, ticksOf_append, ticksOf_attempted_processorStep S clock h.handlers,
      List.append_nil]
  refine ⟨?_,?_,processorStep_handlers S clock h.handlers,?_,?_,?_,?_,?_⟩
  · rw [accepted_append, popped_append, h.fifo, List.append_assoc, processorStep_fifo,
      List.append_assoc]
  · rw [hticks, processorStep_uiPc, processorStep_replay, processorStep_feedPc]
    exact h.reads
  · rw [processorStep_uiPc, processorStep_running]
    exact h.running
  · rw [processorStep_uiPc, processorStep_backtestComplete]
    exact h.watching
  · rw [processorStep_backtestComplete, processorStep_feedPc, hticks]
    exact h.complete
  · intro hreturned
    rw [processorStep_running]
    cases hbefore : s.processorPc.isReturned with
    | false => exact (processorStep_returns S clock hbefore hreturned).2
    | true => exact h.exited hbefore
  · intro hsummary
    rw [processorStep_uiPc] at hsummary
    have hreturned := h.joined hsummary
    rw [processorStep_returned S clock hreturned]
    exact hreturned

/-- A step within the UI loop. -/
theorem of_watching (h : Sound rows s tr) (hwatching : s.uiPc.isWatching = true) (pc : UiPc)
    (hpc : pc.isWatching = true) : Sound rows { s with uiPc := pc } tr where
  fifo := h.fifo
  reads := by
    have hreads := h.reads
    rw [hwatching] at hreads
    rw [hpc]
    exact hreads
  handlers := h.handlers
  running _ := h.running hwatching
  watching _ := h.watching hwatching
  complete := h.complete
  exited := h.exited
  joined hsummary := by cases pc <;> contradiction

/-- A step that leaves the UI loop or comes after it: `running` may be cleared. -/
theorem of_left (h : Sound rows s tr) (running : Bool) (replay : ReplayEngine) (pc : UiPc)
    (complete : Bool) (hpc : pc.isWatching = false)
    (hreads : ReplayEngine.Reads rows (ticksOf (attempted tr)) true replay s.feedPc)
    (hrunning : running = true → s.running = true)
    (hcomplete : complete = true →
      s.feedPc.isReturned = true ∧ ticksOf (attempted tr) = rows)
    (hjoined : pc.isSummary = true → s.processorPc.isReturned = true) :
    Sound rows { s with
      running := running
      replay := replay
      uiPc := pc
      backtestComplete := complete } tr where
  fifo := h.fifo
  reads := by
    rw [hpc]
    exact hreads
  handlers := h.handlers
  running hwatching := by
    rw [hpc] at hwatching
    contradiction
  watching hwatching := by
    rw [hpc] at hwatching
    contradiction
  complete := hcomplete
  exited hreturned := by
    have hcleared := h.exited hreturned
    cases running with
    | false => rfl
    | true =>
      rw [hrunning rfl] at hcleared
      contradiction
  joined := hjoined

theorem uiStep (h : Sound rows s tr) (shouldClose : Bool) :
    Sound rows (s.uiStep shouldClose) tr := by
  have hleft := h.reads.weaken
  have hnotyet : ∀ {pc : UiPc}, pc.isSummary = false → pc.isSummary = true →
      s.processorPc.isReturned = true := by
    intro pc hfalse htrue
    rw [hfalse] at htrue
    contradiction
  unfold Backtest.uiStep
  split
  · rename_i hpc
    split
    · exact h.of_watching (by rw [hpc]; rfl) .asking rfl
    · exact h.of_left s.running s.replay .clearing s.backtestComplete rfl hleft id h.complete
        (hnotyet rfl)
  · rename_i hpc
    split
    · rename_i hfinished
      have hreads := h.reads
      have hreturned := hreads.finished hfinished
      rw [hpc] at hreads
      have hpushed := (hreads.pushed_eq hreturned).1
      exact h.of_left s.running s.replay .completing true rfl hleft id
        (fun _ => ⟨hreturned,hpushed⟩) (hnotyet rfl)
    · exact h.of_watching (by rw [hpc]; rfl) .testing rfl
  · exact h.of_left false s.replay .clearing s.backtestComplete rfl hleft (by simp) h.complete
      (hnotyet rfl)
  · exact h.of_left false s.replay .stopping s.backtestComplete rfl hleft (by simp) h.complete
      (hnotyet rfl)
  · exact h.of_left s.running s.replay.stop .joiningFeed s.backtestComplete rfl h.reads.stop id
      h.complete (hnotyet rfl)
  · split
    · exact h.of_left s.running s.replay .joiningProcessor s.backtestComplete rfl hleft id
        h.complete (hnotyet rfl)
    · exact h
  · split
    · rename_i hreturned
      exact h.of_left s.running s.replay .summary s.backtestComplete rfl hleft id h.complete
        (fun _ => hreturned)
    · exact h
  · exact h

theorem step (h : Sound rows s tr) (turn : Turn α) :
    Sound rows (Backtest.step S s turn).1 (tr ++ (Backtest.step S s turn).2) := by
  cases turn with
  | feed stale =>
    rw [step_feed S h.reads.alive]
    exact h.feedStep stale
  | processor clock =>
    rw [step_processor S h.reads.alive]
    exact h.processorStep clock
  | ui shouldClose =>
    rw [step_ui S h.reads.alive, List.append_nil]
    exact h.uiStep shouldClose

end Sound

theorem sound_run (S : StrategyApi σ α) (strategy : σ) (maxPosition : α) {lines : List Line}
    (hrows : ∀ line ∈ lines, (rowEvent (α := α) line).isSome = true) (turns : List (Turn α)) :
    Sound (lines.filterMap rowEvent) (run S (init strategy maxPosition (some lines)) turns).1
      (run S (init strategy maxPosition (some lines)) turns).2 := by
  have hinv := (machine S).run_invariant (P := fun _ _ => True)
    (I := Sound (lines.filterMap rowEvent)) (fun s tr turn h _ => h.step turn)
    (s := init strategy maxPosition (some lines)) (Sound.init hrows)
    ((machine S).along_of_forall (fun _ _ => trivial) _ turns)
  rw [List.nil_append] at hinv
  exact hinv

/-- No row was refused, and nothing is queued any more when the processor thread has returned
from a complete backtest. -/
structure Kept (s : Backtest σ α) (tr : List (Op (Event α))) : Prop where
  rows : ticksOf (refused tr) = []
  queue : s.backtestComplete = true → s.processorPc.isReturned = true → s.queue = []

/-- A row was refused, or the processor thread returned and left events in the queue, or the
program was terminated. -/
def Spoiled (s : Backtest σ α) (tr : List (Op (Event α))) : Prop :=
  ticksOf (refused tr) ≠ [] ∨ (s.processorPc.isReturned = true ∧ s.queue ≠ []) ∨
    s.feedPc.isThrown = true

theorem ticksOf_refused_append (xs ys : List (Op (Event α))) :
    ticksOf (refused (xs ++ ys)) = ticksOf (refused xs) ++ ticksOf (refused ys) := by
  rw [refused_append, ticksOf_append]

/-- The feed loses its row exactly when the queue is full. -/
theorem ticksOf_refused_feedStep (stale : MarketDataEvent α) (s : Backtest σ α) :
    ticksOf (refused (s.feedStep stale).2) = [] ↔ DropsNothing s (.feed stale) := by
  simp only [feedStep, pushed, refused_pushAll_capacity, DropsNothing]
  cases hpc : s.feedPc with
  | pushing md =>
    by_cases hroom : s.queue.length < 1023
    · obtain ⟨k,hk⟩ : ∃ k, 1023 - s.queue.length = k + 1 :=
        ⟨1023 - s.queue.length - 1,by omega⟩
      simp [RunPc.inFlight, hroom, hk]
    · have hk : 1023 - s.queue.length = 0 := by omega
      simp [RunPc.inFlight, hroom, hk, ticksOf, tickOf]
  | _ => simp [RunPc.inFlight]

theorem Kept.step {S : StrategyApi σ α} {rows : List (MarketDataEvent α)} {s : Backtest σ α}
    {tr : List (Op (Event α))} (hsound : Sound rows s tr) (h : Kept s tr) (turn : Turn α)
    (hdrops : DropsNothing s turn) :
    Kept (Backtest.step S s turn).1 (tr ++ (Backtest.step S s turn).2) := by
  cases turn with
  | feed stale =>
    rw [step_feed S hsound.reads.alive]
    refine ⟨?_,?_⟩
    · rw [ticksOf_refused_append, h.rows, (ticksOf_refused_feedStep stale s).mpr hdrops]
      rfl
    · intro hcomplete hreturned
      -- the feed has returned and pushes nothing any more
      have hfeed := (hsound.complete hcomplete).1
      have hflight : s.feedPc.inFlight = [] := by
        cases hpc : s.feedPc with
        | pushing md => simp [hpc, RunPc.isReturned] at hfeed
        | _ => rfl
      change (s.feedStep stale).1.queue = []
      rw [feedStep, hflight]
      exact h.queue hcomplete hreturned
  | processor clock =>
    rw [step_processor S hsound.reads.alive]
    have hticks := filterMap_refused_eq_nil
      (ticksOf_attempted_processorStep S clock hsound.handlers)
    refine ⟨?_,?_⟩
    · rw [ticksOf_refused_append, h.rows, List.nil_append]
      exact hticks
    · intro hcomplete hreturned
      rw [processorStep_backtestComplete] at hcomplete
      by_cases hbefore : s.processorPc.isReturned = true
      · rw [processorStep_returned S clock hbefore]
        exact h.queue hcomplete hbefore
      · obtain ⟨htesting,hrunning⟩ :=
          processorStep_returns S clock (by simpa using hbefore) hreturned
        rw [processorStep_testing S clock htesting]
        exact hdrops htesting hrunning
  | ui shouldClose =>
    rw [step_ui S hsound.reads.alive, List.append_nil]
    refine ⟨h.rows,?_⟩
    intro hcomplete hreturned
    rw [uiStep_processorPc] at hreturned
    rw [uiStep_queue]
    cases hwatching : s.uiPc.isWatching with
    | true =>
      -- the flag is set while the processor thread still runs
      have hrunning := hsound.running hwatching
      rw [hsound.exited hreturned] at hrunning
      contradiction
    | false =>
      rw [uiStep_backtestComplete shouldClose hwatching] at hcomplete
      exact h.queue hcomplete hreturned

theorem Spoiled.of_thrown (S : StrategyApi σ α) {s : Backtest σ α} (h : s.feedPc.isThrown = true)
    (tr : List (Op (Event α))) (turn : Turn α) :
    Spoiled (Backtest.step S s turn).1 (tr ++ (Backtest.step S s turn).2) := by
  rw [step_thrown S h]
  exact .inr (.inr h)

/-- Nothing repairs a spoiled backtest. -/
theorem Spoiled.step {S : StrategyApi σ α} {s : Backtest σ α} {tr : List (Op (Event α))}
    (h : Spoiled s tr) (turn : Turn α) :
    Spoiled (Backtest.step S s turn).1 (tr ++ (Backtest.step S s turn).2) := by
  by_cases hthrown : s.feedPc.isThrown = true
  · exact Spoiled.of_thrown S hthrown tr turn
  have halive : s.feedPc.isThrown = false := by simpa using hthrown
  rcases h with hrefused | ⟨hreturned,hqueue⟩ | hthrown'
  · left
    rw [ticksOf_refused_append]
    intro hnil
    exact hrefused (List.append_eq_nil_iff.mp hnil).1
  · right
    left
    cases turn with
    | feed stale =>
      rw [step_feed S halive]
      refine ⟨hreturned,?_⟩
      change (s.pushed _).1 ≠ []
      rw [pushed_queue]
      simp [hqueue]
    | processor clock =>
      rw [step_processor S halive, processorStep_returned S clock hreturned]
      exact ⟨hreturned,hqueue⟩
    | ui shouldClose =>
      rw [step_ui S halive, uiStep_processorPc, uiStep_queue]
      exact ⟨hreturned,hqueue⟩
  · exact absurd hthrown' hthrown

theorem spoiled_of_not_dropsNothing (S : StrategyApi σ α) {s : Backtest σ α}
    (tr : List (Op (Event α))) {turn : Turn α} (h : ¬DropsNothing s turn) :
    Spoiled (Backtest.step S s turn).1 (tr ++ (Backtest.step S s turn).2) := by
  by_cases hthrown : s.feedPc.isThrown = true
  · exact Spoiled.of_thrown S hthrown tr turn
  have halive : s.feedPc.isThrown = false := by simpa using hthrown
  cases turn with
  | feed stale =>
    left
    rw [step_feed S halive, ticksOf_refused_append]
    intro hnil
    exact h ((ticksOf_refused_feedStep stale s).mp (List.append_eq_nil_iff.mp hnil).2)
  | processor clock =>
    right
    left
    simp only [DropsNothing, Classical.not_imp] at h
    obtain ⟨htesting,hrunning,hqueue⟩ := h
    rw [step_processor S halive, processorStep_testing S clock htesting]
    exact ⟨by simp [hrunning],hqueue⟩
  | ui shouldClose => exact absurd trivial h

theorem kept_run (S : StrategyApi σ α) (strategy : σ) (maxPosition : α) {lines : List Line}
    (hrows : ∀ line ∈ lines, (rowEvent (α := α) line).isSome = true) (turns : List (Turn α))
    (hdrops : (machine S).Along DropsNothing (init strategy maxPosition (some lines)) turns) :
    Kept (run S (init strategy maxPosition (some lines)) turns).1
      (run S (init strategy maxPosition (some lines)) turns).2 := by
  have hinv := (machine S).run_invariant (P := DropsNothing)
    (I := fun s tr => Sound (lines.filterMap rowEvent) s tr ∧ Kept s tr)
    (fun s tr turn h hturn => ⟨h.1.step turn,h.2.step h.1 turn hturn⟩)
    (s := init strategy maxPosition (some lines)) ⟨Sound.init hrows,⟨rfl,fun _ _ => rfl⟩⟩ hdrops
  rw [List.nil_append] at hinv
  exact hinv.2

theorem along_of_not_spoiled (S : StrategyApi σ α) (s : Backtest σ α) (turns : List (Turn α))
    (h : ¬Spoiled (run S s turns).1 (run S s turns).2) :
    (machine S).Along DropsNothing s turns :=
  (machine S).along_of_not_trapped (B := Spoiled)
    (fun _ tr _ => spoiled_of_not_dropsNothing S tr) (fun _ _ turn h => h.step turn) s [] turns h

/-- At the summary of a complete backtest both threads have returned: every row was pushed, and
what was accepted is handled or still in the queue. -/
theorem Sound.at_summary {rows : List (MarketDataEvent α)} {s : Backtest σ α}
    {tr : List (Op (Event α))} (h : Sound rows s tr) (hsummary : s.uiPc.isSummary = true)
    (hcomplete : s.backtestComplete = true) :
    s.processorPc.isReturned = true ∧ ticksOf (attempted tr) = rows ∧
      accepted tr = popped tr ++ s.queue := by
  have hreturned := h.joined hsummary
  have hbatch : s.processorPc.batch = [] := by
    cases hpc : s.processorPc with
    | returned => rfl
    | _ =>
      rw [hpc] at hreturned
      contradiction
  have hfifo := h.fifo
  rw [pending, hbatch] at hfifo
  exact ⟨hreturned,(h.complete hcomplete).2,hfifo⟩

/-- When the summary of a complete backtest of well-formed rows is computed, every row was
handled once and in file order and the queue is empty, if and only if every row found a free
slot and the processor thread did not leave its loop while events were queued. -/
theorem backtest_complete_iff (S : StrategyApi σ α) (strategy : σ) (maxPosition : α)
    (lines : List Line) (hrows : ∀ line ∈ lines, (rowEvent (α := α) line).isSome = true)
    (turns : List (Turn α))
    (hsummary : (run S (init strategy maxPosition (some lines)) turns).1.uiPc.isSummary = true)
    (hcomplete : (run S (init strategy maxPosition (some lines)) turns).1.backtestComplete = true) :
    (ticksOf (popped (run S (init strategy maxPosition (some lines)) turns).2) =
        lines.filterMap rowEvent ∧
      (run S (init strategy maxPosition (some lines)) turns).1.queue = []) ↔
      (machine S).Along DropsNothing (init strategy maxPosition (some lines)) turns := by
  have hsound := sound_run S strategy maxPosition hrows turns
  obtain ⟨hreturned,hpushed,hfifo⟩ := hsound.at_summary hsummary hcomplete
  constructor
  · rintro ⟨hhandled,hqueue⟩
    rw [hqueue, List.append_nil] at hfifo
    apply along_of_not_spoiled
    rintro (hrefused | ⟨-,hleft⟩ | hthrown)
    · apply hrefused
      apply (filterMap_accepted_eq_iff tickOf _).mp
      rw [hfifo]
      exact hhandled.trans hpushed.symm
    · exact hleft hqueue
    · rw [hsound.reads.alive] at hthrown
      contradiction
  · intro hdrops
    have hkept := kept_run S strategy maxPosition hrows turns hdrops
    have hqueue := hkept.queue hcomplete hreturned
    rw [hqueue, List.append_nil] at hfifo
    have hticks := (filterMap_accepted_eq_iff tickOf _).mpr hkept.rows
    rw [hfifo] at hticks
    exact ⟨hticks.trans hpushed,hqueue⟩

/-- The first two rows of data/market_data_record.csv. -/
def firstRow : Line := "BTCUSDT,50000.3,0.01,61414782521100,0".toList

def secondRow : Line := "BTCUSDT,50000.6,0.01,61414887761300,1".toList

/-- Steps of the feed thread; eight of them read, push and finish a file of one row. -/
def feeds (n : ℕ) : List (Turn Double) := List.replicate n (.feed ⟨[],0,0,0,false⟩)

def processes (n : ℕ) : List (Turn Double) := List.replicate n (.processor (fun _ => 0))

/-- Steps of the main thread; five of them find the feed finished, clear `running` and stop the
feed, two more join the threads. -/
def uis (n : ℕ) : List (Turn Double) := List.replicate n (.ui false)

/-- The processor thread empties the queue before the UI loop looks at the feed. -/
def processFirst : List (Turn Double) :=
  feeds 5 ++ processes 3 ++ feeds 5 ++ processes 9 ++ uis 5 ++ processes 2 ++ uis 2

theorem backtest_complete_iff_processFirst :
    let final := run (StrategyEngine.api Double)
      (init (StrategyEngine.main Double) 100 (some [firstRow,secondRow])) processFirst
    (ticksOf (popped final.2) = [firstRow,secondRow].filterMap rowEvent ∧ final.1.queue = []) ↔
      (machine (StrategyEngine.api Double)).Along DropsNothing
        (init (StrategyEngine.main Double) 100 (some [firstRow,secondRow])) processFirst :=
  backtest_complete_iff (StrategyEngine.api Double) (StrategyEngine.main Double) 100
    [firstRow,secondRow] (by decide +kernel) processFirst (by decide +kernel) (by decide +kernel)

/-- The UI loop looks at the feed before the processor thread has popped its row. -/
def shutDownFirst : List (Turn Double) := feeds 8 ++ uis 5 ++ processes 1 ++ uis 2

/-- The backtest counts as complete, but its only row is still queued. -/
theorem backtest_incomplete :
    let final := run (StrategyEngine.api Double)
      (init (StrategyEngine.main Double) 100 (some [firstRow])) shutDownFirst
    let tick := (⟨btcusdt,500003/10,1/100,61414782521100,false⟩ : MarketDataEvent Double)
    rowEvent firstRow = some tick ∧ final.1.uiPc.isSummary = true ∧
    final.1.backtestComplete = true ∧ popped final.2 = [] ∧ final.1.queue = [.marketData tick] := by
  decide +kernel

end Backtest
end HftEngine.Main
