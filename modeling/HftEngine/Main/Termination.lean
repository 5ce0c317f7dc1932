import HftEngine.Foundation.Fair
import HftEngine.Main.Backtest
import HftEngine.Replay.Malformed
import Mathlib.Data.Prod.Lex

/-! The backtest ends. Whichever way the three threads are interleaved, as long as each of them gets
its turn again and again, the feed thread runs out of rows, the main thread leaves the UI loop, the
processor thread finishes its batch, and both are joined; only a malformed row can prevent it. -/
namespace HftEngine.Main
open HftEngine.Core Strategy Fifo Replay
open HftEngine.Replay.ReplayEngine (stepsLeft stepsLeft_stoppable nextLine?)

namespace Backtest

/-- The threads of the program. -/
inductive Party
  | feed
  | processor
  | ui
  deriving DecidableEq

def Turn.party : Turn → Party
  | .feed _ => .feed
  | .processor _ => .processor
  | .ui _ => .ui

/-- Every thread gets its turn again and again. -/
def Fair (schedule : ℕ → Turn) : Prop :=
  ∀ party, Machine.Recurrent (fun turn => turn.party = party) schedule

variable {σ : Type} (S : StrategyApi σ)

def feedState (s : Backtest σ) : ReplayEngine × RunPc := (s.replay,s.feedPc)

/-- The feed thread of the program is a replay that the main thread may stop. -/
theorem feedState_step (s : Backtest σ) (turn : Turn) :
    (step S s turn).1.feedState = s.feedState ∨
      ∃ l, (step S s turn).1.feedState = (stoppable.step s.feedState l).1 := by
  cases hthrown : s.feedPc.isThrown with
  | true =>
    rw [step_thrown S hthrown]
    exact .inl rfl
  | false =>
    cases turn with
    | feed stale =>
      rw [step_feed S hthrown]
      exact .inr ⟨.run stale,rfl⟩
    | processor clock =>
      rw [step_processor S hthrown, feedState, processorStep_replay, processorStep_feedPc]
      exact .inl rfl
    | ui shouldClose =>
      rw [step_ui S hthrown]
      unfold uiStep
      cases hpc : s.uiPc with
      | stopping => exact .inr ⟨.stop,rfl⟩
      | asking =>
        left
        dsimp only
        split <;> rfl
      | joiningFeed =>
        left
        dsimp only
        split <;> rfl
      | joiningProcessor =>
        left
        dsimp only
        split <;> rfl
      | _ => exact .inl rfl

/-- A returned feed thread has raised its flag, and a thrown one has read a malformed line. -/
structure FeedSettled (file : Option (List Line)) (s : ReplayEngine × RunPc) : Prop where
  finished : s.2.isReturned = true → s.1.finished = true
  unread : ∀ line ∈ s.1.file.getD [], line ∈ file.getD []
  thrown : s.2.isThrown = true → ∃ line ∈ file.getD [], ¬Acceptable line

theorem FeedSettled.step {file : Option (List Line)} {s : ReplayEngine × RunPc}
    (h : FeedSettled file s) (l : ReplayStep) : FeedSettled file (stoppable.step s l).1 := by
  obtain ⟨e,pc⟩ := s
  cases l with
  | stop => exact ⟨h.finished,h.unread,h.thrown⟩
  | run stale =>
    simp only [stoppable]
    cases pc with
    | opening =>
      cases hfile : e.file with
      | none =>
        simp only [ReplayEngine.runStep, hfile]
        exact ⟨fun _ => rfl,fun _ hline => absurd hline List.not_mem_nil,
          fun hthrown => by contradiction⟩
      | some unread =>
        rw [ReplayEngine.runStep_opening stale hfile]
        exact ⟨fun hreturned => by contradiction,h.unread,fun hthrown => by contradiction⟩
    | looping =>
      cases hnext : nextLine? (e,.looping) with
      | none =>
        rw [ReplayEngine.runStep_looping_none stale hnext]
        exact ⟨fun hreturned => by contradiction,h.unread,fun hthrown => by contradiction⟩
      | some line =>
        obtain ⟨-,hrunning,rest,hfile⟩ := ReplayEngine.nextLine?_eq_some.mp hnext
        have hunread := h.unread
        dsimp only at hunread
        rw [hfile, Option.getD_some, List.forall_mem_cons] at hunread
        rw [ReplayEngine.runStep_of_nextLine?_some stale hrunning hfile]
        refine ⟨?_,hunread.2,?_⟩
        · rcases parseLine stale line with error | none | md <;>
            exact fun hreturned => by contradiction
        · intro hthrown
          refine ⟨line,hunread.1,?_⟩
          rintro (hempty | hrow)
          · simp [hempty, parseLine, RunPc.isThrown] at hthrown
          · obtain ⟨md,hmd⟩ := Option.isSome_iff_exists.mp hrow
            simp [parseLine_row stale hmd, RunPc.isThrown] at hthrown
    | finishing => exact ⟨fun _ => rfl,h.unread,fun hthrown => by contradiction⟩
    | returned => exact h
    | thrown => exact h
    | _ => exact ⟨fun hreturned => by contradiction,h.unread,fun hthrown => by contradiction⟩

end Backtest

namespace UiPc

/-- The steps of the main thread to its summary once the feed has finished. -/
def stepsLeft : UiPc → ℕ
  | .testing => 7
  | .asking => 6
  | .completing => 5
  | .clearing => 4
  | .stopping => 3
  | .joiningFeed => 2
  | .joiningProcessor => 1
  | .summary => 0

end UiPc

/-- The steps of the processor thread to its end once `running` is cleared: the events of its batch
count first, then the pushes of the handler it is in. -/
def ProcessorPc.rank : ProcessorPc → ℕ ×ₗ ℕ
  | .returned => toLex (0,0)
  | .testing => toLex (1,0)
  | .handling pushes batch => toLex (2 + batch.length,pushes.length)
  | .popping batch => toLex (8 + (EventLoop.batchSize - batch.length),0)

namespace Backtest
variable {σ : Type} (S : StrategyApi σ)

/-- What holds at every moment of a backtest. -/
structure Consistent (file : Option (List Line)) (s : Backtest σ) : Prop where
  feed : FeedSettled file s.feedState
  cleared : s.uiPc.stepsLeft ≤ 3 → s.running = false
  filling : ∀ batch, s.processorPc = .popping batch → batch.length < EventLoop.batchSize

theorem consistent_init (strategy : σ) (maxPosition : ℚ) (file : Option (List Line)) :
    Consistent file (init strategy maxPosition file) where
  feed := ⟨fun hreturned => by contradiction,fun _ hline => hline,fun hthrown => by contradiction⟩
  cleared h := by
    have hseven : (7 : ℕ) ≤ 3 := h
    omega
  filling batch h := by contradiction

theorem processorStep_feedState (clock : Clock) (s : Backtest σ) :
    (s.processorStep S clock).1.feedState = s.feedState := by
  rw [feedState, processorStep_replay, processorStep_feedPc]
  rfl

/-- A batch that is being filled has room. -/
theorem processorStep_filling (clock : Clock) (s : Backtest σ) (batch : List Event)
    (h : (s.processorStep S clock).1.processorPc = .popping batch)
    (hfilling : ∀ batch, s.processorPc = .popping batch → batch.length < EventLoop.batchSize) :
    batch.length < EventLoop.batchSize := by
  unfold processorStep popNext at h
  split at h
  · unfold ProcessorPc.afterTest at h
    split at h
    · obtain rfl : [] = batch := by simpa using h
      decide
    · contradiction
  · rename_i filled hpc
    have hroom := hfilling filled hpc
    split at h
    · unfold ProcessorPc.afterEmpty at h
      split at h <;> contradiction
    · unfold ProcessorPc.afterPop at h
      split at h
      · contradiction
      · rename_i event rest hqueue hfull
        obtain rfl : filled ++ [event] = batch := by simpa using h
        rw [List.length_append, List.length_singleton] at hfull ⊢
        omega
  · contradiction
  · contradiction
  · contradiction
  · rename_i hpc
    exact hfilling batch h

theorem uiStep_cleared (shouldClose : Bool) (s : Backtest σ)
    (h : s.uiPc.stepsLeft ≤ 3 → s.running = false)
    (hnext : (s.uiStep shouldClose).uiPc.stepsLeft ≤ 3) :
    (s.uiStep shouldClose).running = false := by
  unfold uiStep at hnext ⊢
  cases hpc : s.uiPc with
  | testing =>
    simp only [hpc] at hnext
    split at hnext <;> simp [UiPc.stepsLeft] at hnext
  | asking =>
    simp only [hpc] at hnext
    split at hnext <;> simp [UiPc.stepsLeft] at hnext
  | completing => rfl
  | clearing => rfl
  | joiningFeed =>
    have hrunning := h (by rw [hpc]; decide)
    dsimp only
    split <;> exact hrunning
  | joiningProcessor =>
    have hrunning := h (by rw [hpc]; decide)
    dsimp only
    split <;> exact hrunning
  | stopping => exact h (by rw [hpc]; decide)
  | summary => exact h (by rw [hpc]; decide)

theorem Consistent.step {file : Option (List Line)} {s : Backtest σ} (h : Consistent file s)
    (turn : Turn) : Consistent file (step S s turn).1 := by
  have hfeed : FeedSettled file (Backtest.step S s turn).1.feedState := by
    cases feedState_step S s turn with
    | inl hsame =>
      rw [hsame]
      exact h.feed
    | inr hstep =>
      obtain ⟨l,hl⟩ := hstep
      rw [hl]
      exact h.feed.step l
  cases hthrown : s.feedPc.isThrown with
  | true =>
    rw [step_thrown S hthrown]
    exact h
  | false =>
    refine ⟨hfeed,?_,?_⟩
    · cases turn with
      | feed stale =>
        rw [step_feed S hthrown]
        exact h.cleared
      | processor clock =>
        rw [step_processor S hthrown, processorStep_uiPc, processorStep_running]
        exact h.cleared
      | ui shouldClose =>
        rw [step_ui S hthrown]
        exact uiStep_cleared shouldClose s h.cleared
    · cases turn with
      | feed stale =>
        rw [step_feed S hthrown]
        exact h.filling
      | processor clock =>
        rw [step_processor S hthrown]
        exact fun batch hbatch => processorStep_filling S clock s batch hbatch h.filling
      | ui shouldClose =>
        rw [step_ui S hthrown]
        dsimp only
        rw [uiStep_processorPc]
        exact h.filling

/-- Nothing happens any more: an exception ended the program, or the summary is computed. -/
def Done (s : Backtest σ) : Prop :=
  s.feedPc.isThrown = true ∨
    s.uiPc.isSummary = true ∧ s.feedPc.isReturned = true ∧ s.processorPc.isReturned = true

theorem Done.step_eq {s : Backtest σ} (h : Done s) (turn : Turn) : step S s turn = (s,[]) := by
  cases h with
  | inl hthrown => exact step_thrown S hthrown turn
  | inr hend =>
    obtain ⟨hsummary,hfeed,hprocessor⟩ := hend
    have hfeedPc : s.feedPc = .returned := by
      cases hpc : s.feedPc <;> rw [hpc] at hfeed <;> first | rfl | contradiction
    have huiPc : s.uiPc = .summary := by
      cases hpc : s.uiPc <;> rw [hpc] at hsummary <;> first | rfl | contradiction
    have halive : s.feedPc.isThrown = false := by rw [hfeedPc]; rfl
    cases turn with
    | feed stale =>
      rw [step_feed S halive, feedStep, hfeedPc]
      obtain ⟨queue,running,replay,feedPc,processorPc,uiPc,complete,components⟩ := s
      dsimp only at hfeedPc
      rw [hfeedPc]
      rfl
    | processor clock => rw [step_processor S halive, processorStep_returned S clock hprocessor]
    | ui shouldClose =>
      rw [step_ui S halive, uiStep, huiPc]

/-- A returned feed thread stays so. -/
theorem step_returned {s : Backtest σ} (h : s.feedPc.isReturned = true) (turn : Turn) :
    (step S s turn).1.feedPc.isReturned = true := by
  have hpc : s.feedPc = .returned := by
    cases hpc : s.feedPc <;> rw [hpc] at h <;> first | rfl | contradiction
  have halive : s.feedPc.isThrown = false := by rw [hpc]; rfl
  cases turn with
  | feed stale =>
    rw [step_feed S halive, feedStep, hpc]
    rfl
  | processor clock =>
    have hsame := congrArg Prod.snd (processorStep_feedState S clock s)
    rw [step_processor S halive]
    exact (congrArg RunPc.isReturned hsame).trans h
  | ui shouldClose =>
    rw [step_ui S halive]
    dsimp only
    rw [uiStep_feedPc]
    exact h

theorem alive_of_returned {pc : RunPc} (h : pc.isReturned = true) : pc.isThrown = false := by
  cases pc <;> first | rfl | contradiction

/-- The main thread never goes back once the feed has finished, and it gets on until it has to wait
for the processor thread. -/
theorem uiStep_stepsLeft (shouldClose : Bool) {s : Backtest σ}
    (hfinished : s.replay.finished = true) (hreturned : s.feedPc.isReturned = true) :
    (s.uiStep shouldClose).uiPc.stepsLeft ≤ s.uiPc.stepsLeft ∧
      (1 < s.uiPc.stepsLeft → (s.uiStep shouldClose).uiPc.stepsLeft < s.uiPc.stepsLeft) := by
  unfold uiStep
  cases hpc : s.uiPc with
  | testing =>
    dsimp only
    split <;> simp [UiPc.stepsLeft]
  | asking => simp [ReplayEngine.isFinished, hfinished, UiPc.stepsLeft]
  | joiningFeed => simp [hreturned, UiPc.stepsLeft]
  | joiningProcessor =>
    dsimp only
    split <;> simp [hpc, UiPc.stepsLeft]
  | summary => simp [hpc, UiPc.stepsLeft]
  | _ => simp [UiPc.stepsLeft]

theorem rank_lt {a b c d : ℕ} (h : a < b) : (toLex (a,c) : ℕ ×ₗ ℕ) < toLex (b,d) :=
  Prod.Lex.toLex_lt_toLex.mpr (.inl h)

/-- Once `running` is cleared every step of the processor thread brings its end nearer. -/
theorem processorStep_rank (clock : Clock) {s : Backtest σ} (hrunning : s.running = false)
    (hfilling : ∀ batch, s.processorPc = .popping batch → batch.length < EventLoop.batchSize)
    (hworking : s.processorPc.isReturned = false) :
    (s.processorStep S clock).1.processorPc.rank < s.processorPc.rank := by
  unfold processorStep popNext
  cases hpc : s.processorPc with
  | testing =>
    rw [hrunning]
    exact rank_lt (by decide)
  | popping batch =>
    have hroom := hfilling batch hpc
    simp only [EventLoop.batchSize] at hroom
    dsimp only
    cases s.queue with
    | nil =>
      simp only [ProcessorPc.afterEmpty]
      split
      · exact rank_lt (by omega)
      · exact rank_lt (by simp only [EventLoop.batchSize]; omega)
    | cons event rest =>
      have hlength : (batch ++ [event]).length = batch.length + 1 := by simp
      simp only [ProcessorPc.afterPop]
      split
      · exact rank_lt (by simp only [EventLoop.batchSize, hlength]; omega)
      · exact rank_lt (by simp only [EventLoop.batchSize, hlength]; omega)
  | handling pushes batch =>
    cases pushes with
    | cons event pushes =>
      exact Prod.Lex.toLex_lt_toLex.mpr (.inr ⟨rfl,Nat.lt_succ_self _⟩)
    | nil =>
      cases batch with
      | nil => exact rank_lt (by decide)
      | cons event batch => exact rank_lt (by simp only [List.length_cons]; omega)
  | returned =>
    rw [hpc] at hworking
    contradiction

section Stages
variable {file : Option (List Line)} {s : Backtest σ} {schedule : ℕ → Turn}

/-- The feed thread has returned. -/
structure FeedReturned (file : Option (List Line)) (s : Backtest σ) : Prop where
  consistent : Consistent file s
  returned : s.feedPc.isReturned = true

/-- The main thread has joined the feed thread. -/
structure FeedJoined (file : Option (List Line)) (s : Backtest σ) : Prop
    extends FeedReturned file s where
  joining : s.uiPc.stepsLeft ≤ 1

/-- The processor thread has returned as well. -/
structure BothReturned (file : Option (List Line)) (s : Backtest σ) : Prop
    extends FeedJoined file s where
  processor : s.processorPc.isReturned = true

theorem FeedReturned.step (h : FeedReturned file s) (turn : Turn) :
    FeedReturned file (Backtest.step S s turn).1 :=
  ⟨h.consistent.step S turn,step_returned S h.returned turn⟩

/-- Turns of the other threads leave the main thread where it is. -/
theorem FeedReturned.stepsLeft_le (h : FeedReturned file s) (turn : Turn) :
    (Backtest.step S s turn).1.uiPc.stepsLeft ≤ s.uiPc.stepsLeft := by
  have halive := alive_of_returned h.returned
  cases turn with
  | feed stale =>
    rw [step_feed S halive]
    exact le_refl _
  | processor clock => rw [step_processor S halive, processorStep_uiPc]
  | ui shouldClose =>
    rw [step_ui S halive]
    exact (uiStep_stepsLeft shouldClose (h.consistent.feed.finished h.returned) h.returned).1

theorem FeedJoined.step (h : FeedJoined file s) (turn : Turn) :
    FeedJoined file (Backtest.step S s turn).1 :=
  ⟨h.toFeedReturned.step S turn,(h.toFeedReturned.stepsLeft_le S turn).trans h.joining⟩

/-- The rows run out. -/
theorem leadsTo_feedReturned (hfair : Fair schedule) :
    (machine S).LeadsTo s schedule (Consistent file)
      (fun s => Done s ∨ FeedReturned file s) := by
  refine (machine S).leadsTo_of_rank (r := fun s => stepsLeft s.feedState) (hfair .feed) ?_ ?_
  · intro s turn h
    right
    refine ⟨h.step S turn,?_⟩
    change stepsLeft (step S s turn).1.feedState ≤ stepsLeft s.feedState
    cases feedState_step S s turn with
    | inl hsame => rw [hsame]
    | inr hstep =>
      obtain ⟨l,hl⟩ := hstep
      rw [hl]
      exact (stepsLeft_stoppable s.feedState l).trans (Nat.sub_le ..)
  · intro s turn h hturn
    cases turn with
    | processor clock => contradiction
    | ui shouldClose => contradiction
    | feed stale =>
      cases hthrown : s.feedPc.isThrown with
      | true =>
        left
        left
        change Done (step S s (.feed stale)).1
        rw [step_thrown S hthrown]
        exact .inl hthrown
      | false =>
        have hstep : (step S s (.feed stale)).1.feedState =
            (stoppable.step s.feedState (.run stale)).1 := by
          rw [step_feed S hthrown]
          rfl
        have hlower := stepsLeft_stoppable s.feedState (.run stale)
        rw [← hstep, ReplayStep.weight] at hlower
        by_cases hleft : stepsLeft s.feedState = 0
        · left
          right
          refine FeedReturned.step S ⟨h,?_⟩ (.feed stale)
          revert hleft hthrown
          unfold feedState
          cases s.feedPc <;> simp [stepsLeft, RunPc.isReturned, RunPc.isThrown]
        · right
          change stepsLeft (step S s (.feed stale)).1.feedState < stepsLeft s.feedState
          omega

/-- The main thread leaves the UI loop and joins the feed thread. -/
theorem leadsTo_feedJoined (hfair : Fair schedule) :
    (machine S).LeadsTo s schedule (FeedReturned file)
      (fun s => Done s ∨ FeedJoined file s) := by
  refine (machine S).leadsTo_of_rank (r := fun s => s.uiPc.stepsLeft) (hfair .ui) ?_ ?_
  · intro s turn h
    exact .inr ⟨h.step S turn,h.stepsLeft_le S turn⟩
  · intro s turn h hturn
    cases turn with
    | feed stale => contradiction
    | processor clock => contradiction
    | ui shouldClose =>
      have halive := alive_of_returned h.returned
      by_cases hleft : s.uiPc.stepsLeft ≤ 1
      · exact .inl (.inr (FeedJoined.step S ⟨h,hleft⟩ (.ui shouldClose)))
      · right
        change (step S s (.ui shouldClose)).1.uiPc.stepsLeft < s.uiPc.stepsLeft
        rw [step_ui S halive]
        exact (uiStep_stepsLeft shouldClose (h.consistent.feed.finished h.returned) h.returned).2
          (by omega)

/-- Only the processor thread moves itself. -/
theorem step_processorPc (turn : Turn) :
    (step S s turn).1.processorPc = s.processorPc ∨ ∃ clock, turn = .processor clock := by
  cases hthrown : s.feedPc.isThrown with
  | true =>
    rw [step_thrown S hthrown]
    exact .inl rfl
  | false =>
    cases turn with
    | feed stale =>
      rw [step_feed S hthrown]
      exact .inl rfl
    | processor clock => exact .inr ⟨clock,rfl⟩
    | ui shouldClose =>
      rw [step_ui S hthrown]
      exact .inl (uiStep_processorPc shouldClose s)

theorem BothReturned.step (h : BothReturned file s) (turn : Turn) :
    BothReturned file (Backtest.step S s turn).1 := by
  refine ⟨h.toFeedJoined.step S turn,?_⟩
  cases step_processorPc S turn with
  | inl hsame =>
    rw [hsame]
    exact h.processor
  | inr hturn =>
    obtain ⟨clock,rfl⟩ := hturn
    rw [step_processor S (alive_of_returned h.returned), processorStep_returned S clock h.processor]
    exact h.processor

theorem FeedJoined.rank_lt (h : FeedJoined file s) (clock : Clock)
    (hworking : s.processorPc.isReturned = false) :
    (Backtest.step S s (.processor clock)).1.processorPc.rank < s.processorPc.rank := by
  have hrunning := h.consistent.cleared (h.joining.trans (by decide))
  rw [step_processor S (alive_of_returned h.returned)]
  exact processorStep_rank S clock hrunning h.consistent.filling hworking

/-- The processor thread finishes its batch and returns. -/
theorem leadsTo_bothReturned (hfair : Fair schedule) :
    (machine S).LeadsTo s schedule (FeedJoined file)
      (fun s => Done s ∨ BothReturned file s) := by
  refine (machine S).leadsTo_of_rank (r := fun s => s.processorPc.rank) (hfair .processor) ?_ ?_
  · intro s turn h
    cases hreturned : s.processorPc.isReturned with
    | true => exact .inl (.inr (BothReturned.step S ⟨h,hreturned⟩ turn))
    | false =>
      refine .inr ⟨h.step S turn,?_⟩
      change (step S s turn).1.processorPc.rank ≤ s.processorPc.rank
      cases step_processorPc S (s := s) turn with
      | inl hsame => rw [hsame]
      | inr hturn =>
        obtain ⟨clock,rfl⟩ := hturn
        exact (h.rank_lt S clock hreturned).le
  · intro s turn h hturn
    cases turn with
    | feed stale => contradiction
    | ui shouldClose => contradiction
    | processor clock =>
      cases hreturned : s.processorPc.isReturned with
      | true => exact .inl (.inr (BothReturned.step S ⟨h,hreturned⟩ _))
      | false => exact .inr (h.rank_lt S clock hreturned)

/-- The main thread computes the summary. -/
theorem leadsTo_done (hfair : Fair schedule) :
    (machine S).LeadsTo s schedule (BothReturned file) Done := by
  refine (machine S).leadsTo_of_rank (r := fun s => s.uiPc.stepsLeft) (hfair .ui) ?_ ?_
  · intro s turn h
    exact .inr ⟨h.step S turn,h.toFeedReturned.stepsLeft_le S turn⟩
  · intro s turn h hturn
    cases turn with
    | feed stale => contradiction
    | processor clock => contradiction
    | ui shouldClose =>
      left
      have hnext := h.step S (.ui shouldClose)
      refine .inr ⟨?_,hnext.returned,hnext.processor⟩
      have hjoining := h.joining
      change (step S s (.ui shouldClose)).1.uiPc.isSummary = true
      rw [step_ui S (alive_of_returned h.returned)]
      cases hpc : s.uiPc with
      | joiningProcessor => simp [uiStep, hpc, h.processor, UiPc.isSummary]
      | summary => simp [uiStep, hpc, UiPc.isSummary]
      | _ =>
        rw [hpc] at hjoining
        simp [UiPc.stepsLeft] at hjoining

end Stages

/-- In REPLAY mode the program ends under every fair schedule, whether or not the user closes the
window, the file can be opened or the queue refuses events: both threads are joined and the summary
is computed, unless a malformed row of the file ends the feed thread with an exception. -/
theorem terminates (strategy : σ) (maxPosition : ℚ) (file : Option (List Line))
    {schedule : ℕ → Turn} (hfair : Fair schedule) :
    ∃ n, (∀ m, n ≤ m → (machine S).after (init strategy maxPosition file) schedule m =
        (machine S).after (init strategy maxPosition file) schedule n) ∧
      let final := (machine S).after (init strategy maxPosition file) schedule n
      final.feedPc.isThrown = true ∧ (∃ line ∈ file.getD [], ¬Acceptable line) ∨
        final.uiPc.isSummary = true ∧ final.feedPc.isReturned = true ∧
          final.processorPc.isReturned = true := by
  have hstages : (machine S).LeadsTo (init strategy maxPosition file) schedule (Consistent file)
      (fun s => Done s ∨ BothReturned file s) :=
    ((leadsTo_feedReturned S hfair).trans_or _ (leadsTo_feedJoined S hfair)).trans_or _
      (leadsTo_bothReturned S hfair)
  obtain ⟨n,hdone⟩ : ∃ n, Done ((machine S).after (init strategy maxPosition file) schedule n) := by
    obtain ⟨n,-,hdone | hboth⟩ := hstages 0 (consistent_init strategy maxPosition file)
    · exact ⟨n,hdone⟩
    · obtain ⟨m,-,hdone⟩ := leadsTo_done S hfair n hboth
      exact ⟨m,hdone⟩
  have hconsistent : Consistent file
      ((machine S).after (init strategy maxPosition file) schedule n) :=
    (machine S).after_invariant (I := Consistent file) (fun _ turn hs => Consistent.step S hs turn)
      (consistent_init strategy maxPosition file) n
  refine ⟨n,fun m hm => (machine S).after_const ?_ hm,?_⟩
  · intro turn
    exact congrArg Prod.fst (hdone.step_eq S turn)
  · cases hdone with
    | inl hthrown => exact .inl ⟨hthrown,hconsistent.feed.thrown hthrown⟩
    | inr hsummary => exact .inr hsummary

/-- The threads one after another. -/
def roundRobin (n : ℕ) : Turn :=
  match n % 3 with
  | 0 => .feed ⟨[],0,0,0,false⟩
  | 1 => .processor (fun _ => 0)
  | _ => .ui false

theorem fair_roundRobin : Fair roundRobin := by
  intro party n
  cases party with
  | feed => exact ⟨3*n,by omega,by simp [roundRobin, Turn.party]⟩
  | processor =>
    have hturn : (3*n+1) % 3 = 1 := by omega
    exact ⟨3*n+1,by omega,by simp [roundRobin, hturn, Turn.party]⟩
  | ui =>
    have hturn : (3*n+2) % 3 = 2 := by omega
    exact ⟨3*n+2,by omega,by simp [roundRobin, hturn, Turn.party]⟩

/-- A file with one row, one turn for each thread at a time. -/
theorem terminates_roundRobin : ∃ n,
    (∀ m, n ≤ m → (machine StrategyApi.silent).after (init () 100 (some ["B,100,1,1,0".toList]))
        roundRobin m = (machine StrategyApi.silent).after
          (init () 100 (some ["B,100,1,1,0".toList])) roundRobin n) ∧
      let final := (machine StrategyApi.silent).after (init () 100 (some ["B,100,1,1,0".toList]))
        roundRobin n
      final.feedPc.isThrown = true ∧
          (∃ line ∈ (some ["B,100,1,1,0".toList]).getD [], ¬Acceptable line) ∨
        final.uiPc.isSummary = true ∧ final.feedPc.isReturned = true ∧
          final.processorPc.isReturned = true :=
  terminates StrategyApi.silent () 100 (some ["B,100,1,1,0".toList]) fair_roundRobin

end Backtest
end HftEngine.Main
