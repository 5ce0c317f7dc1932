import HftEngine.Main.HybridMode
import HftEngine.Main.Termination
import HftEngine.Replay.Stopping

/-! The program in HYBRID mode ends when the user closes the window. The main thread stops the
feeds, they return and are joined, a replay that has missed its stop at the end of its file, and
then the processor thread is joined as well. -/
namespace HftEngine.Main
open HftEngine.Core Strategy Fifo Replay Feed
open HftEngine.Feed.HybridFeed (Stopping Stopped Done)

namespace HybridMode
variable {σ : Type} (S : StrategyApi σ) (dis : ℕ → ℚ)

/-- What holds at every moment. -/
structure Consistent (s : HybridMode σ) : Prop where
  size : s.feed.feeds.length = 2
  stopping : Stopping s.feed
  stopped : s.uiPc.stepsLeft ≤ 2 → s.feed.stopPc = .stopped
  cleared : s.uiPc.stepsLeft ≤ 3 → s.running = false
  filling : ∀ batch, s.processorPc = .popping batch → batch.length < EventLoop.batchSize

theorem consistent_init (strategy : σ) (maxPosition : ℚ) (file : Option (List Line)) :
    Consistent (init strategy maxPosition file) where
  size := rfl
  stopping _ h := absurd h (Nat.not_lt_zero _)
  stopped h := by
    have hfive : (5 : ℕ) ≤ 2 := h
    omega
  cleared h := by
    have hfive : (5 : ℕ) ≤ 3 := h
    omega
  filling _ h := by contradiction

section Step
variable {s : HybridMode σ}

/-- The hybrid feed keeps what all its turns keep. -/
theorem step_feed_keeps {I : HybridFeed → Prop}
    (hkeep : ∀ h turn, I h → I ((HybridFeed.machine dis).step h turn).1) (h : I s.feed)
    (turn : Turn) : I (step S dis s turn).1.feed := by
  rcases (part S dis).step s turn with hsame | ⟨t,ht⟩
  · change (step S dis s turn).1.feed = s.feed at hsame
    rw [hsame]
    exact h
  · change (step S dis s turn).1.feed = _ at ht
    rw [ht]
    exact hkeep _ t h

/-- A step of the main thread clears `running` before it stops the feeds, and it joins them after
`stop` has returned. -/
theorem uiStep_flags (shouldClose : Bool) (h : Consistent s) :
    ((s.uiStep dis shouldClose).uiPc.stepsLeft ≤ 2 →
      (s.uiStep dis shouldClose).feed.stopPc = .stopped) ∧
    ((s.uiStep dis shouldClose).uiPc.stepsLeft ≤ 3 →
      (s.uiStep dis shouldClose).running = false) := by
  have hstopped := h.stopped
  have hcleared := h.cleared
  unfold uiStep
  cases hpc : s.uiPc with
  | testing =>
    dsimp only
    split <;> simp [WindowPc.stepsLeft, hpc]
  | clearing => simp [WindowPc.stepsLeft]
  | stopping =>
    rw [hpc] at hcleared
    dsimp only
    split
    · rename_i hstop
      exact ⟨fun _ => hstop,fun _ => hcleared (by decide)⟩
    · exact ⟨fun hle => absurd hle (by simp [WindowPc.stepsLeft]),fun _ => hcleared (by decide)⟩
  | joiningFeed =>
    rw [hpc] at hcleared hstopped
    dsimp only
    split <;> exact ⟨fun _ => hstopped (by decide),fun _ => hcleared (by decide)⟩
  | joiningProcessor =>
    rw [hpc] at hcleared hstopped
    dsimp only
    split <;> exact ⟨fun _ => hstopped (by decide),fun _ => hcleared (by decide)⟩
  | summary =>
    rw [hpc] at hcleared hstopped
    exact ⟨fun _ => hstopped (by decide),fun _ => hcleared (by decide)⟩

theorem Consistent.step (h : Consistent s) (turn : Turn) :
    Consistent (HybridMode.step S dis s turn).1 := by
  have hsize : (HybridMode.step S dis s turn).1.feed.feeds.length = 2 :=
    step_feed_keeps S dis (I := fun feed => feed.feeds.length = 2)
      (fun feed turn hfeed => (HybridFeed.length_step dis turn).trans hfeed) h.size turn
  have hstopping : Stopping (HybridMode.step S dis s turn).1.feed :=
    step_feed_keeps S dis (I := Stopping) (fun _ turn hfeed => hfeed.step dis turn) h.stopping turn
  refine ⟨hsize,hstopping,?_,?_,?_⟩
  · rcases step_window S dis (s := s) turn with ⟨hpc,-⟩ | ⟨halive,shouldClose,rfl⟩
    · rw [hpc]
      intro hle
      exact step_feed_keeps S dis (I := fun feed => feed.stopPc = .stopped)
        (fun _ turn hfeed => HybridFeed.step_stopped dis hfeed turn) (h.stopped hle) turn
    · rw [step_ui S dis halive]
      exact (uiStep_flags dis shouldClose h).1
  · rcases step_window S dis (s := s) turn with ⟨hpc,hrunning⟩ | ⟨halive,shouldClose,rfl⟩
    · rw [hpc, hrunning]
      exact h.cleared
    · rw [step_ui S dis halive]
      exact (uiStep_flags dis shouldClose h).2
  · rcases step_processorPc S dis (s := s) turn with hsame | ⟨halive,clock,rfl⟩
    · rw [hsame]
      exact h.filling
    · rw [step_processor S dis halive]
      exact fun batch hbatch => Backtest.processorStep_filling S clock s.view batch hbatch h.filling

/-- The main thread never goes back. -/
theorem step_stepsLeft (turn : Turn) :
    (HybridMode.step S dis s turn).1.uiPc.stepsLeft ≤ s.uiPc.stepsLeft := by
  rcases step_window S dis (s := s) turn with ⟨hpc,-⟩ | ⟨halive,shouldClose,rfl⟩
  · rw [hpc]
  · rw [step_ui S dis halive]
    obtain ⟨-,-,-,⟨-,hle⟩ | ⟨-,-,hsame,-⟩⟩ := uiStep_cases dis shouldClose s
    · exact hle
    · exact le_of_eq (congrArg WindowPc.stepsLeft hsame)

end Step

section Stages
variable {s : HybridMode σ} {schedule : ℕ → Turn} {s₀ : HybridMode σ}

/-- Nothing happens any more: an exception ended the program, or the summary is computed and all
threads have returned. -/
def Ended (s : HybridMode σ) : Prop :=
  s.feed.isThrown = true ∨
    s.uiPc = .summary ∧ s.feed.runPc = .returned ∧ s.feed.stopPc = .stopped ∧
      (∀ i, s.feed.At i (·.isReturned = true)) ∧ s.processorPc.isReturned = true

/-- The UI loop has been left. -/
structure Leaving (s : HybridMode σ) : Prop extends Consistent s where
  leaving : s.uiPc.stepsLeft ≤ 3

/-- The feed thread has returned. -/
structure FeedReturned (s : HybridMode σ) : Prop extends Leaving s where
  done : Done s.feed

/-- The main thread has joined the feed thread. -/
structure FeedJoined (s : HybridMode σ) : Prop extends FeedReturned s where
  joining : s.uiPc.stepsLeft ≤ 1

/-- The processor thread has returned as well. -/
structure BothReturned (s : HybridMode σ) : Prop extends FeedJoined s where
  processor : s.processorPc.isReturned = true

theorem Leaving.step (h : Leaving s) (turn : Turn) : Leaving (HybridMode.step S dis s turn).1 :=
  ⟨h.toConsistent.step S dis turn,(step_stepsLeft S dis turn).trans h.leaving⟩

theorem FeedReturned.step (h : FeedReturned s) (turn : Turn) :
    FeedReturned (HybridMode.step S dis s turn).1 := by
  refine ⟨h.toLeaving.step S dis turn,step_feed_keeps S dis (I := Done) ?_ h.done turn⟩
  intro feed turn hfeed
  rw [hfeed.step_eq dis turn]
  exact hfeed

theorem FeedJoined.step (h : FeedJoined s) (turn : Turn) :
    FeedJoined (HybridMode.step S dis s turn).1 :=
  ⟨h.toFeedReturned.step S dis turn,(step_stepsLeft S dis turn).trans h.joining⟩

theorem BothReturned.step (h : BothReturned s) (turn : Turn) :
    BothReturned (HybridMode.step S dis s turn).1 := by
  refine ⟨h.toFeedJoined.step S dis turn,?_⟩
  rcases step_processorPc S dis (s := s) turn with hsame | ⟨halive,clock,rfl⟩
  · rw [hsame]
    exact h.processor
  · rw [step_processor S dis halive]
    have hreturned : s.view.processorStep S clock = (s.view,[]) :=
      Backtest.processorStep_returned S clock h.processor
    unfold processorStep
    rw [hreturned]
    exact h.processor

/-- An exception in the feed is the end. -/
theorem ended_step_thrown (hthrown : s.feed.isThrown = true) (turn : Turn) :
    Ended (HybridMode.step S dis s turn).1 := by
  rw [step_thrown S dis hthrown]
  exact .inl hthrown

/-- The user closes the window. -/
theorem progresses_leaving : (machine S dis).Progresses (· = .ui true) Consistent
    (fun s => Ended s ∨ Leaving s) := by
  refine ⟨fun s => s.uiPc.stepsLeft,?_,?_⟩
  · intro s turn h
    exact .inr ⟨h.step S dis turn,step_stepsLeft S dis turn⟩
  · rintro s turn h rfl
    change (Ended (HybridMode.step S dis s (.ui true)).1 ∨
      Leaving (HybridMode.step S dis s (.ui true)).1) ∨
        (HybridMode.step S dis s (.ui true)).1.uiPc.stepsLeft < s.uiPc.stepsLeft
    cases hthrown : s.feed.isThrown with
    | true => exact .inl (.inl (ended_step_thrown S dis hthrown _))
    | false =>
      by_cases hleaving : s.uiPc.stepsLeft ≤ 3
      · exact .inl (.inr (Leaving.step S dis ⟨h,hleaving⟩ _))
      · right
        rw [step_ui S dis hthrown]
        unfold uiStep
        cases hpc : s.uiPc <;> simp [WindowPc.stepsLeft, hpc] at hleaving ⊢

/-- The main thread stops the feeds. -/
theorem progresses_stopped : (machine S dis).Progresses (fun turn => ∃ b, turn = .ui b) Leaving
    (fun s => Ended s ∨ Leaving s ∧ Stopped 2 s.feed) := by
  refine ⟨fun s => s.feed.stopLeft,?_,?_⟩
  · intro s turn h
    refine .inr ⟨h.step S dis turn,?_⟩
    exact step_feed_keeps S dis (I := fun feed => feed.stopLeft ≤ s.feed.stopLeft)
      (fun feed turn hfeed => (HybridFeed.stopLeft_step dis turn).1.trans hfeed) (le_refl _) turn
  · rintro s turn h ⟨shouldClose,rfl⟩
    change (Ended (HybridMode.step S dis s (.ui shouldClose)).1 ∨
      Leaving (HybridMode.step S dis s (.ui shouldClose)).1 ∧
        Stopped 2 (HybridMode.step S dis s (.ui shouldClose)).1.feed) ∨
      (HybridMode.step S dis s (.ui shouldClose)).1.feed.stopLeft < s.feed.stopLeft
    cases hthrown : s.feed.isThrown with
    | true => exact .inl (.inl (ended_step_thrown S dis hthrown _))
    | false =>
      by_cases hstopped : s.feed.stopPc = .stopped
      · left
        right
        exact ⟨h.step S dis _,step_feed_keeps S dis (I := Stopped 2)
          (fun feed turn hfeed => hfeed.step dis turn)
          (HybridFeed.stopped_of_stopping h.size h.stopping hstopped) _⟩
      · right
        have hpc : s.uiPc = .stopping := by
          have hleaving := h.leaving
          have hearly : ¬s.uiPc.stepsLeft ≤ 2 := fun hle => hstopped (h.stopped hle)
          cases hpc : s.uiPc <;> simp [WindowPc.stepsLeft, hpc] at hleaving hearly ⊢
        rw [step_ui S dis hthrown]
        simp only [uiStep, hpc, if_neg hstopped]
        exact (HybridFeed.stopLeft_step dis .stop).2 rfl hthrown hstopped

/-- The main thread joins the feed thread. -/
theorem progresses_joined : (machine S dis).Progresses (fun turn => ∃ b, turn = .ui b) FeedReturned
    (fun s => Ended s ∨ FeedJoined s) := by
  refine ⟨fun s => s.uiPc.stepsLeft,?_,?_⟩
  · intro s turn h
    exact .inr ⟨h.step S dis turn,step_stepsLeft S dis turn⟩
  · rintro s turn h ⟨shouldClose,rfl⟩
    change (Ended (HybridMode.step S dis s (.ui shouldClose)).1 ∨
      FeedJoined (HybridMode.step S dis s (.ui shouldClose)).1) ∨
      (HybridMode.step S dis s (.ui shouldClose)).1.uiPc.stepsLeft < s.uiPc.stepsLeft
    obtain hthrown | ⟨hreturned,hstopped,-⟩ := h.done
    · exact .inl (.inl (ended_step_thrown S dis hthrown _))
    · cases hthrown : s.feed.isThrown with
      | true => exact .inl (.inl (ended_step_thrown S dis hthrown _))
      | false =>
        by_cases hjoining : s.uiPc.stepsLeft ≤ 1
        · exact .inl (.inr (FeedJoined.step S dis ⟨h,hjoining⟩ _))
        · right
          have hleaving := h.leaving
          rw [step_ui S dis hthrown]
          unfold uiStep
          cases hpc : s.uiPc <;>
            simp [WindowPc.stepsLeft, hpc, hreturned, hstopped] at hleaving hjoining ⊢

theorem FeedJoined.rank_lt (h : FeedJoined s) (halive : s.feed.isThrown = false) (clock : Clock)
    (hworking : s.processorPc.isReturned = false) :
    (HybridMode.step S dis s (.processor clock)).1.processorPc.rank < s.processorPc.rank := by
  rw [step_processor S dis halive]
  exact Backtest.processorStep_rank S clock (s := s.view) (h.cleared h.leaving) h.filling hworking

/-- The processor thread finishes its batch and returns. -/
theorem leadsTo_bothReturned
    (hfair : Machine.Recurrent (fun turn => ∃ clock, turn = .processor clock) schedule) :
    (machine S dis).LeadsTo s₀ schedule FeedJoined (fun s => Ended s ∨ BothReturned s) := by
  refine (machine S dis).leadsTo_of_rank (r := fun s => s.processorPc.rank) hfair ?_ ?_
  · intro s turn h
    change (Ended (HybridMode.step S dis s turn).1 ∨
      BothReturned (HybridMode.step S dis s turn).1) ∨
      FeedJoined (HybridMode.step S dis s turn).1 ∧
        (HybridMode.step S dis s turn).1.processorPc.rank ≤ s.processorPc.rank
    cases hreturned : s.processorPc.isReturned with
    | true => exact .inl (.inr (BothReturned.step S dis ⟨h,hreturned⟩ turn))
    | false =>
      refine .inr ⟨h.step S dis turn,?_⟩
      rcases step_processorPc S dis (s := s) turn with hsame | ⟨halive,clock,rfl⟩
      · rw [hsame]
      · exact (h.rank_lt S dis halive clock hreturned).le
  · rintro s turn h ⟨clock,rfl⟩
    cases hthrown : s.feed.isThrown with
    | true => exact .inl (.inl (ended_step_thrown S dis hthrown _))
    | false =>
      cases hreturned : s.processorPc.isReturned with
      | true => exact .inl (.inr (BothReturned.step S dis ⟨h,hreturned⟩ _))
      | false => exact .inr (h.rank_lt S dis hthrown clock hreturned)

/-- The main thread computes the summary. -/
theorem progresses_ended : (machine S dis).Progresses (fun turn => ∃ b, turn = .ui b) BothReturned
    Ended := by
  refine ⟨fun s => s.uiPc.stepsLeft,?_,?_⟩
  · intro s turn h
    exact .inr ⟨h.step S dis turn,step_stepsLeft S dis turn⟩
  · rintro s turn h ⟨shouldClose,rfl⟩
    left
    cases hthrown : s.feed.isThrown with
    | true => exact ended_step_thrown S dis hthrown _
    | false =>
      have hnext := h.step S dis (.ui shouldClose)
      obtain hdead | ⟨hreturned,hstopped,hall⟩ := hnext.done
      · exact .inl hdead
      · refine .inr ⟨?_,hreturned,hstopped,hall,hnext.processor⟩
        have hjoining := h.joining
        change (HybridMode.step S dis s (.ui shouldClose)).1.uiPc = .summary
        rw [step_ui S dis hthrown]
        unfold uiStep
        cases hpc : s.uiPc <;> simp [WindowPc.stepsLeft, hpc, h.processor] at hjoining ⊢

/-- The feeds come to their ends, and the feed thread returns. -/
theorem leadsTo_feedReturned (hrun : Machine.Recurrent (· = .run) schedule)
    (hfeeds : ∀ i, i < 2 →
      Machine.Recurrent (fun turn => ∃ stale now, turn = .feed i stale now) schedule)
    (hui : Machine.Recurrent (fun turn => ∃ b, turn = .ui b) schedule) :
    (machine S dis).LeadsTo s₀ schedule Leaving (fun s => Ended s ∨ FeedReturned s) := by
  have hrun' : Machine.Recurrent
      (fun turn : Turn => ∃ t, t = .run ∧ turn.hybrid? = some t) schedule := by
    intro m
    obtain ⟨m',hm',hturn⟩ := hrun m
    exact ⟨m',hm',.run,rfl,by rw [hturn]; rfl⟩
  have hfeeds' : ∀ i, i < 2 → Machine.Recurrent
      (fun turn : Turn => ∃ t : HybridTurn, t.isFeed i ∧ turn.hybrid? = some t) schedule := by
    intro i hi m
    obtain ⟨m',hm',stale,now,hturn⟩ := hfeeds i hi m
    exact ⟨m',hm',.feed i stale now,by simp [HybridTurn.isFeed],by rw [hturn]; rfl⟩
  intro n hleaving
  obtain ⟨m,hm,hended | ⟨hleaving',hstopped⟩⟩ :=
    (progresses_stopped S dis).leadsTo _ hui n hleaving
  · exact ⟨m,hm,.inl hended⟩
  · obtain ⟨k,hk,hdone⟩ := HybridFeed.leadsTo_done dis (part S dis) hrun' hfeeds' m hstopped
    have hlater := (machine S dis).after_stable (T := Leaving)
      (fun _ turn hs => Leaving.step S dis hs turn) hleaving' hk
    exact ⟨k,hm.trans hk,.inr ⟨hlater,hdone⟩⟩

theorem Ended.step_eq (h : Ended s) (turn : Turn) : HybridMode.step S dis s turn = (s,[]) := by
  cases hthrown : s.feed.isThrown with
  | true => exact step_thrown S dis hthrown turn
  | false =>
    obtain hdead | ⟨hsummary,hrun,hstop,hall,hprocessor⟩ := h
    · rw [hthrown] at hdead
      contradiction
    · have hdone : Done s.feed := .inr ⟨hrun,hstop,hall⟩
      have hfeed : ∀ t, s.feedTurn dis t = (s,[]) := by
        intro t
        rw [feedTurn, hdone.step_eq dis t]
        rfl
      cases turn with
      | run => rw [step_of_hybrid S dis hthrown rfl, hfeed]
      | feed i stale now => rw [step_of_hybrid S dis hthrown rfl, hfeed]
      | processor clock =>
        have hreturned : s.view.processorStep S clock = (s.view,[]) :=
          Backtest.processorStep_returned S clock hprocessor
        rw [step_processor S dis hthrown, processorStep, hreturned]
        rfl
      | ui shouldClose => rw [step_ui S dis hthrown, uiStep, hsummary]

end Stages

section Malformed
variable {file : Option (List Line)} {s : HybridMode σ}

/-- The replay among the feeds reads the lines of the file. -/
def ReadsFile (file : Option (List Line)) : MarketFeed → Prop
  | .webSocket _ => True
  | .replay engine pc => Backtest.FeedSettled file (engine,pc)

theorem readsFile_step (feed : MarketFeed) (l : FeedStep) (h : ReadsFile file feed) :
    ReadsFile file ((MarketFeed.machine dis).step feed l).1 := by
  cases feed with
  | webSocket client => trivial
  | replay engine pc => exact Backtest.FeedSettled.step h l.toReplay

theorem readsFile_hybridMode (file : Option (List Line)) (i : ℕ) :
    (HybridFeed.hybridMode file).At i (ReadsFile file) := by
  intro feed hfeed
  match i, hfeed with
  | 0, hfeed =>
    obtain rfl := Option.some.inj hfeed
    trivial
  | 1, hfeed =>
    obtain rfl := Option.some.inj hfeed
    exact ⟨fun hreturned => by contradiction,fun _ hline => hline,fun hthrown => by contradiction⟩
  | _ + 2, hfeed => contradiction

/-- Only a malformed line throws. -/
theorem malformed_of_thrown (h : ∀ i, s.feed.At i (ReadsFile file))
    (hthrown : s.feed.isThrown = true) : ∃ line ∈ file.getD [], ¬Acceptable line := by
  obtain ⟨feed,hfeed,hdead⟩ := List.any_eq_true.mp hthrown
  obtain ⟨i,hi⟩ := List.getElem?_of_mem hfeed
  have hreads := h i feed hi
  cases feed with
  | webSocket client => contradiction
  | replay engine pc => exact Backtest.FeedSettled.thrown hreads hdead

end Malformed

/-- The UI loop goes on. -/
def Watching (s : HybridMode σ) : Prop := s.uiPc = .testing ∧ s.running = true

theorem Watching.step {s : HybridMode σ} (h : Watching s) {turn : Turn} (hturn : turn ≠ .ui true) :
    Watching (HybridMode.step S dis s turn).1 := by
  rcases step_window S dis (s := s) turn with ⟨hpc,hrunning⟩ | ⟨halive,shouldClose,rfl⟩
  · exact ⟨hpc.trans h.1,hrunning.trans h.2⟩
  · cases shouldClose with
    | true => exact absurd rfl hturn
    | false =>
      rw [step_ui S dis halive, uiStep, h.1]
      simpa [h.2] using h

/-- In HYBRID mode the program runs until the user closes the window, even if the replay is over.
Then it ends under every schedule in which each thread goes on: all threads are joined and the
summary is computed, unless a malformed line of the file ends the replay with an exception. -/
theorem hybrid_terminates (strategy : σ) (maxPosition : ℚ) (file : Option (List Line))
    {schedule : ℕ → Turn} (hrun : Machine.Recurrent (· = .run) schedule)
    (hfeeds : ∀ i, i < 2 →
      Machine.Recurrent (fun turn => ∃ stale now, turn = .feed i stale now) schedule)
    (hprocessor : Machine.Recurrent (fun turn => ∃ clock, turn = .processor clock) schedule)
    (hclose : Machine.Recurrent (· = .ui true) schedule) :
    let moment := (machine S dis).after (init strategy maxPosition file) schedule
    (∀ n, (∀ m, m < n → schedule m ≠ .ui true) → (moment n).uiPc = .testing) ∧
    ∃ n, (∀ m, n ≤ m → moment m = moment n) ∧
      ((moment n).feed.isThrown = true ∧ (∃ line ∈ file.getD [], ¬Acceptable line) ∨
        (moment n).uiPc = .summary ∧ (moment n).feed.runPc = .returned ∧
          (∀ feed ∈ (moment n).feed.feeds, feed.isReturned = true) ∧
          (moment n).processorPc.isReturned = true) := by
  intro moment
  have hui : Machine.Recurrent (fun turn : Turn => ∃ b, turn = .ui b) schedule := by
    intro m
    obtain ⟨m',hm',hturn⟩ := hclose m
    exact ⟨m',hm',true,hturn⟩
  constructor
  · intro n hwatched
    have hwatching : Watching (moment n) := by
      induction n with
      | zero => exact ⟨rfl,rfl⟩
      | succ n ih =>
        exact (ih (fun m hm => hwatched m (Nat.lt_succ_of_lt hm))).step S dis
          (hwatched n (Nat.lt_succ_self n))
    exact hwatching.1
  · obtain ⟨n,hended⟩ : ∃ n, Ended (moment n) := by
      have hstages : (machine S dis).LeadsTo (init strategy maxPosition file) schedule Consistent
          (fun s => Ended s ∨ BothReturned s) :=
        ((((progresses_leaving S dis).leadsTo _ hclose).trans_or _
          (leadsTo_feedReturned S dis hrun hfeeds hui)).trans_or _
          ((progresses_joined S dis).leadsTo _ hui)).trans_or _
          (leadsTo_bothReturned S dis hprocessor)
      obtain ⟨n,-,hended | hboth⟩ := hstages 0 (consistent_init strategy maxPosition file)
      · exact ⟨n,hended⟩
      · obtain ⟨m,-,hended⟩ := (progresses_ended S dis).leadsTo _ hui n hboth
        exact ⟨m,hended⟩
    have hreads : ∀ i, (moment n).feed.At i (ReadsFile file) :=
      (machine S dis).after_invariant (I := fun s => ∀ i, s.feed.At i (ReadsFile file))
        (fun s turn hs => step_feed_keeps S dis
          (I := fun feed => ∀ i, feed.At i (ReadsFile file))
          (fun feed turn hfeed i => (hfeed i).step dis (readsFile_step dis) turn) hs turn)
        (readsFile_hybridMode file) n
    refine ⟨n,fun m hm => ?_,?_⟩
    · exact (machine S dis).after_const
        (fun turn => congrArg Prod.fst (hended.step_eq S dis turn)) hm
    · obtain hthrown | ⟨hsummary,hreturned,-,hall,hprocessor'⟩ := hended
      · exact .inl ⟨hthrown,malformed_of_thrown hreads hthrown⟩
      · refine .inr ⟨hsummary,hreturned,fun feed hfeed => ?_,hprocessor'⟩
        obtain ⟨i,hi⟩ := List.getElem?_of_mem hfeed
        exact hall i feed hi

/-- The threads one after another; the user closes the window at once. -/
def roundRobin (n : ℕ) : Turn :=
  match n % 5 with
  | 0 => .run
  | 1 => .feed 0 blankEvent 0
  | 2 => .feed 1 blankEvent 0
  | 3 => .processor (fun _ => 0)
  | _ => .ui true

theorem hybrid_terminates_roundRobin :
    let moment := (machine StrategyApi.silent (fun _ => 1/4)).after
      (init () 100 (some ["B,100,1,1,0".toList])) roundRobin
    (∀ n, (∀ m, m < n → roundRobin m ≠ .ui true) → (moment n).uiPc = .testing) ∧
    ∃ n, (∀ m, n ≤ m → moment m = moment n) ∧
      ((moment n).feed.isThrown = true ∧
          (∃ line ∈ (some ["B,100,1,1,0".toList]).getD [], ¬Acceptable line) ∨
        (moment n).uiPc = .summary ∧ (moment n).feed.runPc = .returned ∧
          (∀ feed ∈ (moment n).feed.feeds, feed.isReturned = true) ∧
          (moment n).processorPc.isReturned = true) := by
  have hturn : ∀ n k, k < 5 → (5*n+k) % 5 = k := by
    intro n k hk
    omega
  refine hybrid_terminates StrategyApi.silent _ () 100 _ ?_ ?_ ?_ ?_
  · intro n
    exact ⟨5*n+0,by omega,by simp [roundRobin]⟩
  · intro i hi n
    obtain rfl | rfl : i = 0 ∨ i = 1 := by omega
    · exact ⟨5*n+1,by omega,blankEvent,0,by simp [roundRobin, hturn]⟩
    · exact ⟨5*n+2,by omega,blankEvent,0,by simp [roundRobin, hturn]⟩
  · intro n
    exact ⟨5*n+3,by omega,fun _ => 0,by simp [roundRobin, hturn]⟩
  · intro n
    exact ⟨5*n+4,by omega,by simp [roundRobin, hturn]⟩

end HybridMode
end HftEngine.Main
