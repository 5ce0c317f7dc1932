import HftEngine.Feed.HybridFeed
import HftEngine.Foundation.Fair

/-! The hybrid feed ends when it is stopped. A stop that comes before a replay thread has started is
lost on it, but then the file runs out; the live feed raises no flag of its own, so it sees every
stop. Without a stop, a live feed keeps `run` from returning. -/
namespace HftEngine.Feed
open HftEngine.Core Replay

namespace MarketFeed

/-- The feed will come to an end on its own. -/
def Halting : MarketFeed → Prop
  | .webSocket client => client.running = false
  | .replay _ _ => True

/-- The steps that the thread of a halting feed takes at the most. -/
def stepsLeft : MarketFeed → ℕ
  | .webSocket client =>
    match client.pc with
    | .starting => 2
    | .testing _ _ => 1
    | .pushing _ _ _ => 2
    | .returned => 0
  | .replay engine pc => ReplayEngine.stepsLeft (engine,pc)

section Step
variable (dis : ℕ → ℚ) {feed : MarketFeed}

theorem Halting.step (h : Halting feed) (l : FeedStep) :
    Halting ((machine dis).step feed l).1 := by
  cases feed with
  | replay engine pc => trivial
  | webSocket client =>
    obtain ⟨running,pc⟩ := client
    obtain rfl : running = false := h
    cases l <;> cases pc <;> rfl

theorem halting_stop (feed : MarketFeed) : Halting ((machine dis).step feed .stop).1 := by
  cases feed with
  | replay engine pc => trivial
  | webSocket client => rfl

theorem isReturned_step (h : feed.isReturned = true) (l : FeedStep) :
    ((machine dis).step feed l).1.isReturned = true := by
  cases feed with
  | webSocket client =>
    obtain ⟨running,pc⟩ := client
    cases l <;> cases pc <;> first | rfl | contradiction
  | replay engine pc => cases l <;> cases pc <;> first | rfl | contradiction

/-- Each step of its own thread brings a halting feed nearer to its end, and a stop leaves it where
it is. -/
theorem Halting.stepsLeft_step (h : Halting feed) (l : FeedStep) :
    ((machine dis).step feed l).1.stepsLeft ≤ feed.stepsLeft - l.toReplay.weight := by
  cases feed with
  | replay engine pc => exact ReplayEngine.stepsLeft_stoppable (engine,pc) l.toReplay
  | webSocket client =>
    obtain ⟨running,pc⟩ := client
    obtain rfl : running = false := h
    cases l <;> cases pc <;> exact le_refl _

theorem ended_of_stepsLeft (h : feed.stepsLeft = 0) :
    feed.isReturned = true ∨ feed.isThrown = true := by
  cases feed with
  | webSocket client =>
    obtain ⟨running,pc⟩ := client
    cases pc <;> simp [stepsLeft, isReturned, WebSocketClient.isReturned] at h ⊢
  | replay engine pc =>
    cases pc <;> simp [stepsLeft, ReplayEngine.stepsLeft, isReturned, isThrown, RunPc.isReturned,
      RunPc.isThrown] at h ⊢

end Step
end MarketFeed

namespace HybridFeed

/-- Feed `i`, if there is one, is as `P` says. -/
def At (h : HybridFeed) (i : ℕ) (P : MarketFeed → Prop) : Prop := ∀ feed ∈ h.feeds[i]?, P feed

section At
variable (dis : ℕ → ℚ) {h : HybridFeed} {i : ℕ} {P : MarketFeed → Prop}

/-- What the steps of a feed keep, the turns of all threads keep. -/
theorem At.step (hat : h.At i P)
    (hkeep : ∀ feed l, P feed → P ((MarketFeed.machine dis).step feed l).1) (turn : HybridTurn) :
    ((machine dis).step h turn).1.At i P := by
  intro feed' hfeed'
  cases hfeed : h.feeds[i]? with
  | none =>
    have hlength := (step_indices dis h turn).2
    have hbound := (List.getElem?_eq_some_iff.mp hfeed').1
    have hbeyond := List.getElem?_eq_none_iff.mp hfeed
    omega
  | some feed =>
    obtain ⟨hnext,-⟩ := step_feed_at dis hfeed turn
    obtain rfl := Option.some.inj (hnext.symm.trans hfeed')
    exact (MarketFeed.machine dis).run_state_invariant (P := fun _ _ => True) (I := P)
      (fun feed l hP _ => hkeep feed l hP) (hat feed hfeed)
      ((MarketFeed.machine dis).along_of_forall (fun _ _ => trivial) _ _)

theorem At.returned_step (hat : h.At i (·.isReturned = true)) (turn : HybridTurn) :
    ((machine dis).step h turn).1.At i (·.isReturned = true) :=
  hat.step dis (fun _ l hfeed => MarketFeed.isReturned_step dis hfeed l) turn

theorem At.halting_step (hat : h.At i MarketFeed.Halting) (turn : HybridTurn) :
    ((machine dis).step h turn).1.At i MarketFeed.Halting :=
  hat.step dis (fun _ l hfeed => hfeed.step dis l) turn

end At

/-- How many feeds have been stopped. -/
def stoppedCount (h : HybridFeed) : ℕ :=
  match h.stopPc with
  | .idle => 0
  | .stopping next => next
  | .stopped => h.feeds.length

/-- The feeds that `stop` has come past come to their ends. -/
def Stopping (h : HybridFeed) : Prop := ∀ i, i < h.stoppedCount → h.At i MarketFeed.Halting

/-- The steps that `stop` has still to take. -/
def stopLeft (h : HybridFeed) : ℕ :=
  match h.stopPc with
  | .idle => h.feeds.length + 2
  | .stopping next => h.feeds.length - next + 1
  | .stopped => 0

/-- The steps that `run` has still to take if it need not wait. -/
def runLeft (h : HybridFeed) : ℕ :=
  match h.runPc with
  | .starting => 2 * h.feeds.length + 4
  | .spawning next => h.feeds.length - next + h.feeds.length + 3
  | .joining next => h.feeds.length - next + 1
  | .returned => 0

/-- `run` has started a thread for each feed. -/
def allSpawned (h : HybridFeed) : Bool :=
  match h.runPc with
  | .joining _ => true
  | .returned => true
  | _ => false

section Turns
variable (dis : ℕ → ℚ) {h : HybridFeed}

/-- Only the thread that calls `stop` moves in it. -/
theorem step_stopPc (turn : HybridTurn) : ((machine dis).step h turn).1.stopPc = h.stopPc ∨
    turn = .stop ∧ h.isThrown = false := by
  cases hthrown : h.isThrown with
  | true =>
    rw [step_thrown dis hthrown]
    exact .inl rfl
  | false =>
    cases turn with
    | run =>
      rw [step_run dis hthrown]
      exact .inl (runStep_stopPc h)
    | feed i stale now =>
      rw [step_feed dis hthrown]
      exact .inl (feedStep_pcs dis i stale now h).2
    | stop => exact .inr ⟨rfl,rfl⟩

theorem step_stopped (hstopped : h.stopPc = .stopped) (turn : HybridTurn) :
    ((machine dis).step h turn).1.stopPc = .stopped := by
  rcases step_stopPc dis (h := h) turn with hsame | ⟨rfl,halive⟩
  · exact hsame.trans hstopped
  · rw [step_stop dis halive, stopStep, hstopped]
    exact hstopped

/-- Only the thread in `run` moves in it. -/
theorem step_runPc (turn : HybridTurn) : ((machine dis).step h turn).1.runPc = h.runPc ∨
    turn = .run ∧ h.isThrown = false := by
  cases hthrown : h.isThrown with
  | true =>
    rw [step_thrown dis hthrown]
    exact .inl rfl
  | false =>
    cases turn with
    | run => exact .inr ⟨rfl,rfl⟩
    | feed i stale now =>
      rw [step_feed dis hthrown]
      exact .inl (feedStep_pcs dis i stale now h).1
    | stop =>
      rw [step_stop dis hthrown]
      exact .inl (stopStep_runPc dis h)

theorem length_step (turn : HybridTurn) :
    ((machine dis).step h turn).1.feeds.length = h.feeds.length := (step_indices dis h turn).2

/-- One step of `stop`: it begins, it stops a feed, or it returns. -/
theorem stopStep_cases (h : HybridFeed) :
    (h.stopPc = .idle ∧ (h.stopStep dis).stopPc = .stopping 0) ∨
    (∃ next feed, h.stopPc = .stopping next ∧ h.feeds[next]? = some feed ∧
      (h.stopStep dis).stopPc = .stopping (next+1) ∧
      (h.stopStep dis).feeds[next]? = some ((MarketFeed.machine dis).step feed .stop).1) ∨
    (∃ next, h.stopPc = .stopping next ∧ h.feeds.length ≤ next ∧
      (h.stopStep dis).stopPc = .stopped) ∨
    (h.stopPc = .stopped ∧ h.stopStep dis = h) := by
  unfold stopStep
  cases hpc : h.stopPc with
  | idle => exact .inl ⟨rfl,rfl⟩
  | stopped => exact .inr (.inr (.inr ⟨rfl,rfl⟩))
  | stopping next =>
    cases hfeed : h.feeds[next]? with
    | none =>
      exact .inr (.inr (.inl ⟨next,rfl,List.getElem?_eq_none_iff.mp hfeed,by simp only [hfeed]⟩))
    | some feed =>
      right
      left
      refine ⟨next,feed,rfl,hfeed,by simp only [hfeed],?_⟩
      simp only [hfeed]
      exact List.getElem?_set_self (List.getElem?_eq_some_iff.mp hfeed).1

theorem stopStep_length (h : HybridFeed) : (h.stopStep dis).feeds.length = h.feeds.length := by
  unfold stopStep
  repeat' split
  all_goals simp

theorem Stopping.step (hs : Stopping h) (turn : HybridTurn) :
    Stopping ((machine dis).step h turn).1 := by
  intro i hi
  by_cases hbefore : i < h.stoppedCount
  · exact (hs i hbefore).halting_step dis turn
  · rcases step_stopPc dis (h := h) turn with hsame | ⟨rfl,halive⟩
    · rw [stoppedCount, hsame, length_step] at hi
      exact absurd hi hbefore
    · rw [step_stop dis halive] at hi ⊢
      simp only [stoppedCount] at hi hbefore
      rcases stopStep_cases dis h with ⟨-,hnext⟩ | ⟨next,feed,hpc,hfeed,hnext,hstopped⟩ |
          ⟨next,hpc,hbound,hnext⟩ | ⟨hpc,hsame⟩
      · rw [hnext] at hi
        exact absurd hi (Nat.not_lt_zero i)
      · rw [hnext] at hi
        rw [hpc] at hbefore
        obtain rfl : i = next := by
          simp only at hi hbefore
          omega
        intro feed' hfeed'
        obtain rfl := Option.some.inj (hstopped.symm.trans hfeed')
        exact MarketFeed.halting_stop dis feed
      · rw [hnext, stopStep_length] at hi
        rw [hpc] at hbefore
        simp only at hi hbefore
        omega
      · rw [hsame] at hi
        exact absurd hi hbefore

theorem stopLeft_step (turn : HybridTurn) :
    ((machine dis).step h turn).1.stopLeft ≤ h.stopLeft ∧
      (turn = .stop → h.isThrown = false → h.stopPc ≠ .stopped →
        ((machine dis).step h turn).1.stopLeft < h.stopLeft) := by
  rcases step_stopPc dis (h := h) turn with hsame | ⟨rfl,halive⟩
  · have hstay : ((machine dis).step h turn).1.stopLeft = h.stopLeft := by
      rw [stopLeft, hsame, length_step, stopLeft]
    refine ⟨hstay.le,?_⟩
    rintro rfl halive hworking
    rw [step_stop dis halive] at hsame
    rcases stopStep_cases dis h with ⟨hpc,hnext⟩ | ⟨next,feed,hpc,-,hnext,-⟩ | ⟨next,hpc,-,hnext⟩ |
        ⟨hpc,-⟩
    · simp [hnext, hpc] at hsame
    · simp [hnext, hpc] at hsame
    · simp [hnext, hpc] at hsame
    · exact absurd hpc hworking
  · rw [step_stop dis halive]
    simp only [stopLeft, stopStep_length]
    rcases stopStep_cases dis h with ⟨hpc,hnext⟩ | ⟨next,feed,hpc,hfeed,hnext,-⟩ |
        ⟨next,hpc,-,hnext⟩ | ⟨hpc,hsame⟩
    · rw [hpc, hnext]
      exact ⟨by simp only; omega,fun _ _ _ => by simp only; omega⟩
    · have hbound := (List.getElem?_eq_some_iff.mp hfeed).1
      rw [hpc, hnext]
      exact ⟨by simp only; omega,fun _ _ _ => by simp only; omega⟩
    · rw [hpc, hnext]
      exact ⟨Nat.zero_le _,fun _ _ _ => Nat.succ_pos _⟩
    · rw [hsame]
      exact ⟨le_refl _,fun _ _ hworking => absurd hpc hworking⟩

end Turns
/-- One step of `run` brings its end nearer unless it waits for a feed. -/
theorem runStep_cases (h : HybridFeed) :
    h.runStep.runLeft < h.runLeft ∨ h.runStep = h ∧ (h.runPc = .returned ∨
      ∃ next feed, h.runPc = .joining next ∧ h.feeds[next]? = some feed ∧
        feed.isReturned = false) := by
  unfold runStep
  cases hpc : h.runPc with
  | starting =>
    left
    simp only [runLeft, hpc]
    omega
  | spawning next =>
    left
    dsimp only
    split
    · simp only [runLeft, hpc]
      omega
    · simp only [runLeft, hpc]
      omega
  | returned => exact .inr ⟨rfl,.inl rfl⟩
  | joining next =>
    cases hfeed : h.feeds[next]? with
    | none =>
      left
      simp only [hfeed, runLeft, hpc]
      omega
    | some feed =>
      have hbound := (List.getElem?_eq_some_iff.mp hfeed).1
      cases hreturned : feed.isReturned with
      | true =>
        left
        simp only [hfeed, hreturned, if_true, runLeft, hpc]
        omega
      | false =>
        right
        simp only [hfeed, hreturned, Bool.false_eq_true, if_false]
        exact ⟨trivial,.inr ⟨next,feed,rfl,hfeed,hreturned⟩⟩

theorem runStep_allSpawned (h : HybridFeed) (hspawned : h.allSpawned = true) :
    h.runStep.allSpawned = true := by
  unfold runStep
  cases hpc : h.runPc with
  | starting => simp [allSpawned, hpc] at hspawned
  | spawning next => simp [allSpawned, hpc] at hspawned
  | returned => exact hspawned
  | joining next =>
    dsimp only
    repeat' split
    all_goals first | rfl | exact hspawned

theorem runLeft_step (dis : ℕ → ℚ) {h : HybridFeed} (turn : HybridTurn) :
    ((machine dis).step h turn).1.runLeft ≤ h.runLeft := by
  rcases step_runPc dis (h := h) turn with hsame | ⟨rfl,halive⟩
  · rw [runLeft, hsame, length_step, runLeft]
  · rw [step_run dis halive]
    rcases runStep_cases h with hlower | ⟨hsame,-⟩
    · exact hlower.le
    · rw [hsame]

theorem allSpawned_step (dis : ℕ → ℚ) {h : HybridFeed} (hspawned : h.allSpawned = true)
    (turn : HybridTurn) : ((machine dis).step h turn).1.allSpawned = true := by
  rcases step_runPc dis (h := h) turn with hsame | ⟨rfl,halive⟩
  · rw [allSpawned, hsame]
    exact hspawned
  · rw [step_run dis halive]
    exact runStep_allSpawned h hspawned

section Stages
variable (dis : ℕ → ℚ) {n k : ℕ} {h : HybridFeed} {s : HybridFeed} {schedule : ℕ → HybridTurn}

/-- `stop` has returned, and every feed is halting. -/
structure Stopped (n : ℕ) (h : HybridFeed) : Prop where
  size : h.feeds.length = n
  stopped : h.stopPc = .stopped
  halting : ∀ i, h.At i MarketFeed.Halting

theorem stopped_of_stopping (hsize : h.feeds.length = n) (hs : Stopping h)
    (hstopped : h.stopPc = .stopped) : Stopped n h := by
  refine ⟨hsize,hstopped,fun i => ?_⟩
  by_cases hi : i < h.feeds.length
  · exact hs i (by rw [stoppedCount, hstopped]; exact hi)
  · intro feed hfeed
    exact absurd (List.getElem?_eq_some_iff.mp hfeed).1 hi

/-- All threads have been started. -/
structure Spawned (n : ℕ) (h : HybridFeed) : Prop extends Stopped n h where
  spawned : h.allSpawned = true

/-- The first `k` feeds have returned. -/
structure Ended (n k : ℕ) (h : HybridFeed) : Prop extends Spawned n h where
  ended : ∀ i, i < k → h.At i (·.isReturned = true)

/-- Nothing happens any more: an exception ended the program, or every feed has returned and `run`
and `stop` too. -/
def Done (h : HybridFeed) : Prop :=
  h.isThrown = true ∨
    h.runPc = .returned ∧ h.stopPc = .stopped ∧ ∀ i, h.At i (·.isReturned = true)

theorem Stopped.step (hs : Stopped n h) (turn : HybridTurn) :
    Stopped n ((machine dis).step h turn).1 :=
  ⟨(length_step dis turn).trans hs.size,step_stopped dis hs.stopped turn,
    fun i => (hs.halting i).halting_step dis turn⟩

theorem Spawned.step (hs : Spawned n h) (turn : HybridTurn) :
    Spawned n ((machine dis).step h turn).1 :=
  ⟨hs.toStopped.step dis turn,allSpawned_step dis hs.spawned turn⟩

theorem Ended.step (hs : Ended n k h) (turn : HybridTurn) :
    Ended n k ((machine dis).step h turn).1 :=
  ⟨hs.toSpawned.step dis turn,fun i hi => (hs.ended i hi).returned_step dis turn⟩

/-- `stop` returns. -/
theorem progresses_stopped : (machine dis).Progresses (· = .stop)
    (fun h => h.feeds.length = n ∧ Stopping h) (fun h => Done h ∨ Stopped n h) := by
  refine ⟨stopLeft,?_,?_⟩
  · rintro h turn ⟨hsize,hs⟩
    exact .inr ⟨⟨(length_step dis turn).trans hsize,hs.step dis turn⟩,(stopLeft_step dis turn).1⟩
  · rintro h turn ⟨hsize,hs⟩ rfl
    cases hthrown : h.isThrown with
    | true =>
      left
      rw [step_thrown dis hthrown]
      exact .inl (.inl hthrown)
    | false =>
      by_cases hstopped : h.stopPc = .stopped
      · left
        right
        exact (stopped_of_stopping hsize hs hstopped).step dis .stop
      · exact .inr ((stopLeft_step dis .stop).2 rfl hthrown hstopped)

/-- `run` starts the threads. -/
theorem progresses_spawned : (machine dis).Progresses (· = .run) (Stopped n)
    (fun h => Done h ∨ Spawned n h) := by
  refine ⟨runLeft,?_,?_⟩
  · intro h turn hs
    exact .inr ⟨hs.step dis turn,runLeft_step dis turn⟩
  · rintro h turn hs rfl
    cases hthrown : h.isThrown with
    | true =>
      left
      rw [step_thrown dis hthrown]
      exact .inl (.inl hthrown)
    | false =>
      cases hspawned : h.allSpawned with
      | true => exact .inl (.inr (Spawned.step dis ⟨hs,hspawned⟩ .run))
      | false =>
        right
        rw [step_run dis hthrown]
        rcases runStep_cases h with hlower | ⟨-,hpc | ⟨next,feed,hpc,-⟩⟩
        · exact hlower
        · simp [allSpawned, hpc] at hspawned
        · simp [allSpawned, hpc] at hspawned

/-- The steps that feed `k` has still to take. -/
def feedLeft (k : ℕ) (h : HybridFeed) : ℕ := (h.feeds[k]?.map MarketFeed.stepsLeft).getD 0

theorem stepsLeft_run_le {feed : MarketFeed} (hhalting : feed.Halting) (steps : List FeedStep) :
    ((MarketFeed.machine dis).run feed steps).1.stepsLeft ≤ feed.stepsLeft := by
  have hrun := (MarketFeed.machine dis).run_state_invariant (P := fun _ _ => True)
    (I := fun feed' => feed'.Halting ∧ feed'.stepsLeft ≤ feed.stepsLeft) ?_ ⟨hhalting,le_refl _⟩
    ((MarketFeed.machine dis).along_of_forall (fun _ _ => trivial) feed steps)
  · exact hrun.2
  · rintro feed' l ⟨hfeed',hle⟩ -
    exact ⟨hfeed'.step dis l,((hfeed'.stepsLeft_step dis l).trans (Nat.sub_le ..)).trans hle⟩

theorem feedLeft_step (hhalting : h.At k MarketFeed.Halting) (turn : HybridTurn) :
    feedLeft k ((machine dis).step h turn).1 ≤ feedLeft k h := by
  cases hfeed : h.feeds[k]? with
  | none =>
    have hlength := length_step dis (h := h) turn
    have hnone : ((machine dis).step h turn).1.feeds[k]? = none := by
      rw [List.getElem?_eq_none_iff, hlength]
      exact List.getElem?_eq_none_iff.mp hfeed
    simp [feedLeft, hfeed, hnone]
  | some feed =>
    obtain ⟨hnext,-⟩ := step_feed_at dis hfeed turn
    simp only [feedLeft, hfeed, hnext, Option.map_some, Option.getD_some]
    exact stepsLeft_run_le dis (hhalting feed hfeed) _

/-- Feed `k` returns. -/
theorem progresses_ended : (machine dis).Progresses (·.isFeed k) (Ended n k)
    (fun h => Done h ∨ Ended n (k+1) h) := by
  refine ⟨feedLeft k,?_,?_⟩
  · intro h turn hs
    exact .inr ⟨hs.step dis turn,feedLeft_step dis (hs.halting k) turn⟩
  · intro h turn hs hturn
    have hreturned : h.At k (·.isReturned = true) → Ended n (k+1) h := by
      intro hk
      refine ⟨hs.toSpawned,fun i hi => ?_⟩
      cases Nat.lt_succ_iff_lt_or_eq.mp hi with
      | inl hlt => exact hs.ended i hlt
      | inr heq => exact heq ▸ hk
    cases turn with
    | run => contradiction
    | stop => contradiction
    | feed j stale now =>
      obtain rfl : j = k := by simpa [HybridTurn.isFeed] using hturn
      cases hthrown : h.isThrown with
      | true =>
        left
        rw [step_thrown dis hthrown]
        exact .inl (.inl hthrown)
      | false =>
        cases hfeed : h.feeds[j]? with
        | none =>
          left
          right
          refine Ended.step dis (hreturned ?_) _
          intro feed hsome
          rw [hfeed] at hsome
          contradiction
        | some feed =>
          have hspawned : h.spawned j = true := by
            have hall := hs.spawned
            unfold allSpawned at hall
            unfold spawned
            cases hpc : h.runPc <;> simp [hpc] at hall ⊢
          have hsteps : stepsOf j h (.feed j stale now) = [.run stale now] := by
            simp [stepsOf, hthrown, hspawned]
          by_cases hleft : feed.stepsLeft = 0
          · left
            right
            refine Ended.step dis (hreturned ?_) _
            intro feed' hfeed'
            obtain rfl := Option.some.inj (hfeed.symm.trans hfeed')
            cases MarketFeed.ended_of_stepsLeft hleft with
            | inl hdone => exact hdone
            | inr hdead =>
              have hany : h.isThrown = true :=
                List.any_eq_true.mpr ⟨feed,List.mem_of_getElem? hfeed,hdead⟩
              rw [hthrown] at hany
              contradiction
          · right
            obtain ⟨hnext,-⟩ := step_feed_at dis hfeed (.feed j stale now)
            have hlower := (hs.halting j feed hfeed).stepsLeft_step dis (.run stale now)
            rw [hsteps, Machine.run_cons, Machine.run_nil] at hnext
            simp only [feedLeft, hfeed, hnext, Option.map_some, Option.getD_some]
            simp only [FeedStep.toReplay, ReplayStep.weight] at hlower
            omega

/-- `run` joins the threads. -/
theorem progresses_done : (machine dis).Progresses (· = .run) (Ended n n) Done := by
  refine ⟨runLeft,?_,?_⟩
  · intro h turn hs
    exact .inr ⟨hs.step dis turn,runLeft_step dis turn⟩
  · rintro h turn hs rfl
    have hall : ∀ i, h.At i (·.isReturned = true) := by
      intro i feed hfeed
      exact hs.ended i (hs.size ▸ (List.getElem?_eq_some_iff.mp hfeed).1) feed hfeed
    cases hthrown : h.isThrown with
    | true =>
      left
      rw [step_thrown dis hthrown]
      exact .inl hthrown
    | false =>
      rw [step_run dis hthrown]
      rcases runStep_cases h with hlower | ⟨hsame,hpc | ⟨next,feed,-,hfeed,hwaits⟩⟩
      · exact .inr hlower
      · left
        rw [hsame]
        exact .inr ⟨hpc,hs.stopped,hall⟩
      · rw [hall next feed hfeed] at hwaits
        contradiction

theorem step_returned_feed {feed : MarketFeed} (hreturned : feed.isReturned = true)
    (stale : MarketDataEvent) (now : ℕ) :
    (MarketFeed.machine dis).step feed (.run stale now) = (feed,[]) := by
  cases feed with
  | webSocket client =>
    obtain ⟨running,pc⟩ := client
    cases pc <;> first | rfl | contradiction
  | replay engine pc => cases pc <;> first | rfl | contradiction

theorem Done.step_eq (hdone : Done h) (turn : HybridTurn) :
    (machine dis).step h turn = (h,[]) := by
  cases hthrown : h.isThrown with
  | true => exact step_thrown dis hthrown turn
  | false =>
    obtain hdead | ⟨hrun,hstop,hall⟩ := hdone
    · rw [hthrown] at hdead
      contradiction
    · cases turn with
      | run => rw [step_run dis hthrown, runStep, hrun]
      | stop => rw [step_stop dis hthrown, stopStep, hstop]
      | feed i stale now =>
        rw [step_feed dis hthrown, feedStep]
        split
        · rename_i feed hfeed
          obtain ⟨hbound,hget⟩ := List.getElem?_eq_some_iff.mp hfeed
          split
          · rw [step_returned_feed dis (hall i feed hfeed) stale now, ← hget]
            simp
          · rfl
        · rfl

end Stages

section Ends

/-- Once `stop` has returned, `run` starts the threads, one feed after another returns, and `run`
joins them, in any program that the hybrid feed is a part of. -/
theorem leadsTo_done (dis : ℕ → ℚ) {State Label Obs : Type*} {N : Machine State Label Obs}
    {part : State → HybridFeed} {stands : Label → HybridTurn → Prop}
    (hpart : Machine.Part (machine dis) N part stands) {n : ℕ} {s : State} {schedule : ℕ → Label}
    (hrun : Machine.Recurrent (fun l => ∃ turn, turn = .run ∧ stands l turn) schedule)
    (hfeeds : ∀ i, i < n →
      Machine.Recurrent (fun l => ∃ turn : HybridTurn, turn.isFeed i ∧ stands l turn) schedule) :
    N.LeadsTo s schedule (fun s => Stopped n (part s)) (fun s => Done (part s)) := by
  have hended : ∀ k, k ≤ n → N.LeadsTo s schedule (fun s => Stopped n (part s))
      (fun s => Done (part s) ∨ Ended n k (part s)) := by
    intro k hk
    induction k with
    | zero =>
      intro m hm
      obtain ⟨m',hm',hnext⟩ := (hpart.progresses _ (progresses_spawned dis)).leadsTo _ hrun m hm
      exact ⟨m',hm',hnext.imp_right fun hs => ⟨hs,fun i hi => absurd hi (Nat.not_lt_zero i)⟩⟩
    | succ k ih =>
      have hnext := (hpart.progresses _ (progresses_ended dis (n := n) (k := k))).leadsTo _ (s := s)
        (hfeeds k (by omega))
      exact (ih (by omega)).trans_or _ hnext
  intro m hm
  obtain ⟨m',hm',hdone | hall⟩ := hended n (le_refl n) m hm
  · exact ⟨m',hm',hdone⟩
  · obtain ⟨k,hk,hdone⟩ := (hpart.progresses _ (progresses_done dis)).leadsTo _ hrun m' hall
    exact ⟨k,hm'.trans hk,hdone⟩

end Ends

end HybridFeed

/-- `run` has not got past feed `i`. -/
def HybridPc.Waits (i : ℕ) : HybridPc → Prop
  | .joining next => next ≤ i
  | .returned => False
  | _ => True

namespace HybridFeed

section Waiting
variable (dis : ℕ → ℚ) {h : HybridFeed} {i : ℕ}

theorem runStep_waits {feed : MarketFeed} (hfeed : h.feeds[i]? = some feed)
    (hworking : feed.isReturned = false) (hwaits : h.runPc.Waits i) : h.runStep.runPc.Waits i := by
  unfold runStep
  cases hpc : h.runPc with
  | starting => trivial
  | spawning next =>
    dsimp only
    split
    · trivial
    · exact Nat.zero_le i
  | returned =>
    rw [hpc] at hwaits
    exact hwaits.elim
  | joining next =>
    rw [hpc] at hwaits
    have hle : next ≤ i := hwaits
    by_cases hnext : next = i
    · subst hnext
      simp only [hfeed, hworking, Bool.false_eq_true, if_false, hpc]
      exact hle
    · cases hother : h.feeds[next]? with
      | none =>
        have hbound := (List.getElem?_eq_some_iff.mp hfeed).1
        have hbeyond := List.getElem?_eq_none_iff.mp hother
        omega
      | some other =>
        simp only [hother]
        split
        · exact Nat.lt_of_le_of_ne hle hnext
        · rw [hpc]
          exact hle

/-- Feed `i` is live and has not been stopped. -/
structure Waiting (i : ℕ) (h : HybridFeed) : Prop where
  live : ∃ client : WebSocketClient, h.feeds[i]? = some (.webSocket client) ∧
    client.running = true ∧ client.isReturned = false
  idle : h.stopPc = .idle
  waits : h.runPc.Waits i

theorem Waiting.step (hs : Waiting i h) {turn : HybridTurn} (hturn : turn ≠ .stop) :
    Waiting i ((machine dis).step h turn).1 := by
  obtain ⟨client,hfeed,hrunning,hworking⟩ := hs.live
  refine ⟨?_,?_,?_⟩
  · obtain ⟨hnext,-⟩ := step_feed_at dis hfeed turn
    have hnostop := stop_not_mem_stepsOf (i := i) (h := h) hturn
    rw [MarketFeed.run_webSocket] at hnext
    refine ⟨_,hnext,?_⟩
    refine (WebSocketClient.machine dis).run_state_invariant (P := fun _ l => l ≠ .stop)
      (I := fun c => c.running = true ∧ c.isReturned = false) ?_ ⟨hrunning,hworking⟩ ?_
    · rintro ⟨running,pc⟩ l ⟨rfl,hpc⟩ hl
      cases l with
      | stop => contradiction
      | run now => cases pc <;> first | exact ⟨rfl,rfl⟩ | contradiction
    · refine (WebSocketClient.machine dis).along_of_mem ?_ _
      intro c l hl
      obtain ⟨l',hl',rfl⟩ := List.mem_map.mp hl
      cases l' with
      | run stale now => simp [FeedStep.toWebSocket]
      | stop => exact absurd hl' hnostop
  · rcases step_stopPc dis (h := h) turn with hsame | ⟨hstop,-⟩
    · exact hsame.trans hs.idle
    · exact absurd hstop hturn
  · rcases step_runPc dis (h := h) turn with hsame | ⟨rfl,halive⟩
    · rw [hsame]
      exact hs.waits
    · rw [step_run dis halive]
      exact runStep_waits hfeed hworking hs.waits

/-- There is a live feed, running or not. -/
def HasLive (h : HybridFeed) : Prop := ∃ (i : ℕ) (client : WebSocketClient),
  h.feeds[i]? = some (.webSocket client)

theorem HasLive.step (hs : HasLive h) (turn : HybridTurn) :
    HasLive ((machine dis).step h turn).1 := by
  obtain ⟨i,client,hfeed⟩ := hs
  obtain ⟨hnext,-⟩ := step_feed_at dis hfeed turn
  rw [MarketFeed.run_webSocket] at hnext
  exact ⟨i,_,hnext⟩

theorem HasLive.active (hs : HasLive h) : h.isActive = true ∧ h.isFinished = false := by
  obtain ⟨i,client,hfeed⟩ := hs
  have hmem := List.mem_of_getElem? hfeed
  exact ⟨List.any_eq_true.mpr ⟨_,hmem,rfl⟩,List.all_eq_false.mpr ⟨_,hmem,Bool.false_ne_true⟩⟩

theorem Waiting.after {h : HybridFeed} (hs : Waiting i h) {schedule : ℕ → HybridTurn} (n : ℕ)
    (hnostop : ∀ m, m < n → schedule m ≠ .stop) :
    Waiting i ((machine dis).after h schedule n) := by
  induction n with
  | zero => exact hs
  | succ n ih =>
    exact (ih (fun m hm => hnostop m (Nat.lt_succ_of_lt hm))).step dis
      (hnostop n (Nat.lt_succ_self n))

end Waiting

theorem foldl_addFeed (feeds : List MarketFeed) (h : HybridFeed) :
    feeds.foldl addFeed h = { h with feeds := h.feeds ++ feeds } := by
  induction feeds generalizing h with
  | nil => simp
  | cons feed feeds ih =>
    rw [List.foldl_cons, ih]
    simp [addFeed]

/-- Under every schedule in which each thread goes on and `stop` is called, the hybrid feed comes to
its end: `run` and `stop` return with every feed returned, or a replay throws. As long as `stop` is
not called a connected live feed keeps `run` from returning, and no one can tell from the flags of
the hybrid feed that the replay is over. -/
theorem hybrid_ends (dis : ℕ → ℚ) (feeds : List MarketFeed) {schedule : ℕ → HybridTurn}
    (hrun : Machine.Recurrent (· = .run) schedule) (hstop : Machine.Recurrent (· = .stop) schedule)
    (hfeeds : ∀ i, i < feeds.length → Machine.Recurrent (·.isFeed i) schedule) :
    let moment := (machine dis).after (feeds.foldl addFeed init) schedule
    (.webSocket WebSocketClient.init.connect ∈ feeds → ∀ n,
      (moment n).isActive = true ∧ (moment n).isFinished = false ∧
        ((∀ m, m < n → schedule m ≠ .stop) → (moment n).runPc ≠ .returned)) ∧
    ∃ n, (∀ m, n ≤ m → moment m = moment n) ∧
      ((moment n).isThrown = true ∨ (moment n).runPc = .returned ∧ (moment n).stopPc = .stopped ∧
        ∀ feed ∈ (moment n).feeds, feed.isReturned = true) := by
  intro moment
  have hinit : feeds.foldl addFeed init = ⟨feeds,false,.starting,.idle⟩ := foldl_addFeed feeds init
  constructor
  · intro hlive n
    obtain ⟨i,hi⟩ := List.getElem?_of_mem hlive
    have hfeed : (feeds.foldl addFeed init).feeds[i]? =
        some (.webSocket WebSocketClient.init.connect) := by
      rw [hinit]
      exact hi
    have hhas : HasLive (moment n) := (machine dis).after_invariant (I := HasLive)
      (fun _ turn hs => HasLive.step dis hs turn) ⟨i,_,hfeed⟩ n
    refine ⟨hhas.active.1,hhas.active.2,?_⟩
    intro hnostop hreturned
    have hwaiting : Waiting i (feeds.foldl addFeed init) := by
      refine ⟨⟨_,hfeed,rfl,rfl⟩,?_,?_⟩
      · rw [hinit]
      · rw [hinit]
        trivial
    have hwaits := (hwaiting.after dis n hnostop).waits
    change (moment n).runPc.Waits i at hwaits
    rw [hreturned] at hwaits
    exact hwaits
  · have hstopping : (feeds.foldl addFeed init).feeds.length = feeds.length ∧
        Stopping (feeds.foldl addFeed init) := by
      rw [hinit]
      exact ⟨rfl,fun i hi => absurd hi (Nat.not_lt_zero i)⟩
    have hone : ∀ p : HybridTurn → Prop, Machine.Recurrent p schedule →
        Machine.Recurrent (fun l => ∃ turn, p turn ∧ l = turn) schedule := by
      intro p hp m
      obtain ⟨m',hm',hturn⟩ := hp m
      exact ⟨m',hm',_,hturn,rfl⟩
    obtain ⟨n,hdone⟩ : ∃ n, Done (moment n) := by
      obtain ⟨n,-,hdone | hstopped⟩ := (progresses_stopped dis).leadsTo _ hstop 0 hstopping
      · exact ⟨n,hdone⟩
      · obtain ⟨m,-,hdone⟩ := leadsTo_done dis (Machine.Part.refl _) (hone _ hrun)
          (fun i hi => hone _ (hfeeds i hi)) n hstopped
        exact ⟨m,hdone⟩
    refine ⟨n,fun m hm => ?_,?_⟩
    · exact (machine dis).after_const (fun turn => congrArg Prod.fst (hdone.step_eq dis turn)) hm
    · refine hdone.imp_right ?_
      rintro ⟨hrunPc,hstopPc,hall⟩
      refine ⟨hrunPc,hstopPc,fun feed hfeed => ?_⟩
      obtain ⟨i,hi⟩ := List.getElem?_of_mem hfeed
      exact hall i feed hi

/-- The threads of HYBRID mode one after another. -/
def roundRobin (n : ℕ) : HybridTurn :=
  match n % 4 with
  | 0 => .run
  | 1 => .feed 0 blankEvent 0
  | 2 => .feed 1 blankEvent 0
  | _ => .stop

theorem hybrid_ends_roundRobin :
    let feeds : List MarketFeed := [.webSocket WebSocketClient.init.connect,
      .replay (.init (some ["B,100,1,1,0".toList])) .starting]
    let moment := (machine (fun _ => 1/4)).after (feeds.foldl addFeed init) roundRobin
    (.webSocket WebSocketClient.init.connect ∈ feeds → ∀ n,
      (moment n).isActive = true ∧ (moment n).isFinished = false ∧
        ((∀ m, m < n → roundRobin m ≠ .stop) → (moment n).runPc ≠ .returned)) ∧
    ∃ n, (∀ m, n ≤ m → moment m = moment n) ∧
      ((moment n).isThrown = true ∨ (moment n).runPc = .returned ∧ (moment n).stopPc = .stopped ∧
        ∀ feed ∈ (moment n).feeds, feed.isReturned = true) := by
  refine hybrid_ends _ _ ?_ ?_ ?_
  · intro n
    have hturn : (4*n) % 4 = 0 := by omega
    exact ⟨4*n,by omega,by simp [roundRobin]⟩
  · intro n
    have hturn : (4*n+3) % 4 = 3 := by omega
    exact ⟨4*n+3,by omega,by simp [roundRobin, hturn]⟩
  · intro i hi n
    have hfirst : (4*n+1) % 4 = 1 := by omega
    have hsecond : (4*n+2) % 4 = 2 := by omega
    obtain rfl | rfl : i = 0 ∨ i = 1 := by
      simp only [List.length_cons, List.length_nil] at hi
      omega
    · exact ⟨4*n+1,by omega,by simp [roundRobin, hfirst, HybridTurn.isFeed]⟩
    · exact ⟨4*n+2,by omega,by simp [roundRobin, hsecond, HybridTurn.isFeed]⟩

end HybridFeed
end HftEngine.Feed
