import HftEngine.Feed.WebSocketClient
import HftEngine.Replay.Stopping

/-! Several feeds at once (feed/hybrid_feed.hpp). `run` starts a thread for every feed and joins
them, `stop` is called by the main thread and stops one feed after another, and nothing orders the
steps of these threads. Seen from one feed, the others do not exist. -/
namespace HftEngine.Feed
open HftEngine.Core Replay

/-- The feeds that main.cpp gives to the hybrid one, each with the thread that executes `run`. -/
inductive MarketFeed
  | webSocket (client : WebSocketClient)
  | replay (engine : ReplayEngine) (pc : RunPc)

/-- A step of the thread of a feed, with the memory of its event and its clock, or a call of its
`stop`. -/
inductive FeedStep
  | run (stale : MarketDataEvent) (now : ℕ)
  | stop

namespace FeedStep

def toWebSocket : FeedStep → WebSocketStep
  | .run _ now => .run now
  | .stop => .stop

def toReplay : FeedStep → ReplayStep
  | .run stale _ => .run stale
  | .stop => .stop

end FeedStep

namespace MarketFeed

def isActive : MarketFeed → Bool
  | .webSocket _ => true
  | .replay engine _ => !engine.finished

def isFinished : MarketFeed → Bool
  | .webSocket _ => false
  | .replay engine _ => engine.isFinished

def isReturned : MarketFeed → Bool
  | .webSocket client => client.isReturned
  | .replay _ pc => pc.isReturned

def isThrown : MarketFeed → Bool
  | .webSocket _ => false
  | .replay _ pc => pc.isThrown

/-- One feed on its own; observed are the pushes. -/
def machine (dis : ℕ → ℚ) : Machine MarketFeed FeedStep MarketDataEvent where
  step
    | .webSocket client, l =>
      let next := (WebSocketClient.machine dis).step client l.toWebSocket
      (.webSocket next.1,next.2)
    | .replay engine pc, l =>
      let next := stoppable.step (engine,pc) l.toReplay
      (.replay next.1.1 next.1.2,next.2)

theorem run_webSocket (dis : ℕ → ℚ) (client : WebSocketClient) (steps : List FeedStep) :
    let own := (WebSocketClient.machine dis).run client (steps.map FeedStep.toWebSocket)
    (machine dis).run (.webSocket client) steps = (.webSocket own.1,own.2) := by
  induction steps generalizing client with
  | nil => rfl
  | cons l steps ih =>
    dsimp only at ih ⊢
    rw [Machine.run_cons, List.map_cons, Machine.run_cons]
    exact congrArg (fun own => (own.1,_ ++ own.2)) (ih _)

theorem run_replay (dis : ℕ → ℚ) (s : ReplayEngine × RunPc) (steps : List FeedStep) :
    let own := stoppable.run s (steps.map FeedStep.toReplay)
    (machine dis).run (.replay s.1 s.2) steps = (.replay own.1.1 own.1.2,own.2) := by
  induction steps generalizing s with
  | nil => rfl
  | cons l steps ih =>
    dsimp only at ih ⊢
    rw [Machine.run_cons, List.map_cons, Machine.run_cons]
    exact congrArg (fun own => (own.1,_ ++ own.2)) (ih _)

end MarketFeed

/-- Where the thread in `HybridFeed::run` is. -/
inductive HybridPc
  | starting
  | spawning (next : ℕ)
  | joining (next : ℕ)
  | returned
  deriving DecidableEq

/-- Where the call of `HybridFeed::stop` is. -/
inductive StopPc
  | idle
  | stopping (next : ℕ)
  | stopped
  deriving DecidableEq

structure HybridFeed where
  feeds : List MarketFeed
  running : Bool
  runPc : HybridPc
  stopPc : StopPc

/-- The thread in `run`, the thread of one of the feeds, or the thread that calls `stop`. -/
inductive HybridTurn
  | run
  | feed (i : ℕ) (stale : MarketDataEvent) (now : ℕ)
  | stop

def HybridTurn.isFeed (i : ℕ) : HybridTurn → Bool
  | .feed j _ _ => j = i
  | _ => false

namespace HybridFeed

def init : HybridFeed := ⟨[],false,.starting,.idle⟩

def addFeed (h : HybridFeed) (feed : MarketFeed) : HybridFeed :=
  { h with feeds := h.feeds ++ [feed] }

/-- The feed of HYBRID mode. -/
def hybridMode (file : Option (List Line)) : HybridFeed :=
  (init.addFeed (.webSocket WebSocketClient.init.connect)).addFeed
    (.replay (ReplayEngine.init file) .starting)

def isActive (h : HybridFeed) : Bool := h.feeds.any MarketFeed.isActive

def isFinished (h : HybridFeed) : Bool := h.feeds.all MarketFeed.isFinished

def isThrown (h : HybridFeed) : Bool := h.feeds.any MarketFeed.isThrown

def spawned (h : HybridFeed) (i : ℕ) : Bool :=
  match h.runPc with
  | .starting => false
  | .spawning next => i < next
  | _ => true

/-- The next step of `run`. -/
def runStep (h : HybridFeed) : HybridFeed :=
  match h.runPc with
  | .starting => { h with running := true, runPc := .spawning 0 }
  | .spawning next =>
    if next < h.feeds.length then { h with runPc := .spawning (next+1) }
    else { h with runPc := .joining 0 }
  | .joining next =>
    match h.feeds[next]? with
    | some feed => if feed.isReturned then { h with runPc := .joining (next+1) } else h
    | none => { h with runPc := .returned }
  | .returned => h

/-- The next step of `stop`. -/
def stopStep (dis : ℕ → ℚ) (h : HybridFeed) : HybridFeed :=
  match h.stopPc with
  | .idle => { h with running := false, stopPc := .stopping 0 }
  | .stopping next =>
    match h.feeds[next]? with
    | some feed => { h with
        feeds := h.feeds.set next ((MarketFeed.machine dis).step feed .stop).1
        stopPc := .stopping (next+1) }
    | none => { h with stopPc := .stopped }
  | .stopped => h

/-- The next step of the thread of feed `i`, once it is started. -/
def feedStep (dis : ℕ → ℚ) (i : ℕ) (stale : MarketDataEvent) (now : ℕ) (h : HybridFeed) :
    HybridFeed × List (ℕ × MarketDataEvent) :=
  match h.feeds[i]? with
  | some feed =>
    if h.spawned i then
      let next := (MarketFeed.machine dis).step feed (.run stale now)
      ({ h with feeds := h.feeds.set i next.1 },next.2.map (fun md => (i,md)))
    else (h,[])
  | none => (h,[])

/-- An exception in a thread ends the program; observed are the pushes with the feeds they are
from. -/
def machine (dis : ℕ → ℚ) : Machine HybridFeed HybridTurn (ℕ × MarketDataEvent) where
  step h turn :=
    if h.isThrown then (h,[])
    else match turn with
    | .run => (h.runStep,[])
    | .feed i stale now => h.feedStep dis i stale now
    | .stop => (h.stopStep dis,[])

section Step
variable (dis : ℕ → ℚ) {h : HybridFeed}

theorem step_thrown (hthrown : h.isThrown = true) (turn : HybridTurn) :
    (machine dis).step h turn = (h,[]) := if_pos hthrown

theorem step_run (halive : h.isThrown = false) :
    (machine dis).step h .run = (h.runStep,[]) := by
  simp [machine, halive]

theorem step_stop (halive : h.isThrown = false) :
    (machine dis).step h .stop = (h.stopStep dis,[]) := by
  simp [machine, halive]

theorem step_feed (halive : h.isThrown = false) (i : ℕ) (stale : MarketDataEvent) (now : ℕ) :
    (machine dis).step h (.feed i stale now) = h.feedStep dis i stale now := by
  simp [machine, halive]

theorem runStep_feeds (h : HybridFeed) : h.runStep.feeds = h.feeds := by
  unfold runStep
  repeat' split
  all_goals rfl

theorem runStep_stopPc (h : HybridFeed) : h.runStep.stopPc = h.stopPc := by
  unfold runStep
  repeat' split
  all_goals rfl

theorem stopStep_runPc (h : HybridFeed) : (h.stopStep dis).runPc = h.runPc := by
  unfold stopStep
  repeat' split
  all_goals rfl

theorem feedStep_pcs (i : ℕ) (stale : MarketDataEvent) (now : ℕ) (h : HybridFeed) :
    (h.feedStep dis i stale now).1.runPc = h.runPc ∧
      (h.feedStep dis i stale now).1.stopPc = h.stopPc := by
  unfold feedStep
  repeat' split
  all_goals exact ⟨rfl,rfl⟩

end Step

/-- What a turn does to feed `i`. -/
def stepsOf (i : ℕ) (h : HybridFeed) (turn : HybridTurn) : List FeedStep :=
  if h.isThrown then []
  else match turn with
  | .run => []
  | .feed j stale now => if j = i ∧ h.spawned i then [.run stale now] else []
  | .stop => if h.stopPc = .stopping i then [.stop] else []

/-- The pushes of feed `i`. -/
def pushedBy (i : ℕ) (pushed : List (ℕ × MarketDataEvent)) : List MarketDataEvent :=
  (pushed.filter (fun p => p.1 = i)).map Prod.snd

@[simp] theorem pushedBy_nil (i : ℕ) : pushedBy i [] = [] := rfl

theorem pushedBy_append (i : ℕ) (xs ys : List (ℕ × MarketDataEvent)) :
    pushedBy i (xs ++ ys) = pushedBy i xs ++ pushedBy i ys := by
  simp [pushedBy]

theorem pushedBy_same (i : ℕ) (mds : List MarketDataEvent) :
    pushedBy i (mds.map (fun md => (i,md))) = mds := by
  induction mds with
  | nil => rfl
  | cons md mds ih => simpa [pushedBy] using ih

theorem pushedBy_other {i j : ℕ} (hij : j ≠ i) (mds : List MarketDataEvent) :
    pushedBy i (mds.map (fun md => (j,md))) = [] := by
  induction mds with
  | nil => rfl
  | cons md mds ih => simp [pushedBy, hij]

section At
variable (dis : ℕ → ℚ) {i : ℕ} {h : HybridFeed}

theorem feedStep_self {feed : MarketFeed} (hfeed : h.feeds[i]? = some feed)
    (hspawned : h.spawned i = true) (stale : MarketDataEvent) (now : ℕ) :
    let next := (MarketFeed.machine dis).step feed (.run stale now)
    (h.feedStep dis i stale now).1.feeds = h.feeds.set i next.1 ∧
      (h.feedStep dis i stale now).2 = next.2.map (fun md => (i,md)) := by
  simp [feedStep, hfeed, hspawned]

theorem feedStep_other {j : ℕ} (hij : j ≠ i) (stale : MarketDataEvent) (now : ℕ) :
    (h.feedStep dis j stale now).1.feeds[i]? = h.feeds[i]? ∧
      pushedBy i (h.feedStep dis j stale now).2 = [] := by
  unfold feedStep
  split
  · split
    · exact ⟨List.getElem?_set_ne hij,pushedBy_other hij _⟩
    · exact ⟨rfl,rfl⟩
  · exact ⟨rfl,rfl⟩

theorem stopStep_other (hpc : h.stopPc ≠ .stopping i) :
    (h.stopStep dis).feeds[i]? = h.feeds[i]? := by
  unfold stopStep
  split
  · rfl
  · rename_i next hstopping
    have hne : next ≠ i := by
      rintro rfl
      exact hpc hstopping
    split
    · exact List.getElem?_set_ne hne
    · rfl
  · rfl

theorem step_stop_pushes (feed : MarketFeed) :
    ((MarketFeed.machine dis).step feed .stop).2 = [] := by
  cases feed <;> rfl

/-- A turn does to each feed what its own steps do, and pushes for it what they push. -/
theorem step_feed_at {feed : MarketFeed} (hfeed : h.feeds[i]? = some feed) (turn : HybridTurn) :
    ((machine dis).step h turn).1.feeds[i]? =
        some ((MarketFeed.machine dis).run feed (stepsOf i h turn)).1 ∧
      pushedBy i ((machine dis).step h turn).2 =
        ((MarketFeed.machine dis).run feed (stepsOf i h turn)).2 := by
  have hbound : i < h.feeds.length := (List.getElem?_eq_some_iff.mp hfeed).1
  cases hthrown : h.isThrown with
  | true =>
    have hnone : stepsOf i h turn = [] := if_pos hthrown
    rw [step_thrown dis hthrown, hnone]
    exact ⟨hfeed,rfl⟩
  | false =>
    cases turn with
    | run =>
      have hnone : stepsOf i h .run = [] := by simp [stepsOf]
      rw [step_run dis hthrown, hnone]
      dsimp only
      rw [runStep_feeds]
      exact ⟨hfeed,rfl⟩
    | feed j stale now =>
      rw [step_feed dis hthrown]
      by_cases hij : j = i
      · subst hij
        cases hspawned : h.spawned j with
        | false => simp [stepsOf, hthrown, feedStep, hfeed, hspawned]
        | true =>
          have hsteps : stepsOf j h (.feed j stale now) = [.run stale now] := by
            simp [stepsOf, hthrown, hspawned]
          obtain ⟨hset,hpushes⟩ := feedStep_self dis hfeed hspawned stale now
          rw [hsteps, hset, hpushes, Machine.run_cons, Machine.run_nil, List.append_nil]
          exact ⟨List.getElem?_set_self hbound,pushedBy_same j _⟩
      · have hsteps : stepsOf i h (.feed j stale now) = [] := by simp [stepsOf, hij]
        obtain ⟨hsame,hquiet⟩ := feedStep_other dis (h := h) hij stale now
        rw [hsteps, hsame, hquiet]
        exact ⟨hfeed,rfl⟩
    | stop =>
      rw [step_stop dis hthrown]
      by_cases hpc : h.stopPc = .stopping i
      · have hsteps : stepsOf i h .stop = [.stop] := by simp [stepsOf, hthrown, hpc]
        have hnext : (h.stopStep dis).feeds =
            h.feeds.set i ((MarketFeed.machine dis).step feed .stop).1 := by
          simp only [stopStep, hpc, hfeed]
        rw [hsteps, hnext, Machine.run_cons, Machine.run_nil, step_stop_pushes]
        exact ⟨List.getElem?_set_self hbound,rfl⟩
      · have hsteps : stepsOf i h .stop = [] := by simp [stepsOf, hpc]
        rw [hsteps, stopStep_other dis hpc]
        exact ⟨hfeed,rfl⟩

end At

/-- Seen from one feed, a run of all of them is a run of its own. -/
theorem run_feed_at (dis : ℕ → ℚ) {i : ℕ} {h : HybridFeed} {feed : MarketFeed}
    (hfeed : h.feeds[i]? = some feed) (turns : List HybridTurn) :
    let own := (MarketFeed.machine dis).run feed ((machine dis).collect (stepsOf i) h turns)
    ((machine dis).run h turns).1.feeds[i]? = some own.1 ∧
      pushedBy i ((machine dis).run h turns).2 = own.2 :=
  (machine dis).run_refines (R := fun h feed => h.feeds[i]? = some feed) (w := id)
    (pushedBy_nil i) (pushedBy_append i) (fun _ _ => rfl)
    (fun _ _ turn hs => step_feed_at dis hs turn) hfeed turns

/-- A turn of a feed that does not exist pushes nothing, and feeds are neither added nor removed. -/
theorem step_indices (dis : ℕ → ℚ) (h : HybridFeed) (turn : HybridTurn) :
    (∀ p ∈ ((machine dis).step h turn).2, p.1 < h.feeds.length) ∧
      ((machine dis).step h turn).1.feeds.length = h.feeds.length := by
  cases hthrown : h.isThrown with
  | true =>
    rw [step_thrown dis hthrown]
    exact ⟨fun p hp => absurd hp List.not_mem_nil,rfl⟩
  | false =>
    cases turn with
    | run =>
      rw [step_run dis hthrown]
      exact ⟨fun p hp => absurd hp List.not_mem_nil,congrArg List.length (runStep_feeds h)⟩
    | feed i stale now =>
      rw [step_feed dis hthrown, feedStep]
      split
      · rename_i feed hfeed
        split
        · refine ⟨?_,List.length_set⟩
          intro p hp
          obtain ⟨md,-,rfl⟩ := List.mem_map.mp hp
          exact (List.getElem?_eq_some_iff.mp hfeed).1
        · exact ⟨fun p hp => absurd hp List.not_mem_nil,rfl⟩
      · exact ⟨fun p hp => absurd hp List.not_mem_nil,rfl⟩
    | stop =>
      rw [step_stop dis hthrown, stopStep]
      refine ⟨fun p hp => absurd hp List.not_mem_nil,?_⟩
      split
      · rfl
      · split
        · exact List.length_set
        · rfl
      · rfl

theorem run_indices (dis : ℕ → ℚ) (h : HybridFeed) (turns : List HybridTurn) :
    ∀ p ∈ ((machine dis).run h turns).2, p.1 < h.feeds.length := by
  have hrun := (machine dis).run_invariant (P := fun _ _ => True)
    (I := fun s pushed => s.feeds.length = h.feeds.length ∧ ∀ p ∈ pushed, p.1 < h.feeds.length)
    ?_ ⟨rfl,fun p hp => absurd hp List.not_mem_nil⟩
    ((machine dis).along_of_forall (fun _ _ => trivial) h turns)
  · exact hrun.2
  · rintro s pushed turn ⟨hlength,hpushed⟩ -
    obtain ⟨hnew,hsame⟩ := step_indices dis s turn
    refine ⟨hsame.trans hlength,?_⟩
    rw [List.forall_mem_append]
    exact ⟨hpushed,hlength ▸ hnew⟩

/-- Without a `stop` of all feeds there is no `stop` of one. -/
theorem stop_not_mem_stepsOf {i : ℕ} {h : HybridFeed} {turn : HybridTurn} (hturn : turn ≠ .stop) :
    .stop ∉ stepsOf i h turn := by
  unfold stepsOf
  split
  · exact List.not_mem_nil
  · cases turn with
    | run => exact List.not_mem_nil
    | feed j stale now =>
      dsimp only
      split <;> simp
    | stop => exact absurd rfl hturn

/-- The steps of the replay in HYBRID mode. -/
def replaySteps (dis : ℕ → ℚ) (lines : List Line) (turns : List HybridTurn) : List ReplayStep :=
  ((machine dis).collect (stepsOf 1) (hybridMode (some lines)) turns).map FeedStep.toReplay

/-- The replay runs as it does on its own. -/
theorem run_replayed (dis : ℕ → ℚ) (lines : List Line) (turns : List HybridTurn) :
    let out := (machine dis).run (hybridMode (some lines)) turns
    let own := ReplayEngine.replay lines (replaySteps dis lines turns)
    out.1.feeds[1]? = some (.replay own.1.1 own.1.2) ∧ pushedBy 1 out.2 = own.2 := by
  have hfeed := run_feed_at dis (h := hybridMode (some lines)) (i := 1) rfl turns
  rw [MarketFeed.run_replay dis (.init (some lines),.starting)] at hfeed
  exact hfeed

/-- The live feed pushes its walk, and the replay a beginning of the rows. -/
structure Streams (dis : ℕ → ℚ) (rows : List MarketDataEvent)
    (pushed : List (ℕ × MarketDataEvent)) : Prop where
  indices : ∀ p ∈ pushed, p.1 < 2
  live : (pushedBy 0 pushed).map MarketDataEvent.price =
    (List.range (pushedBy 0 pushed).length).map (fun k => WebSocketClient.walk dis (k+1))
  replayed : pushedBy 1 pushed <+: rows

theorem run_streams (dis : ℕ → ℚ) {lines : List Line} (hlines : ∀ line ∈ lines, Acceptable line)
    (turns : List HybridTurn) :
    Streams dis (lines.filterMap rowEvent)
      ((machine dis).run (hybridMode (some lines)) turns).2 where
  indices := run_indices dis _ turns
  live := by
    obtain ⟨-,hlive⟩ := run_feed_at dis (h := hybridMode (some lines)) (i := 0) rfl turns
    rw [MarketFeed.run_webSocket] at hlive
    rw [hlive]
    exact (WebSocketClient.run_walks dis _).prices
  replayed := by
    have hreading := (ReplayEngine.reading_iff_along lines (replaySteps dis lines turns)).mpr
      (ReplayEngine.along_of_acceptable _ hlines)
    rw [(run_replayed dis lines turns).2, ← hreading.accounted, ReplayEngine.accounted,
      List.append_assoc]
    exact List.prefix_append _ _

/-- In HYBRID mode the events are those of the live feed and those of the replay, in any shuffle:
the walk prices in order, and a beginning of the rows of the file, all of them once the replay has
returned without a `stop`. -/
theorem hybrid_stream (dis : ℕ → ℚ) {lines : List Line} (hlines : ∀ line ∈ lines, Acceptable line)
    (turns : List HybridTurn) :
    let out := (machine dis).run (hybridMode (some lines)) turns
    let live := pushedBy 0 out.2
    let rows := pushedBy 1 out.2
    (∀ p ∈ out.2, p.1 < 2) ∧
      live.map MarketDataEvent.price =
        (List.range live.length).map (fun k => WebSocketClient.walk dis (k+1)) ∧
      rows <+: lines.filterMap rowEvent ∧
      (.stop ∉ turns → (∃ engine, out.1.feeds[1]? = some (.replay engine .returned)) →
        rows = lines.filterMap rowEvent) := by
  intro out live rows
  obtain ⟨hindices,hlive,hreplayed⟩ := run_streams dis hlines turns
  refine ⟨hindices,hlive,hreplayed,?_⟩
  rintro hstop ⟨engine,hreturned⟩
  let steps := replaySteps dis lines turns
  obtain ⟨hreplay,hrows⟩ := run_replayed dis lines turns
  have hpc : (ReplayEngine.replay lines steps).1.2 = .returned := by
    injection hreplay.symm.trans hreturned with hfeed
    injection hfeed
  have hnostop : .stop ∉ steps := by
    intro hmem
    obtain ⟨l,hl,hlstop⟩ := List.mem_map.mp hmem
    cases l with
    | run stale now => contradiction
    | stop =>
      refine (machine dis).forall_collect (I := fun _ => True) (Q := fun l => l ≠ FeedStep.stop)
        (fun _ _ _ _ => trivial) ?_ trivial .stop hl rfl
      rintro s turn hturn - l hl rfl
      exact stop_not_mem_stepsOf (fun h => hstop (h ▸ hturn)) hl
  have hexhausted := (ReplayEngine.unstopped_replay lines hnostop).exhausted (by rw [hpc]; rfl)
  have haccounted := ((ReplayEngine.reading_iff_along lines steps).mpr
    (ReplayEngine.along_of_acceptable steps hlines)).accounted
  rw [ReplayEngine.accounted, hpc, ReplayEngine.remaining, hexhausted] at haccounted
  have hrows' : rows = (ReplayEngine.replay lines steps).2 := hrows
  simpa [hrows', RunPc.inFlight] using haccounted

/-- Both threads are started, then each of them pushes. -/
def onePushEach : List HybridTurn :=
  List.replicate 3 .run ++ List.replicate 3 (.feed 0 blankEvent 5) ++
    List.replicate 9 (.feed 1 blankEvent 6)

theorem hybrid_stream_onePushEach :
    let out := (machine (fun _ => 1/4)).run (hybridMode (some ["B,100,1,1,0".toList])) onePushEach
    let live := pushedBy 0 out.2
    let rows := pushedBy 1 out.2
    (∀ p ∈ out.2, p.1 < 2) ∧
      live.map MarketDataEvent.price =
        (List.range live.length).map (fun k => WebSocketClient.walk (fun _ => 1/4) (k+1)) ∧
      rows <+: ["B,100,1,1,0".toList].filterMap rowEvent ∧
      (.stop ∉ onePushEach → (∃ engine, out.1.feeds[1]? = some (.replay engine .returned)) →
        rows = ["B,100,1,1,0".toList].filterMap rowEvent) :=
  hybrid_stream _ (by decide +kernel) _

end HybridFeed
end HftEngine.Feed
