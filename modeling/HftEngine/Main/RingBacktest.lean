import HftEngine.Core.RingReturns
import HftEngine.Main.Backtest
import HftEngine.Replay.Stopping

/-! The three threads of main.cpp on the ring buffer itself, where a push or a pop is as many steps
as it has loads and stores, and the steps of the threads fall between each other. The backtest with
one step for each call is what remains of it as long as no push is overtaken. -/
namespace HftEngine.Main
open HftEngine.Core Strategy Fifo Replay

/-- `threads` is the rest of the program; nothing is in the queue that it has. -/
structure RingBacktest (σ : Type) where
  ring : RingBuffer Event
  threads : Backtest σ

namespace RingBacktest
variable {σ : Type}

def init (strategy : σ) (maxPosition : ℚ) (file : Option (List Line)) : RingBacktest σ where
  ring := RingBuffer.init
  threads := .init strategy maxPosition file

/-- The feed thread in its loop, or in the push of a row. -/
def feedStep (stale : MarketDataEvent) (s : RingBacktest σ) : RingBacktest σ × List (Op Event) :=
  let after := s.threads.replay.runStep stale s.threads.feedPc
  let returned : Backtest σ :=
    { s.threads with
      replay := after.1
      feedPc := after.2 }
  match s.threads.feedPc with
  | .pushing md =>
    let next := s.ring.proceed 1024 .feed (.push .feed (.marketData md))
    ({ ring := next.1
       threads := if (next.1.pc .feed).isIdle then returned else s.threads },
      next.2)
  | _ => ({ s with threads := returned },[])

/-- The processor thread in a pop, in a push of a handler, or in neither. -/
def processorStep (S : StrategyApi σ) (clock : Clock) (s : RingBacktest σ) :
    RingBacktest σ × List (Op Event) :=
  match s.threads.processorPc with
  | .popping batch =>
    let next := s.ring.proceed 1024 .processor .pop
    let pc : ProcessorPc := match popped next.2 with
      | [] => .afterEmpty batch
      | event :: _ => .afterPop (batch ++ [event])
    ({ ring := next.1
       threads := if (next.1.pc .processor).isIdle then { s.threads with processorPc := pc }
         else s.threads },
      [])
  | .handling (event :: pushes) batch =>
    let next := s.ring.proceed 1024 .processor (.push .processor event)
    ({ ring := next.1
       threads := if (next.1.pc .processor).isIdle then
           { s.threads with processorPc := .handling pushes batch }
         else s.threads },
      next.2)
  | _ =>
    let next := s.threads.processorStep S clock
    ({ s with threads := next.1 },next.2)

def step (S : StrategyApi σ) (s : RingBacktest σ) (turn : Backtest.Turn) :
    RingBacktest σ × List (Op Event) :=
  if s.threads.feedPc.isThrown then (s,[])
  else match turn with
  | .feed stale => s.feedStep stale
  | .processor clock => s.processorStep S clock
  | .ui shouldClose => ({ s with threads := s.threads.uiStep shouldClose },[])

def machine (S : StrategyApi σ) : Machine (RingBacktest σ) Backtest.Turn (Op Event) := ⟨step S⟩

def run (S : StrategyApi σ) (s : RingBacktest σ) (turns : List Backtest.Turn) :
    RingBacktest σ × List (Op Event) := (machine S).run s turns

/-- The backtest with what is stored as its queue. -/
def atomic (s : RingBacktest σ) : Backtest σ := { s.threads with queue := s.ring.stored 1024 }

/-- The ring buffer is a queue, no push in progress has been overtaken, and a thread that is in a
call is where it makes that call. -/
structure Consistent (s : RingBacktest σ) : Prop where
  queue : ∃ xs tr, s.ring.Queue 1024 xs tr
  undisturbed : s.ring.Undisturbed
  feed : s.ring.pc .feed = .idle ∨
    ∃ md, s.threads.feedPc = .pushing md ∧ (s.ring.pc .feed).Pushing (.marketData md)
  processor : s.ring.pc .processor = .idle ∨
    (∃ batch, s.threads.processorPc = .popping batch ∧ (s.ring.pc .processor).IsPop) ∨
    ∃ event pushes batch, s.threads.processorPc = .handling (event :: pushes) batch ∧
      (s.ring.pc .processor).Pushing event

theorem consistent_init (strategy : σ) (maxPosition : ℚ) (file : Option (List Line)) :
    Consistent (init strategy maxPosition file) :=
  ⟨⟨[],[],RingBuffer.queue_init (by decide)⟩,⟨trivial,trivial⟩,.inl rfl,.inl rfl⟩

/-- The step overtakes no push in progress. -/
def OvertakesNothing (S : StrategyApi σ) (s : RingBacktest σ) (turn : Backtest.Turn) : Prop :=
  (step S s turn).1.ring.Undisturbed

instance (S : StrategyApi σ) (s : RingBacktest σ) (turn : Backtest.Turn) :
    Decidable (OvertakesNothing S s turn) :=
  inferInstanceAs (Decidable (step S s turn).1.ring.Undisturbed)

/-- A step that stutters for the backtest, or is its step. -/
def Refines (s : RingBacktest σ) (next : RingBacktest σ × List (Op Event))
    (atomicNext : Backtest σ × List (Op Event)) : Prop :=
  Consistent next.1 ∧ (next.1.atomic = s.atomic ∧ next.2 = [] ∨ (next.1.atomic,next.2) = atomicNext)

section Step
variable (S : StrategyApi σ) {s : RingBacktest σ} {xs : List Event} {tr : List (Op Event)}

theorem atomic_eq (h : s.ring.Queue 1024 xs tr) : s.atomic = { s.threads with queue := xs } := by
  rw [atomic, h.stored_eq]

/-- A push on the ring buffer goes on, or returns like a push on the queue. -/
theorem Consistent.push (h : Consistent s) {t : Thread} {event : Event}
    (hcall : s.ring.pc t = .idle ∨ (s.ring.pc t).Pushing event)
    (hnext : (s.ring.proceed 1024 t (.push t event)).1.Undisturbed) :
    let next := s.ring.proceed 1024 t (.push t event)
    (next.1.pc t).Pushing event ∧ next.2 = [] ∧ (∃ tr, next.1.Queue 1024 s.atomic.queue tr) ∨
      next.1.pc t = .idle ∧ next.2 = (s.atomic.pushed [event]).2 ∧
        ∃ tr, next.1.Queue 1024 (s.atomic.pushed [event]).1 tr := by
  intro next
  obtain ⟨xs,tr,hqueue⟩ := h.queue
  obtain ⟨ys,hqueue',hstored⟩ := hqueue.proceed_queue hnext
  have hxs : s.atomic.queue = xs := hqueue.stored_eq
  have hpushed : s.atomic.pushed [event] =
      (xs ++ accepted [.push event (decide (xs.length < 1023))],
        [.push event (decide (xs.length < 1023))]) := by
    rw [Backtest.pushed, hxs]
    by_cases hroom : xs.length < 1023 <;> simp [pushAll, Room.capacity, hroom]
  rw [hpushed, hxs]
  obtain ⟨hgoes,hsilent⟩ | ⟨hidle,hreturns⟩ := hqueue.proceed_push h.undisturbed hcall
  · left
    rw [hsilent, accepted_nil, popped_nil, List.append_nil, List.nil_append] at hstored
    rw [← hstored] at hqueue'
    exact ⟨hgoes,hsilent,_,hqueue'⟩
  · right
    rw [hreturns, popped_push, popped_nil, List.nil_append] at hstored
    rw [← hstored] at hqueue'
    exact ⟨hidle,hreturns,_,hqueue'⟩

/-- A pop on the ring buffer goes on, or returns like a pop on the queue. -/
theorem Consistent.pop (h : Consistent s)
    (hcall : s.ring.pc .processor = .idle ∨ (s.ring.pc .processor).IsPop)
    (hnext : (s.ring.proceed 1024 .processor .pop).1.Undisturbed) :
    let next := s.ring.proceed 1024 .processor .pop
    (next.1.pc .processor).IsPop ∧ (∃ tr, next.1.Queue 1024 s.atomic.queue tr) ∨
      next.1.pc .processor = .idle ∧ popped next.2 = s.atomic.queue.head?.toList ∧
        ∃ tr, next.1.Queue 1024 s.atomic.queue.tail tr := by
  intro next
  obtain ⟨xs,tr,hqueue⟩ := h.queue
  obtain ⟨ys,hqueue',hstored⟩ := hqueue.proceed_queue hnext
  have hxs : s.atomic.queue = xs := hqueue.stored_eq
  rw [hxs]
  obtain ⟨hgoes,hsilent⟩ | ⟨hidle,hreturns⟩ := hqueue.proceed_pop hcall
  · left
    rw [hsilent, accepted_nil, popped_nil, List.append_nil, List.nil_append] at hstored
    rw [← hstored] at hqueue'
    exact ⟨hgoes,_,hqueue'⟩
  · right
    cases xs with
    | nil =>
      rw [hreturns] at hstored
      obtain rfl : [] = ys := hstored
      exact ⟨hidle,by rw [hreturns]; rfl,_,hqueue'⟩
    | cons event rest =>
      obtain rfl : rest = ys := by
        rw [hreturns] at hstored
        simpa using hstored
      exact ⟨hidle,by rw [hreturns]; rfl,_,hqueue'⟩

/-- The feed thread makes a step of a push, or one outside of it. -/
theorem feedStep_refines (h : Consistent s) (stale : MarketDataEvent)
    (hnext : (s.feedStep stale).1.ring.Undisturbed) :
    Refines s (s.feedStep stale) (s.atomic.feedStep stale) := by
  by_cases hpushing : ∃ md, s.threads.feedPc = .pushing md
  · obtain ⟨md,hpc⟩ := hpushing
    have hcall : s.ring.pc .feed = .idle ∨ (s.ring.pc .feed).Pushing (.marketData md) := by
      obtain hidle | ⟨md',hpc',hcall⟩ := h.feed
      · exact .inl hidle
      · rw [hpc] at hpc'
        obtain rfl := RunPc.pushing.inj hpc'
        exact .inr hcall
    have hring : (s.feedStep stale).1.ring =
        (s.ring.proceed 1024 .feed (.push .feed (.marketData md))).1 := by
      simp only [feedStep, hpc]
    have hother : (s.ring.proceed 1024 .feed (.push .feed (.marketData md))).1.pc .processor =
        s.ring.pc .processor := RingBuffer.proceed_pc_other (t := .feed) rfl
    have hprocessor := h.processor
    rw [← hother] at hprocessor
    rw [hring] at hnext
    obtain ⟨hgoes,hsilent,tr,hqueue⟩ | ⟨hidle,hreturns,tr,hqueue⟩ := h.push hcall hnext
    · have hstep : s.feedStep stale =
          (⟨(s.ring.proceed 1024 .feed (.push .feed (.marketData md))).1,s.threads⟩,[]) := by
        simp [feedStep, hpc, hgoes.not_idle, hsilent]
      rw [hstep]
      refine ⟨⟨⟨_,tr,hqueue⟩,hnext,.inr ⟨md,hpc,hgoes⟩,hprocessor⟩,.inl ⟨?_,rfl⟩⟩
      rw [atomic_eq hqueue]
      rfl
    · have hstep : s.feedStep stale =
          (⟨(s.ring.proceed 1024 .feed (.push .feed (.marketData md))).1,
            { s.threads with
              replay := (s.threads.replay.runStep stale (.pushing md)).1
              feedPc := (s.threads.replay.runStep stale (.pushing md)).2 }⟩,
            (s.atomic.pushed [.marketData md]).2) := by
        simp [feedStep, hpc, hidle, Pc.isIdle, hreturns]
      rw [hstep]
      refine ⟨⟨⟨_,tr,hqueue⟩,hnext,.inl hidle,hprocessor⟩,.inr ?_⟩
      have hthreads : s.atomic.feedPc = .pushing md := hpc
      rw [atomic_eq hqueue, Backtest.feedStep, hthreads]
      rfl
  · have hidle : s.ring.pc .feed = .idle := by
      obtain hidle | ⟨md,hpc,-⟩ := h.feed
      · exact hidle
      · exact absurd ⟨md,hpc⟩ hpushing
    have hstep : s.feedStep stale =
        ({ s with threads := { s.threads with
            replay := (s.threads.replay.runStep stale s.threads.feedPc).1
            feedPc := (s.threads.replay.runStep stale s.threads.feedPc).2 } },[]) := by
      unfold feedStep
      cases hpc : s.threads.feedPc with
      | pushing md => exact absurd ⟨md,hpc⟩ hpushing
      | _ => rfl
    have hflight : s.atomic.feedPc.inFlight = [] := by
      change s.threads.feedPc.inFlight = []
      cases hpc : s.threads.feedPc with
      | pushing md => exact absurd ⟨md,hpc⟩ hpushing
      | _ => rfl
    rw [hstep]
    refine ⟨⟨h.queue,h.undisturbed,.inl hidle,h.processor⟩,.inr ?_⟩
    rw [Backtest.feedStep, hflight]
    rfl

/-- The processor thread makes a step of a pop. -/
theorem popStep_refines (h : Consistent s) {batch : List Event}
    (hpc : s.threads.processorPc = .popping batch) (clock : Clock)
    (hnext : (s.processorStep S clock).1.ring.Undisturbed) :
    Refines s (s.processorStep S clock) (s.atomic.processorStep S clock) := by
  have hcall : s.ring.pc .processor = .idle ∨ (s.ring.pc .processor).IsPop := by
    obtain hidle | ⟨-,-,hcall⟩ | ⟨event,pushes,batch',hpc',-⟩ := h.processor
    · exact .inl hidle
    · exact .inr hcall
    · rw [hpc] at hpc'
      contradiction
  have hring : (s.processorStep S clock).1.ring = (s.ring.proceed 1024 .processor .pop).1 := by
    simp only [processorStep, hpc]
  have hother : (s.ring.proceed 1024 .processor .pop).1.pc .feed = s.ring.pc .feed :=
    RingBuffer.proceed_pc_other (t := .processor) rfl
  have hfeed := h.feed
  rw [← hother] at hfeed
  rw [hring] at hnext
  have hthreads : s.atomic.processorPc = .popping batch := hpc
  obtain ⟨hgoes,tr,hqueue⟩ | ⟨hidle,hreturns,tr,hqueue⟩ := h.pop hcall hnext
  · have hstep : s.processorStep S clock =
        (⟨(s.ring.proceed 1024 .processor .pop).1,s.threads⟩,[]) := by
      simp [processorStep, hpc, hgoes.not_idle]
    rw [hstep]
    refine ⟨⟨⟨_,tr,hqueue⟩,hnext,hfeed,.inr (.inl ⟨batch,hpc,hgoes⟩)⟩,.inl ⟨?_,rfl⟩⟩
    rw [atomic_eq hqueue]
    rfl
  · cases hstored : s.atomic.queue with
    | nil =>
      rw [hstored] at hreturns hqueue
      have hstep : s.processorStep S clock = (⟨(s.ring.proceed 1024 .processor .pop).1,
          { s.threads with processorPc := .afterEmpty batch }⟩,[]) := by
        simp [processorStep, hpc, hidle, Pc.isIdle, hreturns]
      rw [hstep]
      refine ⟨⟨⟨_,tr,hqueue⟩,hnext,hfeed,.inl hidle⟩,.inr ?_⟩
      rw [atomic_eq hqueue, Backtest.processorStep, hthreads]
      simp only [Backtest.popNext, hstored]
      rw [List.tail_nil, ← hstored]
      rfl
    | cons event rest =>
      rw [hstored] at hreturns hqueue
      have hstep : s.processorStep S clock = (⟨(s.ring.proceed 1024 .processor .pop).1,
          { s.threads with processorPc := .afterPop (batch ++ [event]) }⟩,[]) := by
        simp [processorStep, hpc, hidle, Pc.isIdle, hreturns]
      rw [hstep]
      refine ⟨⟨⟨_,tr,hqueue⟩,hnext,hfeed,.inl hidle⟩,.inr ?_⟩
      rw [atomic_eq hqueue, Backtest.processorStep, hthreads]
      simp only [Backtest.popNext, hstored]
      rfl

/-- The processor thread makes a step of a push of a handler. -/
theorem pushStep_refines (h : Consistent s) {event : Event} {pushes batch : List Event}
    (hpc : s.threads.processorPc = .handling (event :: pushes) batch) (clock : Clock)
    (hnext : (s.processorStep S clock).1.ring.Undisturbed) :
    Refines s (s.processorStep S clock) (s.atomic.processorStep S clock) := by
  have hcall : s.ring.pc .processor = .idle ∨ (s.ring.pc .processor).Pushing event := by
    obtain hidle | ⟨batch',hpc',-⟩ | ⟨event',pushes',batch',hpc',hcall⟩ := h.processor
    · exact .inl hidle
    · rw [hpc] at hpc'
      contradiction
    · rw [hpc] at hpc'
      obtain rfl := (List.cons.inj (ProcessorPc.handling.inj hpc').1).1
      exact .inr hcall
  have hring : (s.processorStep S clock).1.ring =
      (s.ring.proceed 1024 .processor (.push .processor event)).1 := by
    simp only [processorStep, hpc]
  have hother : (s.ring.proceed 1024 .processor (.push .processor event)).1.pc .feed =
      s.ring.pc .feed := RingBuffer.proceed_pc_other (t := .processor) rfl
  have hfeed := h.feed
  rw [← hother] at hfeed
  rw [hring] at hnext
  obtain ⟨hgoes,hsilent,tr,hqueue⟩ | ⟨hidle,hreturns,tr,hqueue⟩ := h.push hcall hnext
  · have hstep : s.processorStep S clock =
        (⟨(s.ring.proceed 1024 .processor (.push .processor event)).1,s.threads⟩,[]) := by
      simp [processorStep, hpc, hgoes.not_idle, hsilent]
    rw [hstep]
    refine ⟨⟨⟨_,tr,hqueue⟩,hnext,hfeed,.inr (.inr ⟨event,pushes,batch,hpc,hgoes⟩)⟩,.inl ⟨?_,rfl⟩⟩
    rw [atomic_eq hqueue]
    rfl
  · have hstep : s.processorStep S clock =
        (⟨(s.ring.proceed 1024 .processor (.push .processor event)).1,
          { s.threads with processorPc := .handling pushes batch }⟩,
          (s.atomic.pushed [event]).2) := by
      simp [processorStep, hpc, hidle, Pc.isIdle, hreturns]
    rw [hstep]
    refine ⟨⟨⟨_,tr,hqueue⟩,hnext,hfeed,.inl hidle⟩,.inr ?_⟩
    have hthreads : s.atomic.processorPc = .handling (event :: pushes) batch := hpc
    rw [atomic_eq hqueue, Backtest.processorStep, hthreads]
    rfl

theorem processorStep_refines (h : Consistent s) (clock : Clock)
    (hnext : (s.processorStep S clock).1.ring.Undisturbed) :
    Refines s (s.processorStep S clock) (s.atomic.processorStep S clock) := by
  -- outside of a call the step is the same, since it does not look at the queue
  have houtside : (∀ batch, s.threads.processorPc ≠ .popping batch) →
      (∀ event pushes batch, s.threads.processorPc ≠ .handling (event :: pushes) batch) →
      s.processorStep S clock = ({ s with threads := (s.threads.processorStep S clock).1 },
        (s.threads.processorStep S clock).2) →
      ({ (s.threads.processorStep S clock).1 with queue := s.ring.stored 1024 },
        (s.threads.processorStep S clock).2) = s.atomic.processorStep S clock →
      Refines s (s.processorStep S clock) (s.atomic.processorStep S clock) := by
    intro hpop hpush hstep hsame
    have hidle : s.ring.pc .processor = .idle := by
      obtain hidle | ⟨batch,hpc,-⟩ | ⟨event,pushes,batch,hpc,-⟩ := h.processor
      · exact hidle
      · exact absurd hpc (hpop batch)
      · exact absurd hpc (hpush event pushes batch)
    have hfeed : (s.threads.processorStep S clock).1.feedPc = s.threads.feedPc := by
      unfold Backtest.processorStep Backtest.popNext
      repeat' split
      all_goals rfl
    rw [hstep]
    refine ⟨⟨h.queue,h.undisturbed,?_,.inl hidle⟩,.inr hsame⟩
    dsimp only
    rw [hfeed]
    exact h.feed
  cases hpc : s.threads.processorPc with
  | popping batch => exact popStep_refines S h hpc clock hnext
  | testing =>
    refine houtside (by simp [hpc]) (by simp [hpc]) (by simp only [processorStep, hpc]) ?_
    have hthreads : s.atomic.processorPc = .testing := hpc
    rw [Backtest.processorStep, Backtest.processorStep, hthreads, hpc]
    rfl
  | returned =>
    refine houtside (by simp [hpc]) (by simp [hpc]) (by simp only [processorStep, hpc]) ?_
    have hthreads : s.atomic.processorPc = .returned := hpc
    rw [Backtest.processorStep, Backtest.processorStep, hthreads, hpc]
    rfl
  | handling pushes batch =>
    cases pushes with
    | cons event pushes => exact pushStep_refines S h hpc clock hnext
    | nil =>
      have hthreads : s.atomic.processorPc = .handling [] batch := hpc
      refine houtside (by simp [hpc]) (by simp [hpc]) (by simp only [processorStep, hpc]) ?_
      rw [Backtest.processorStep, Backtest.processorStep, hthreads, hpc]
      cases batch <;> rfl

/-- The main thread does not look at the queue. -/
theorem uiStep_with_queue (b : Backtest σ) (queue : List Event) (shouldClose : Bool) :
    ({ b with queue := queue } : Backtest σ).uiStep shouldClose =
      { b.uiStep shouldClose with queue := queue } := by
  obtain ⟨stored,running,replay,feedPc,processorPc,uiPc,complete,components⟩ := b
  cases uiPc with
  | asking =>
    simp only [Backtest.uiStep]
    split <;> rfl
  | joiningFeed =>
    simp only [Backtest.uiStep]
    split <;> rfl
  | joiningProcessor =>
    simp only [Backtest.uiStep]
    split <;> rfl
  | _ => rfl

theorem uiStep_refines (h : Consistent s) (shouldClose : Bool) :
    Refines s ({ s with threads := s.threads.uiStep shouldClose },[])
      (s.atomic.uiStep shouldClose,[]) := by
  refine ⟨⟨h.queue,h.undisturbed,?_,?_⟩,.inr ?_⟩
  · rw [Backtest.uiStep_feedPc]
    exact h.feed
  · rw [Backtest.uiStep_processorPc]
    exact h.processor
  · have hsame : s.atomic.uiStep shouldClose =
        { s.threads.uiStep shouldClose with queue := s.ring.stored 1024 } :=
      uiStep_with_queue s.threads _ shouldClose
    rw [hsame]
    rfl

theorem step_refines (h : Consistent s) (turn : Backtest.Turn)
    (hnext : OvertakesNothing S s turn) :
    Refines s (step S s turn) (Backtest.step S s.atomic turn) := by
  have hpc : s.atomic.feedPc = s.threads.feedPc := rfl
  unfold OvertakesNothing step at hnext
  unfold step Backtest.step
  rw [hpc]
  by_cases hthrown : s.threads.feedPc.isThrown = true
  · rw [if_pos hthrown, if_pos hthrown]
    exact ⟨h,.inl ⟨rfl,rfl⟩⟩
  · rw [if_neg hthrown] at hnext
    rw [if_neg hthrown, if_neg hthrown]
    cases turn with
    | feed stale => exact feedStep_refines h stale hnext
    | processor clock => exact processorStep_refines S h clock hnext
    | ui shouldClose => exact uiStep_refines h shouldClose

/-- On the ring buffer, with a step for each load and store, the program does what it does with
one step for each push and pop, in every run in which no push is overtaken by another one: the
same threads, components and queue, after the same pushes and pops. -/
theorem ring_refines (strategy : σ) (maxPosition : ℚ) (file : Option (List Line))
    {turns : List Backtest.Turn}
    (hturns : (machine S).Along (OvertakesNothing S) (init strategy maxPosition file) turns) :
    let final := run S (init strategy maxPosition file) turns
    ∃ turns', turns'.Sublist turns ∧ (final.1.atomic,final.2) =
      Backtest.run S (Backtest.init strategy maxPosition file) turns' :=
  (machine S).run_stutters (N := Backtest.machine S) (f := atomic)
    (fun _ turn h hl => (step_refines S h turn hl).1)
    (fun _ turn h hl => (step_refines S h turn hl).2)
    (consistent_init strategy maxPosition file) hturns

end Step

/-- The feed thread pushes a row while the processor thread looks for events. -/
def feedAndPop : List Backtest.Turn :=
  (List.replicate 16 [.feed blankEvent,.processor (fun _ => 0)]).flatten

theorem ring_refines_feedAndPop :
    let final := run StrategyApi.silent (init () 100 (some ["B,100,1,1,0".toList])) feedAndPop
    ∃ turns', turns'.Sublist feedAndPop ∧ (final.1.atomic,final.2) =
      Backtest.run StrategyApi.silent (Backtest.init () 100 (some ["B,100,1,1,0".toList])) turns' :=
  ring_refines StrategyApi.silent () 100 _ (by decide +kernel)

end RingBacktest
end HftEngine.Main
