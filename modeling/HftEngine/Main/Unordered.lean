import HftEngine.Main.Backtest
import Mathlib.Data.Multiset.AddSub

/-! The event system without its queue. Events come in from outside, are handled one at a time in
any order, and may get lost before they are handled. The event loop and the three threads of a
backtest are both such systems, whatever their interleaving and whatever the queue refuses. -/
namespace HftEngine.Main
open HftEngine.Core Strategy Fifo

/-- The components, events in flight and handled events that can come about when events with `J`
come in from outside. -/
inductive Unordered {σ : Type} (S : StrategyApi σ) (J : Event → Prop) (strategy : σ)
    (maxPosition : ℚ) : Components σ → Multiset Event → List Event → Prop
  | init : Unordered S J strategy maxPosition (.init strategy maxPosition) 0 []
  | input {c : Components σ} {p : Multiset Event} {done : List Event} (event : Event)
    (hevent : J event) (h : Unordered S J strategy maxPosition c p done) :
    Unordered S J strategy maxPosition c (event ::ₘ p) done
  | lose {c : Components σ} {p q : Multiset Event} {done : List Event} (hle : q ≤ p)
    (h : Unordered S J strategy maxPosition c p done) :
    Unordered S J strategy maxPosition c q done
  | handle {c : Components σ} {p : Multiset Event} {done : List Event} (clock : Clock)
    (event : Event) (h : Unordered S J strategy maxPosition c (event ::ₘ p) done) :
    Unordered S J strategy maxPosition (c.dispatch S clock event).1
      (p + (c.dispatch S clock event).2) (done ++ [event])

namespace Unordered
variable {σ : Type} {S : StrategyApi σ} {J : Event → Prop} {strategy : σ} {maxPosition : ℚ}
  {c : Components σ} {p : Multiset Event} {done : List Event}

theorem inputs (h : Unordered S J strategy maxPosition c p done) {events : List Event}
    (hevents : ∀ event ∈ events, J event) :
    Unordered S J strategy maxPosition c (p + events) done := by
  induction events with
  | nil =>
    rw [Multiset.coe_nil, Multiset.add_zero]
    exact h
  | cons event events ih =>
    rw [← Multiset.cons_coe, Multiset.add_cons]
    exact .input event (hevents event List.mem_cons_self)
      (ih (fun e he => hevents e (List.mem_cons_of_mem _ he)))

/-- The same events in flight, or fewer of them. -/
theorem of_sublist {events events' : List Event}
    (h : Unordered S J strategy maxPosition c events done) (hsub : events'.Subperm events) :
    Unordered S J strategy maxPosition c events' done :=
  .lose (Multiset.coe_le.mpr hsub) h

/-- What every handled event moves by its own measure is the measure of all handled events. -/
theorem read_eq {A : Type*} [Add A] {r : Components σ → A} {w : List Event → A}
    (happend : ∀ xs ys, w (xs ++ ys) = w xs + w ys)
    (hstep : ∀ c event clock, r (c.dispatch S clock event).1 = r c + w [event])
    (hinit : r (.init strategy maxPosition) = w [])
    (h : Unordered S J strategy maxPosition c p done) : r c = w done := by
  induction h with
  | init => exact hinit
  | input _ _ _ ih => exact ih
  | lose _ _ ih => exact ih
  | handle clock event _ ih => rw [hstep, ih, happend]

end Unordered

namespace EventLoop
variable {σ : Type} {S : StrategyApi σ}

/-- The event loop loses what the queue refuses and handles the rest in order. -/
theorem unordered {J : Event → Prop} (strategy : σ) (maxPosition : ℚ) {labels : List Label}
    (hlabels : ∀ l ∈ labels, ∀ event, l.action.input = some event → J event) :
    Unordered S J strategy maxPosition (run S (init strategy maxPosition) labels).1.components
      (run S (init strategy maxPosition) labels).1.pending
      (popped (run S (init strategy maxPosition) labels).2) := by
  refine run_invariant_of
    (I := fun c p tr => Unordered S J strategy maxPosition c (p : Multiset Event) (popped tr))
    ?_ ?_ .init hlabels (meets_true S _ labels)
  · intro c p tr event ok hevent ih
    have hone : ∀ e ∈ [event], J e := List.forall_mem_singleton.mpr hevent
    have hgrown := ih.inputs hone
    rw [Multiset.coe_add] at hgrown
    rw [popped_append, popped_push, popped_nil, List.append_nil]
    refine hgrown.of_sublist (List.Sublist.subperm ?_)
    exact (List.append_sublist_append_left p).mpr (accepted_sublist [Op.push event ok])
  · intro c event p tr clock ops ih _ hattempted hpopped
    rw [← Multiset.cons_coe] at ih
    have hhandled := Unordered.handle clock event ih
    rw [Multiset.coe_add] at hhandled
    rw [popped_append, popped_pop, hpopped]
    refine hhandled.of_sublist (List.Sublist.subperm ?_)
    exact (List.append_sublist_append_left p).mpr (sublist_of_attempted hattempted)

end EventLoop

namespace Backtest
variable {σ : Type}

/-- A tick of the feed. -/
def IsTick : Event → Prop
  | .marketData _ => True
  | _ => False

theorem isInput_of_isTick {event : Event} (h : IsTick event) : IsInput event := by
  cases event <;> trivial

/-- Events that are popped or queued, or that the current handler is about to push. -/
def inFlight (s : Backtest σ) : List Event :=
  s.processorPc.batch ++ s.processorPc.pushes ++ s.queue

theorem uiStep_inFlight (shouldClose : Bool) (s : Backtest σ) :
    (s.uiStep shouldClose).inFlight = s.inFlight := by
  rw [inFlight, uiStep_processorPc, uiStep_queue]
  rfl

section
variable (S : StrategyApi σ) {strategy : σ} {maxPosition : ℚ} {s : Backtest σ} {done : List Event}

/-- A feed pushes ticks, which the queue may refuse. -/
theorem pushed_unordered (mds : List MarketDataEvent)
    (h : Unordered S IsTick strategy maxPosition s.components s.inFlight done) :
    Unordered S IsTick strategy maxPosition s.components
      (s.processorPc.batch ++ s.processorPc.pushes ++ (s.pushed (mds.map .marketData)).1)
      (done ++ popped (s.pushed (mds.map .marketData)).2) := by
  have hticks : ∀ event ∈ mds.map Event.marketData, IsTick event := by
    intro event hevent
    obtain ⟨md,-,rfl⟩ := List.mem_map.mp hevent
    trivial
  have hgrown := h.inputs hticks
  rw [Multiset.coe_add] at hgrown
  have hsub : (s.processorPc.batch ++ s.processorPc.pushes ++
      (s.pushed (mds.map .marketData)).1).Sublist (s.inFlight ++ mds.map Event.marketData) := by
    simp only [inFlight, pushed_queue, List.append_assoc]
    iterate 3 refine List.Sublist.append_left ?_ _
    exact sublist_of_attempted (attempted_pushed s _)
  rw [popped_pushed, List.append_nil]
  exact hgrown.of_sublist hsub.subperm

theorem feedStep_unordered (stale : MarketDataEvent)
    (h : Unordered S IsTick strategy maxPosition s.components s.inFlight done) :
    Unordered S IsTick strategy maxPosition (s.feedStep stale).1.components
      (s.feedStep stale).1.inFlight (done ++ popped (s.feedStep stale).2) :=
  pushed_unordered S s.feedPc.inFlight h

/-- The processor thread moves events, handles one, or makes one of the pushes of a handler. -/
theorem processorStep_unordered (clock : Clock)
    (h : Unordered S IsTick strategy maxPosition s.components s.inFlight done) :
    Unordered S IsTick strategy maxPosition (s.processorStep S clock).1.components
      (s.processorStep S clock).1.inFlight (done ++ popped (s.processorStep S clock).2) := by
  cases hpc : s.processorPc with
  | testing =>
    simp only [inFlight, hpc, ProcessorPc.batch, ProcessorPc.pushes] at h
    simpa [processorStep, hpc, inFlight] using h
  | popping batch =>
    simp only [inFlight, hpc, ProcessorPc.batch, ProcessorPc.pushes] at h
    cases hqueue : s.queue with
    | nil => simpa [processorStep, hpc, popNext, hqueue, inFlight] using h
    | cons event rest => simpa [processorStep, hpc, popNext, hqueue, inFlight] using h
  | returned =>
    simp only [processorStep, hpc, popped_nil, List.append_nil]
    exact h
  | handling pushes batch =>
    simp only [inFlight, hpc, ProcessorPc.batch, ProcessorPc.pushes] at h
    cases pushes with
    | cons event pushes =>
      simp only [processorStep, hpc, inFlight, ProcessorPc.batch, ProcessorPc.pushes,
        popped_pushed, List.append_nil, pushed_queue]
      have haccepted : (accepted (s.pushed [event]).2).Sublist [event] :=
        sublist_of_attempted (attempted_pushed s [event])
      have hfewer := ((haccepted.append_left s.queue).append_left (batch ++ pushes)).subperm
      have hmoved : (batch ++ pushes ++ (s.queue ++ [event])).Perm
          (batch ++ event :: pushes ++ s.queue) := by
        simp only [List.append_assoc, List.cons_append]
        refine List.Perm.append_left batch ?_
        rw [← List.append_assoc]
        exact List.perm_append_singleton event (pushes ++ s.queue)
      exact h.of_sublist (hfewer.trans hmoved.subperm)
    | nil =>
      cases batch with
      | nil => simpa [processorStep, hpc, inFlight, ProcessorPc.batch, ProcessorPc.pushes] using h
      | cons event batch =>
        simp only [processorStep, hpc, inFlight, ProcessorPc.batch, ProcessorPc.pushes,
          popped_pop, popped_nil]
        simp only [List.append_nil, List.cons_append, ← Multiset.cons_coe] at h
        have hhandled := Unordered.handle clock event h
        rw [Multiset.coe_add] at hhandled
        refine hhandled.of_sublist (List.Perm.subperm ?_)
        rw [List.append_assoc, List.append_assoc]
        exact List.Perm.append_left batch List.perm_append_comm

theorem step_unordered (turn : Turn)
    (h : Unordered S IsTick strategy maxPosition s.components s.inFlight done) :
    Unordered S IsTick strategy maxPosition (step S s turn).1.components
      (step S s turn).1.inFlight (done ++ popped (step S s turn).2) := by
  have hstay : Unordered S IsTick strategy maxPosition s.components s.inFlight
      (done ++ popped []) := by
    rw [popped_nil, List.append_nil]
    exact h
  cases hthrown : s.feedPc.isThrown with
  | true =>
    rw [step_thrown S hthrown]
    exact hstay
  | false =>
    cases turn with
    | feed stale =>
      rw [step_feed S hthrown]
      exact feedStep_unordered S stale h
    | processor clock =>
      rw [step_processor S hthrown]
      exact processorStep_unordered S clock h
    | ui shouldClose =>
      rw [step_ui S hthrown, uiStep_components, uiStep_inFlight]
      exact hstay

/-- Whatever the file and the interleaving of the three threads, a backtest is an event system into
which only ticks come. -/
theorem unordered (strategy : σ) (maxPosition : ℚ) (file : Option (List Replay.Line))
    (turns : List Turn) :
    Unordered S IsTick strategy maxPosition
      (run S (init strategy maxPosition file) turns).1.components
      (run S (init strategy maxPosition file) turns).1.inFlight
      (popped (run S (init strategy maxPosition file) turns).2) := by
  have hinit : Unordered S IsTick strategy maxPosition
      (init strategy maxPosition file).components (init strategy maxPosition file).inFlight
      (popped ([] : List (Op Event))) := .init
  have hrun := (machine S).run_invariant (P := fun _ _ => True)
    (I := fun s tr => Unordered S IsTick strategy maxPosition s.components s.inFlight (popped tr))
    ?_ hinit ((machine S).along_of_forall (fun _ _ => trivial) _ turns)
  · rw [List.nil_append] at hrun
    exact hrun
  · intro s tr turn h _
    rw [popped_append]
    exact step_unordered S turn h

end
end Backtest
end HftEngine.Main
