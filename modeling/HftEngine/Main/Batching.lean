import HftEngine.Main.History

/-! The batches of the processor thread are not observable. A loop that handles every event as soon
as it is popped shows the same trace, from a queue that also holds what is popped and not handled:
the batch works like up to four more slots. -/
namespace HftEngine.Main
open HftEngine.Core Strategy Fifo

/-- The event loop without batches. -/
structure PlainLoop (σ : Type) where
  queue : List Event
  components : Components σ

namespace PlainLoop
variable {σ : Type}

def init (strategy : σ) (maxPosition : ℚ) : PlainLoop σ := ⟨[],.init strategy maxPosition⟩

def push (room : Room Event) (event : Event) (s : PlainLoop σ) : PlainLoop σ × List (Op Event) :=
  let pushed := pushAll room s.queue [event]
  ({ s with queue := pushed.1 },pushed.2)

/-- Pop an event, if there is one, and run its handlers. -/
def handle (S : StrategyApi σ) (room : Room Event) (clock : Clock) (s : PlainLoop σ) :
    PlainLoop σ × List (Op Event) :=
  match s.queue with
  | [] => (s,[])
  | event :: rest =>
    let handled := s.components.dispatch S clock event
    let pushed := pushAll room rest handled.2
    (⟨pushed.1,handled.1⟩,.pop event :: pushed.2)

def step (S : StrategyApi σ) (s : PlainLoop σ) (l : Label) : PlainLoop σ × List (Op Event) :=
  match l.action with
  | .feed md => s.push l.room (.marketData md)
  | .submit event => s.push l.room event.toEvent
  | .process clock => s.handle S l.room clock

def machine (S : StrategyApi σ) : Machine (PlainLoop σ) Label (Op Event) := ⟨step S⟩

def run (S : StrategyApi σ) (s : PlainLoop σ) (labels : List Label) :
    PlainLoop σ × List (Op Event) := (machine S).run s labels

end PlainLoop

/-- What a queue answers if its first `n` items are not stored in it. -/
def beyond (n : ℕ) (room : Room Event) : Room Event := fun i queue => room i (queue.drop n)

/-- Items in front of the queue that do not count change nothing else. -/
theorem pushAll_beyond (room : Room Event) (front queue events : List Event) :
    pushAll (beyond front.length room) (front ++ queue) events =
      (front ++ (pushAll room queue events).1,(pushAll room queue events).2) := by
  induction events generalizing room queue with
  | nil => rfl
  | cons event events ih =>
    have hok : beyond front.length room 0 (front ++ queue) = room 0 queue := by
      rw [beyond, List.drop_left]
    have hnext : (if room 0 queue then front ++ queue ++ [event] else front ++ queue) =
        front ++ (if room 0 queue then queue ++ [event] else queue) := by
      cases room 0 queue with
      | true => exact List.append_assoc ..
      | false => rfl
    have hshift : (fun i => beyond front.length room (i+1)) =
        beyond front.length (fun i => room (i+1)) := rfl
    simp only [pushAll, hok, hnext, hshift, ih]

theorem beyond_capacity {n : ℕ} (hn : 0 < n) (k : ℕ) :
    beyond k (Room.capacity n) = Room.capacity (n + k) := by
  funext i queue
  simp only [beyond, Room.capacity, List.length_drop, decide_eq_decide]
  omega

namespace EventLoop
variable {σ : Type}

/-- The steps of the plain loop for one of the batched loop: none while the batch is filled. -/
def plainSteps (s : EventLoop σ) (l : Label) : List Label :=
  match l.action with
  | .process _ =>
    if s.handling = true ∧ s.batch ≠ [] then [⟨beyond s.batch.tail.length l.room,l.action⟩] else []
  | _ => [⟨beyond s.batch.length l.room,l.action⟩]

/-- The same components, and all pending events still in the queue. -/
def Unbatched (s : EventLoop σ) (t : PlainLoop σ) : Prop :=
  t.queue = s.pending ∧ t.components = s.components

theorem push_unbatched {s : EventLoop σ} {t : PlainLoop σ} (h : Unbatched s t)
    (room : Room Event) (event : Event) :
    t.push (beyond s.batch.length room) event =
      (⟨s.batch ++ (pushAll room s.queue [event]).1,s.components⟩,
        (pushAll room s.queue [event]).2) := by
  obtain ⟨hqueue,hcomponents⟩ := h
  unfold PlainLoop.push
  rw [hqueue, pending, pushAll_beyond, hcomponents]

/-- A step of the batched loop is one step of the plain loop, or none. -/
theorem step_unbatched (S : StrategyApi σ) (s : EventLoop σ) (t : PlainLoop σ) (l : Label)
    (h : Unbatched s t) :
    Unbatched (step S s l).1 (PlainLoop.run S t (plainSteps s l)).1 ∧
      (step S s l).2 = (PlainLoop.run S t (plainSteps s l)).2 := by
  have hone : ∀ room, PlainLoop.run S t [⟨room,l.action⟩] = PlainLoop.step S t ⟨room,l.action⟩ := by
    intro room
    simp [PlainLoop.run, PlainLoop.machine]
  cases haction : l.action with
  | feed md =>
    have hsteps : plainSteps s l = [⟨beyond s.batch.length l.room,l.action⟩] := by
      simp only [plainSteps, haction]
    rw [hsteps, hone]
    simp only [step, PlainLoop.step, haction, push_unbatched h]
    exact ⟨⟨rfl,rfl⟩,trivial⟩
  | submit event =>
    have hsteps : plainSteps s l = [⟨beyond s.batch.length l.room,l.action⟩] := by
      simp only [plainSteps, haction]
    rw [hsteps, hone]
    simp only [step, PlainLoop.step, haction, push_unbatched h]
    exact ⟨⟨rfl,rfl⟩,trivial⟩
  | process clock =>
    by_cases hhandles : s.handling = true ∧ s.batch ≠ []
    · obtain ⟨event,rest,hbatch⟩ := List.exists_cons_of_ne_nil hhandles.2
      have hsteps : plainSteps s l = [⟨beyond rest.length l.room,l.action⟩] := by
        simp only [plainSteps, haction]
        rw [if_pos hhandles, hbatch, List.tail_cons]
      have hqueue : t.queue = event :: (rest ++ s.queue) := by
        rw [h.1, pending, hbatch, List.cons_append]
      rw [hsteps, hone]
      simp only [step, PlainLoop.step, haction, hhandles.1, if_true, handleNext, hbatch,
        PlainLoop.handle, hqueue, h.2, pushAll_beyond]
      exact ⟨⟨rfl,rfl⟩,trivial⟩
    · have hsteps : plainSteps s l = [] := by
        simp only [plainSteps, haction, if_neg hhandles]
      have hfill : s.handling = false ∨ s.batch = [] := by
        by_contra hnot
        obtain ⟨hh,hb⟩ := not_or.mp hnot
        exact hhandles ⟨by simpa using hh,hb⟩
      obtain ⟨htrace,hpending,hcomponents⟩ := step_fill S s l haction hfill
      rw [hsteps, htrace]
      refine ⟨⟨?_,?_⟩,rfl⟩
      · rw [hpending]
        exact h.1
      · rw [hcomponents]
        exact h.2

/-- The batch holds at most four events, and fewer while it is being filled. -/
def BatchFits (s : EventLoop σ) : Prop :=
  s.batch.length ≤ batchSize ∧ (s.handling = false → s.batch.length < batchSize)

theorem step_batchFits (S : StrategyApi σ) {s : EventLoop σ} (h : s.BatchFits) (l : Label) :
    (step S s l).1.BatchFits := by
  unfold BatchFits at h ⊢
  cases haction : l.action with
  | feed md =>
    simp only [step, haction]
    exact h
  | submit event =>
    simp only [step, haction]
    exact h
  | process clock =>
    simp only [step, haction]
    by_cases hh : s.handling = true
    · rw [if_pos hh]
      unfold handleNext
      cases hb : s.batch with
      | nil => simp [batchSize]
      | cons event rest =>
        rw [hb, List.length_cons] at h
        exact ⟨by dsimp only; omega,fun _ => by dsimp only; omega⟩
    · have hroom := h.2 (by simpa using hh)
      rw [if_neg hh]
      unfold popNext
      cases s.queue with
      | nil => exact ⟨h.1,fun _ => hroom⟩
      | cons event rest =>
        simp only [List.length_append, List.length_singleton, decide_eq_false_iff_not]
        omega

/-- Against the real queue, the plain loop has a queue with up to four more slots. -/
theorem plainSteps_capacity {s : EventLoop σ} (h : s.BatchFits) {l : Label}
    (hl : l.room = Room.capacity 1023) :
    ∀ l' ∈ plainSteps s l, ∃ k ≤ batchSize, l'.room = Room.capacity (1023 + k) := by
  have htail : s.batch.tail.length ≤ batchSize := by
    rw [List.length_tail]
    exact (Nat.sub_le ..).trans h.1
  intro l' hl'
  unfold plainSteps at hl'
  split at hl'
  · split_ifs at hl' with hhandles
    · rw [List.mem_singleton.mp hl', hl, beyond_capacity (by decide)]
      exact ⟨_,htail,rfl⟩
    · exact absurd hl' List.not_mem_nil
  · rw [List.mem_singleton.mp hl', hl, beyond_capacity (by decide)]
    exact ⟨_,h.1,rfl⟩

/-- Every run of the batched loop is a run of the plain one: the same pushes, pops and refusals in
the same order, the same components and the same events pending. If the batched loop runs against
the real queue, the plain one needs at most four slots more. -/
theorem batching_unobservable (S : StrategyApi σ) (strategy : σ) (maxPosition : ℚ)
    (labels : List Label) :
    let batched := run S (init strategy maxPosition) labels
    let plainLabels := (machine S).collect plainSteps (init strategy maxPosition) labels
    let plain := PlainLoop.run S (.init strategy maxPosition) plainLabels
    (batched.2 = plain.2 ∧ batched.1.components = plain.1.components ∧
      batched.1.pending = plain.1.queue) ∧
    ((∀ l ∈ labels, l.room = Room.capacity 1023) →
      ∀ l ∈ plainLabels, ∃ k ≤ batchSize, l.room = Room.capacity (1023 + k)) := by
  have hrefines := (machine S).run_refines (N := PlainLoop.machine S) (R := Unbatched)
    (f := plainSteps) (v := id) (w := id) rfl (fun _ _ => rfl) (fun _ _ => rfl)
    (step_unbatched S)
    (s := init strategy maxPosition) (t := .init strategy maxPosition) ⟨rfl,rfl⟩ labels
  obtain ⟨⟨hqueue,hcomponents⟩,htrace⟩ := hrefines
  refine ⟨⟨htrace,hcomponents.symm,hqueue.symm⟩,?_⟩
  intro hbounded
  exact (machine S).forall_collect (I := BatchFits) (fun s l _ h => step_batchFits S h l)
    (fun s l hl h => plainSteps_capacity h (hbounded l hl))
    ⟨by simp [init, batchSize],fun _ => by simp [init, batchSize]⟩

end EventLoop
end HftEngine.Main
