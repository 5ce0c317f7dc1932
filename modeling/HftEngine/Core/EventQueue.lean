import HftEngine.Core.Events
import HftEngine.Foundation.Double
import HftEngine.Core.SequentialRing

/-! The event queue (core/event_queue.hpp): the ring buffer of 1024 slots with a counter of its
pushes. The counter is raised before the outcome of a push is known, so it counts the refused
pushes too. -/
set_option linter.unusedSectionVars false

namespace HftEngine.Core
open Bounded

structure EventQueue (α : Type := ℚ) where
  queue : RingBuffer (Event α)
  totalPushed : ℕ

namespace EventQueue
variable {α : Type}

def defaultSize : ℕ := 1024

def init (α : Type := ℚ) [∀ n, OfNat α n] : EventQueue α := ⟨.init,0⟩

/-- The counter is a `uint64_t`. -/
def push (q : EventQueue α) (event : Event α) : EventQueue α × Bool :=
  let pushed := q.queue.push defaultSize event
  (⟨pushed.1,(q.totalPushed + 1) % 2 ^ 64⟩,pushed.2)

def pop (q : EventQueue α) : EventQueue α × Option (Event α) :=
  let popped := q.queue.pop defaultSize
  ({ q with queue := popped.1 },popped.2)

def size (q : EventQueue α) : ℕ := q.queue.size defaultSize

def call (q : EventQueue α) : Request (Event α) → EventQueue α × List (Answer (Event α))
  | .push event => ((q.push event).1,[.pushed (q.push event).2])
  | .pop => (q.pop.1,[.popped q.pop.2])
  | .size => (q,[.sized q.size])

def machine : Machine (EventQueue α) (Request (Event α)) (Answer (Event α)) := ⟨call⟩

/-- The counter is the number of popped events and of those still stored. -/
def Balanced (q : EventQueue α) (answers : List (Answer (Event α))) : Prop :=
  q.totalPushed = returnedCount answers + q.size

/-- A push finds a free slot, and the counter does not overflow. -/
def Counted (q : EventQueue α) : Request (Event α) → Prop
  | .push _ => q.size < defaultSize - 1 ∧ q.totalPushed + 1 < 2 ^ 64
  | .pop => True
  | .size => True

instance (q : EventQueue α) : (request : Request (Event α)) → Decidable (q.Counted request)
  | .push _ => inferInstanceAs (Decidable (q.size < defaultSize - 1 ∧ q.totalPushed + 1 < 2 ^ 64))
  | .pop => isTrue trivial
  | .size => isTrue trivial

/-- The queue stores these events, and the counter is a 64-bit number. -/
structure Stores (q : EventQueue α) (events : List (Event α)) : Prop where
  holds : RingBuffer.Holds defaultSize q.queue events
  totalPushed_lt : q.totalPushed < 2 ^ 64

variable [∀ n, OfNat α n]

theorem init_stores : Stores (.init α) [] :=
  ⟨RingBuffer.holds_init (by decide),Nat.two_pow_pos 64⟩

/-- The counter counts a push whatever its outcome. -/
theorem call_totalPushed {q : EventQueue α} (h : q.totalPushed < 2 ^ 64)
    (request : Request (Event α)) :
    (q.call request).1.totalPushed = (q.totalPushed + pushCount [request]) % 2 ^ 64 := by
  cases request with
  | push event => rfl
  | _ => exact (Nat.mod_eq_of_lt h).symm

namespace Stores
variable {q : EventQueue α} {events : List (Event α)}

theorem size_eq (h : q.Stores events) : q.size = events.length := h.holds.size_eq

/-- The event queue answers like a list that stores at most 1023 events. -/
theorem call (h : q.Stores events) (request : Request (Event α)) :
    Stores (q.call request).1 (Bounded.call (defaultSize - 1) events request).1 ∧
      (q.call request).2 = (Bounded.call (defaultSize - 1) events request).2 := by
  obtain ⟨hholds,hanswers⟩ := h.holds.call request
  cases request with
  | push event => exact ⟨⟨hholds,Nat.mod_lt _ (by decide)⟩,hanswers⟩
  | pop => exact ⟨⟨hholds,h.totalPushed_lt⟩,hanswers⟩
  | size => exact ⟨⟨hholds,h.totalPushed_lt⟩,hanswers⟩

/-- A balanced counter stays balanced exactly over a push that finds room. -/
theorem call_balanced (h : q.Stores events) {answers : List (Answer (Event α))}
    (hbalanced : q.Balanced answers) (request : Request (Event α)) :
    Balanced (q.call request).1 (answers ++ (q.call request).2) ↔ q.Counted request := by
  obtain ⟨hstores,hanswers⟩ := h.call request
  have hlt := h.totalPushed_lt
  have hledger := Bounded.call_ledger (defaultSize - 1) events request
  have hentered := enteredCount_call (defaultSize - 1) events request
  rw [Balanced, h.size_eq] at hbalanced
  rw [Balanced, hstores.size_eq, hanswers, returnedCount_append, call_totalPushed hlt]
  have hcounted : q.Counted request ↔ pushCount [request] = 0 ∨
      events.length < defaultSize - 1 ∧ q.totalPushed + 1 < 2 ^ 64 := by
    rw [← h.size_eq]
    cases request with
    | push event => simp [Counted, pushCount, Request.isPush]
    | _ => simp [Counted, pushCount, Request.isPush]
  have hcount : pushCount [request] ≤ 1 := List.countP_le_length
  rw [hcounted]
  split_ifs at hentered <;> omega

end Stores

/-- Over a run the event queue is the list that stores at most 1023 events. -/
theorem run_stores (requests : List (Request (Event α))) :
    Stores (machine.run (.init α) requests).1
        ((Bounded.machine (defaultSize - 1)).run [] requests).1 ∧
      (machine.run (.init α) requests).2 =
        ((Bounded.machine (defaultSize - 1)).run [] requests).2 :=
  machine.run_simulation (N := Bounded.machine (defaultSize - 1)) (R := Stores)
    (fun _ _ request h => h.call request) init_stores requests

theorem run_totalPushed {q : EventQueue α} (h : q.totalPushed < 2 ^ 64)
    (requests : List (Request (Event α))) :
    (machine.run q requests).1.totalPushed = (q.totalPushed + pushCount requests) % 2 ^ 64 := by
  induction requests generalizing q with
  | nil => exact (Nat.mod_eq_of_lt h).symm
  | cons request requests ih =>
    have hfirst := call_totalPushed h request
    have hlt : (q.call request).1.totalPushed < 2 ^ 64 := by
      rw [hfirst]
      exact Nat.mod_lt _ (by decide)
    have hrest := ih hlt
    rw [hfirst, Nat.mod_add_mod, Nat.add_assoc, ← pushCount_cons] at hrest
    exact hrest

/-- The counter counts the calls of push. -/
theorem run_counter (requests : List (Request (Event α))) :
    (machine.run (.init α) requests).1.totalPushed = pushCount requests % 2 ^ 64 := by
  have hcounter := run_totalPushed init_stores.totalPushed_lt requests
  have hstart : (init α).totalPushed = 0 := rfl
  rwa [hstart, Nat.zero_add] at hcounter

/-- The events that entered the queue have been popped or are still stored. -/
theorem run_entered (requests : List (Request (Event α))) :
    enteredCount (machine.run (.init α) requests).2 =
      returnedCount (machine.run (.init α) requests).2 +
        (machine.run (.init α) requests).1.size := by
  obtain ⟨hstores,hanswers⟩ := run_stores requests
  have hledger := Bounded.run_ledger (defaultSize - 1) [] requests
  rw [List.length_nil, Nat.zero_add] at hledger
  rw [hstores.size_eq, hanswers]
  exact hledger

theorem balanced_iff_along (requests : List (Request (Event α))) :
    (∀ n, Balanced (machine.run (.init α) (requests.take n)).1
        (machine.run (.init α) (requests.take n)).2) ↔
      machine.Along Counted (.init α) requests := by
  have hstart : (∃ events, Stores (.init α) events) ∧ Balanced (.init α) [] :=
    ⟨⟨[],init_stores⟩,rfl⟩
  have hrule := machine.forall_take_iff_along_of_trace
    (I := fun q answers => (∃ events, Stores q events) ∧ q.Balanced answers) (P := Counted) ?_
    hstart requests
  · rw [← hrule]
    constructor
    · intro h n
      exact ⟨⟨_,(run_stores (requests.take n)).1⟩,h n⟩
    · intro h n
      exact (h n).2
  · rintro q answers request ⟨⟨events,hstores⟩,hbalanced⟩
    rw [← hstores.call_balanced hbalanced request]
    exact and_iff_right ⟨_,(hstores.call request).1⟩

/-- `total_pushed` counts the calls of push. It is the number of events that entered the queue,
popped or still stored, at every point of a sequence of calls exactly if every push finds a free
slot and the counter does not overflow. -/
theorem total_pushed_accounting (requests : List (Request (Event α))) :
    (machine.run (.init α) requests).1.totalPushed = pushCount requests % 2 ^ 64 ∧
    enteredCount (machine.run (.init α) requests).2 =
      returnedCount (machine.run (.init α) requests).2 +
        (machine.run (.init α) requests).1.size ∧
    ((∀ n, Balanced (machine.run (.init α) (requests.take n)).1
        (machine.run (.init α) (requests.take n)).2) ↔
      machine.Along Counted (.init α) requests) :=
  ⟨run_counter requests,run_entered requests,balanced_iff_along requests⟩

/-- As many pushes as there are slots; the last one finds the queue full. -/
def fill : List (Request (Event Double)) := List.replicate defaultSize (.push default)

theorem fill_returnedCount : returnedCount (machine.run (.init Double) fill).2 = 0 := by
  rw [returnedCount, List.countP_eq_zero, Machine.forall_run_iff_along]
  apply Machine.along_of_mem
  intro q request hrequest answer hanswer
  rw [List.eq_of_mem_replicate hrequest] at hanswer
  rw [List.mem_singleton.mp hanswer]
  exact Bool.false_ne_true

theorem refused_push_counted :
    ¬Balanced (machine.run (.init Double) fill).1 (machine.run (.init Double) fill).2 := by
  have hcount : pushCount fill = defaultSize := by
    simp [pushCount, fill, List.countP_replicate, Request.isPush]
  have hcounter := run_counter fill
  have hstores := (run_stores fill).1
  have hsize := hstores.holds.length_lt
  rw [Balanced, fill_returnedCount, hcounter, hcount, hstores.size_eq]
  unfold defaultSize at *
  omega

end EventQueue
end HftEngine.Core
