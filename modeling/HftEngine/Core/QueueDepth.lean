import HftEngine.Core.SingleProducer

/-! The queue depth on the dashboard. The main thread calls `size` while the two other threads push
and pop: it loads `head_` first and `tail_` some steps later, and computes with two values that need
not belong to one state. -/
namespace HftEngine.Core
open Fifo Circular

namespace RingBuffer
variable {α : Type} {size : ℕ}

/-- The member function `size` when `head_` is loaded in one state and `tail_` in a later one. -/
def sizeBetween (capacity : ℕ) (s t : RingBuffer α) : ℕ :=
  if s.head ≥ t.tail then s.head - t.tail else capacity - (t.tail - s.head)

/-- At no point of a run has a push passed its check with a `head_` that is out of date. -/
def NoneOvertaken (size : ℕ) (s : RingBuffer α) (calls : List (Call α)) : Prop :=
  (machine size).Along (fun s l => ¬Doomed (next size s l).1) s calls

/-- A single producer is never overtaken. -/
theorem Sole.noneOvertaken {s : RingBuffer α} (h : Sole s) {calls : List (Call α)}
    (hcalls : SingleProducer calls) : NoneOvertaken size s calls := by
  induction calls generalizing s with
  | nil => trivial
  | cons l calls ih =>
    have hnext := h.next size (hcalls l List.mem_cons_self)
    exact ⟨hnext.not_doomed,ih hnext (fun l hl => hcalls l (List.mem_cons_of_mem _ hl))⟩

/-- The buffer is a queue, and `tail_` counts the pops. -/
def Counts (size : ℕ) (s : RingBuffer α) (tr : List (Op α)) : Prop :=
  (∃ xs, Queue size s xs tr) ∧ s.tail = (popped tr).length % size

namespace Counts
variable {s : RingBuffer α} {tr : List (Op α)}

theorem init [Inhabited α] (hsize : 0 < size) : Counts size (init : RingBuffer α) [] :=
  ⟨⟨[],queue_init hsize⟩,(Nat.zero_mod size).symm⟩

/-- Only the last step of a pop moves `tail_`. -/
theorem next_tail (h : Counts size s tr) (l : Call α) : (RingBuffer.next size s l).1.tail =
    (popped (tr ++ (RingBuffer.next size s l).2)).length % size := by
  obtain ⟨⟨xs,hqueue⟩,htail⟩ := h
  rw [popped_append, List.length_append]
  cases l with
  | push t item =>
    simp only [RingBuffer.next]
    split
    · exact htail
    · exact htail
  | pop =>
    simp only [RingBuffer.next]
    split
    · exact htail
    · exact htail
  | step t =>
    have hvalid := hqueue.valid t
    simp only [RingBuffer.next, advance]
    cases hpc : s.pc t with
    | pushHead item head seen =>
      dsimp only
      split
      · exact htail
      · exact htail
    | popTail tail =>
      dsimp only
      split
      · exact htail
      · exact htail
    | popRead tail item =>
      rw [hpc] at hvalid
      have hcurrent : tail = s.tail := hvalid.1
      change (tail + 1) % size = ((popped tr).length + 1) % size
      rw [hcurrent, htail, Nat.mod_add_mod]
    | _ => exact htail

theorem next (h : Counts size s tr) (l : Call α) (hnone : ¬Doomed (RingBuffer.next size s l).1) :
    Counts size (RingBuffer.next size s l).1 (tr ++ (RingBuffer.next size s l).2) := by
  refine ⟨?_,h.next_tail l⟩
  obtain ⟨⟨xs,hqueue⟩,-⟩ := h
  cases hqueue.next l with
  | inl hdoomed => exact absurd hdoomed hnone
  | inr hqueue' => exact hqueue'

theorem run (h : Counts size s tr) {calls : List (Call α)}
    (hcalls : NoneOvertaken size s calls) :
    Counts size (RingBuffer.run size s calls).1 (tr ++ (RingBuffer.run size s calls).2) :=
  (machine size).run_invariant (fun _ _ l h hl => h.next l hl) h hcalls

theorem size_lt (h : Counts size s tr) : s.size size < size := by
  obtain ⟨⟨xs,hqueue⟩,-⟩ := h
  have hstored := congrArg List.length hqueue.stored_eq
  rw [stored, List.length_map, List.length_range] at hstored
  rw [hstored]
  exact hqueue.length_lt

theorem head_eq (h : Counts size s tr) :
    s.head = ((popped tr).length + s.size size) % size := by
  obtain ⟨⟨xs,hqueue⟩,htail⟩ := h
  have hstored := congrArg List.length hqueue.stored_eq
  rw [stored, List.length_map, List.length_range] at hstored
  rw [hqueue.head_eq, htail, Nat.mod_add_mod, hstored]

/-- What was accepted has been popped or is stored. -/
theorem accepted_eq (h : Counts size s tr) :
    (accepted tr).length = (popped tr).length + s.size size := by
  obtain ⟨⟨xs,hqueue⟩,-⟩ := h
  have hstored := congrArg List.length hqueue.stored_eq
  rw [stored, List.length_map, List.length_range] at hstored
  rw [hqueue.history, List.length_append, hstored]

/-- A queue loses no more than what is popped. -/
theorem size_le (h : Counts size s tr) {s' : RingBuffer α} {ops : List (Op α)}
    (h' : Counts size s' (tr ++ ops)) : s.size size ≤ s'.size size + (popped ops).length := by
  have haccepted := h.accepted_eq
  have haccepted' := h'.accepted_eq
  rw [accepted_append, popped_append, List.length_append, List.length_append] at haccepted'
  omega

/-- The value that is computed from the two loads, up to whole turns of the buffer. -/
theorem sizeBetween_spec (h : Counts size s tr) {s' : RingBuffer α} {ops : List (Op α)}
    (h' : Counts size s' (tr ++ ops)) : s.sizeBetween size s' < size ∧
      (s.sizeBetween size s' + (popped ops).length) % size = s.size size := by
  have hpos : 0 < size := Nat.zero_lt_of_lt h.size_lt
  have htail := h'.2
  rw [popped_append, List.length_append] at htail
  have hvalue : s.sizeBetween size s' = distance size (((popped tr).length + s.size size) % size)
      (((popped tr).length + (popped ops).length) % size) := by
    rw [← h.head_eq, ← htail]
    rfl
  rw [hvalue]
  refine ⟨distance_lt (Nat.mod_lt _ hpos),?_⟩
  rw [distance_add_mod hpos, Nat.mod_eq_of_lt h.size_lt]

end Counts

theorem popped_take_le (s : RingBuffer α) (calls : List (Call α)) (n : ℕ) :
    (popped (run size s (calls.take n)).2).length ≤ (popped (run size s calls).2).length := by
  have hsplit := (machine size).run_append s (calls.take n) (calls.drop n)
  rw [List.take_append_drop] at hsplit
  unfold run
  rw [hsplit, popped_append, List.length_append]
  exact Nat.le_add_right _ _

/-- The value shown for the queue depth, whatever happens between its two loads. If no more events
are popped meanwhile than were stored at the first load, it is what is left of these, and at no time
in between was the queue shorter. If more are popped, it counts backwards from the size of the
buffer, however short the queue was. -/
theorem depth_shown [Inhabited α] (hsize : 0 < size) (before between : List (Call α))
    (hnone : NoneOvertaken size init (before ++ between)) :
    let first := (run size init before).1
    let later := run size first between
    let depth := first.size size
    let taken := (popped later.2).length
    let shown := first.sizeBetween size later.1
    shown < size ∧ (taken ≤ depth → shown = depth - taken) ∧
      (depth < taken → taken < depth + size → shown = size - (taken - depth)) ∧
      (taken < size → ((∀ n, shown ≤ (run size first (between.take n)).1.size size) ↔
        taken ≤ depth)) := by
  intro first later depth taken shown
  obtain ⟨hbefore,hbetween⟩ := ((machine size).along_append init before between).mp hnone
  have hfirst : Counts size first (run size init before).2 := (Counts.init hsize).run hbefore
  have hlater : ∀ n, Counts size (run size first (between.take n)).1
      ((run size init before).2 ++ (run size first (between.take n)).2) :=
    fun n => hfirst.run (hbetween.take _ n)
  obtain ⟨hlt,hmod⟩ : shown < size ∧ (shown + taken) % size = depth :=
    hfirst.sizeBetween_spec (hfirst.run hbetween)
  have hdepth : depth < size := hfirst.size_lt
  obtain ⟨hfew,hmany⟩ := of_add_mod hlt hdepth hmod
  refine ⟨hlt,hfew,hmany,fun hturn => ⟨?_,?_⟩⟩
  · intro hbelow
    by_contra hlt'
    have hstart : shown ≤ depth := hbelow 0
    have hvalue := hmany (by omega) (by omega)
    omega
  · intro hle n
    have hkept := hfirst.size_le (hlater n)
    have hprefix : (popped (run size first (between.take n)).2).length ≤ taken :=
      popped_take_le first between n
    have hvalue := hfew hle
    have hdepth' : depth = first.size size := rfl
    omega

/-- An empty queue of 1024 slots that one event passes through between the loads. -/
def passing : List (Call Event) :=
  [.push .feed (.cancelOrder 1),.step .feed,.step .feed,.step .feed,
    .pop,.step .processor,.step .processor,.step .processor]

theorem depth_shown_passing :
    let shown := (init : RingBuffer Event).sizeBetween 1024 (run 1024 init passing).1
    shown = 1023 ∧ ¬∀ n, shown ≤ (run 1024 init (passing.take n)).1.size 1024 := by
  obtain ⟨-,-,hmany,hexact⟩ := @depth_shown Event 1024 _ (by decide) [] passing
    (Sole.init.noneOvertaken (by simp [SingleProducer, passing]))
  exact ⟨hmany (by decide) (by decide),fun h => absurd ((hexact (by decide)).mp h) (by decide)⟩

end RingBuffer
end HftEngine.Core
