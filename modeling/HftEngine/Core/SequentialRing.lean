import HftEngine.Core.RingBuffer
import HftEngine.Foundation.Bounded
import HftEngine.Foundation.Circular

/-! The ring buffer under calls that do not overlap. Each call then runs from its first load to
its last store, and the buffer answers as a list that stores at most size - 1 items. -/
namespace HftEngine.Core.RingBuffer
open Fifo Circular Bounded
variable {α : Type} {capacity : ℕ} {s : RingBuffer α} {xs : List α}

/-- The member function `push` without another call in between. -/
def push (capacity : ℕ) (s : RingBuffer α) (item : α) : RingBuffer α × Bool :=
  let nextHead := (s.head + 1) % capacity
  if nextHead = s.tail then (s,false)
  else
    ({ s with
        slots := Function.update s.slots s.head item
        head := nextHead
        stores := s.stores + 1 },true)

/-- The member function `pop` without another call in between. -/
def pop (capacity : ℕ) (s : RingBuffer α) : RingBuffer α × Option α :=
  if s.tail = s.head then (s,none)
  else ({ s with tail := (s.tail + 1) % capacity },some (s.slots s.tail))

/-- A thread that is idle again has its old counter. -/
theorem update_idle {t : Thread} (h : s.pc t = .idle) (pc : Pc α) :
    Function.update (Function.update s.pc t pc) t .idle = s.pc := by
  rw [Function.update_idem, ← h, Function.update_eq_self]

theorem setPc_idle {t : Thread} (h : s.pc t = .idle) (pc : Pc α) :
    (s.setPc t pc).setPc t .idle = s := by simp only [setPc, update_idle h]

/-- Step by step, a push that nothing interrupts does the same. -/
theorem run_push {t : Thread} (h : s.pc t = .idle) (item : α) :
    run capacity s [.push t item,.step t,.step t,.step t] =
      ((s.push capacity item).1,[.push item (s.push capacity item).2]) := by
  have hbegin : next capacity s (.push t item) =
      (s.setPc t (.pushHead item s.head s.stores),[]) := by simp [next, h]
  have hstep : ∀ s' : RingBuffer α, next capacity s' (.step t) = s'.advance capacity t :=
    fun _ => rfl
  unfold run machine
  simp only [Machine.run_cons, Machine.run_nil, hbegin, hstep, push]
  by_cases hfull : (s.head + 1) % capacity = s.tail
  · have hrest : s.advance capacity t = (s,[]) := by simp only [advance, h]
    have hcheck : (s.setPc t (.pushHead item s.head s.stores)).advance capacity t =
        (s,[.push item false]) := by
      have hfull' : (s.head + 1) % capacity = (s.setPc t (.pushHead item s.head s.stores)).tail :=
        hfull
      simp only [advance, setPc_pc, if_pos hfull', setPc_idle h]
    rw [hcheck, hrest, if_pos hfull, hrest]
    rfl
  · simp [advance, setPc, hfull, update_idle h]

theorem run_pop (h : s.pc .processor = .idle) :
    run capacity s [.pop,.step .processor,.step .processor,.step .processor] =
      ((s.pop capacity).1,((s.pop capacity).2.map Op.pop).toList) := by
  have hbegin : next capacity s .pop = (s.setPc .processor (.popTail s.tail),[]) := by
    simp [next, h]
  have hstep : ∀ s' : RingBuffer α,
      next capacity s' (.step .processor) = s'.advance capacity .processor := fun _ => rfl
  unfold run machine
  simp only [Machine.run_cons, Machine.run_nil, hbegin, hstep, pop]
  by_cases hempty : s.tail = s.head
  · have hrest : s.advance capacity .processor = (s,[]) := by simp only [advance, h]
    have hlook : (s.setPc .processor (.popTail s.tail)).advance capacity .processor = (s,[]) := by
      have hempty' : s.tail = (s.setPc .processor (.popTail s.tail)).head := hempty
      simp only [advance, setPc_pc, if_pos hempty', setPc_idle h]
    rw [hlook, hrest, if_pos hempty, hrest]
    rfl
  · simp [advance, setPc, hempty, update_idle h]

/-- The buffer holds `xs`, oldest first, from `tail_` on. -/
structure Holds (capacity : ℕ) (s : RingBuffer α) (xs : List α) : Prop where
  tail_lt : s.tail < capacity
  length_lt : xs.length < capacity
  head_eq : s.head = (s.tail + xs.length) % capacity
  contents : window s.slots capacity s.tail xs.length = xs

theorem holds_init [Inhabited α] (h : 0 < capacity) : Holds capacity (init : RingBuffer α) [] :=
  ⟨h,h,(Nat.mod_eq_of_lt h).symm,rfl⟩

namespace Holds

theorem head_lt (h : Holds capacity s xs) : s.head < capacity := by
  rw [h.head_eq]
  exact Nat.mod_lt _ (Nat.zero_lt_of_lt h.tail_lt)

theorem size_eq (h : Holds capacity s xs) : s.size capacity = xs.length := by
  have hdistance := distance_eq h.tail_lt h.length_lt
  rw [← h.head_eq] at hdistance
  exact hdistance

theorem stored_eq (h : Holds capacity s xs) : s.stored capacity = xs := by
  unfold stored
  rw [h.size_eq]
  exact h.contents

/-- The test for a full buffer is passed exactly while one more item fits. -/
theorem full_iff (h : Holds capacity s xs) :
    (s.head + 1) % capacity = s.tail ↔ ¬xs.length < capacity - 1 := by
  have hlt := h.length_lt
  rw [h.head_eq, next_eq_tail_iff h.tail_lt hlt]
  omega

theorem empty_iff (h : Holds capacity s xs) : s.tail = s.head ↔ xs = [] := by
  rw [eq_comm, h.head_eq, head_eq_tail_iff h.tail_lt h.length_lt, List.length_eq_zero_iff]

theorem push (h : Holds capacity s xs) (item : α) :
    (s.push capacity item).2 = decide (xs.length < capacity - 1) ∧
      Holds capacity (s.push capacity item).1
        (if xs.length < capacity - 1 then xs ++ [item] else xs) := by
  unfold RingBuffer.push
  by_cases hroom : xs.length < capacity - 1
  · rw [if_neg (fun hfull => h.full_iff.mp hfull hroom), if_pos hroom]
    refine ⟨(decide_eq_true hroom).symm,h.tail_lt,?_,?_,?_⟩
    · rw [List.length_append, List.length_singleton]
      omega
    · rw [List.length_append, List.length_singleton, h.head_eq, Nat.mod_add_mod, Nat.add_assoc]
    · have hslot : Function.update s.slots ((s.tail + xs.length) % capacity) item
          ((s.tail + xs.length) % capacity) = item := Function.update_self ..
      rw [List.length_append, List.length_singleton, window_succ, h.head_eq,
        window_update _ h.length_lt, h.contents]
      exact congrArg (fun y => xs ++ [y]) hslot
  · rw [if_pos (h.full_iff.mpr hroom), if_neg hroom]
    exact ⟨(decide_eq_false hroom).symm,h⟩

theorem pop (h : Holds capacity s xs) : (s.pop capacity).2 = xs.head? ∧
    Holds capacity (s.pop capacity).1 xs.tail := by
  unfold RingBuffer.pop
  cases xs with
  | nil =>
    rw [if_pos (h.empty_iff.mpr rfl)]
    exact ⟨rfl,h⟩
  | cons x xs =>
    rw [if_neg (fun hempty => List.cons_ne_nil x xs (h.empty_iff.mp hempty))]
    have hlt := h.length_lt
    have hcontents := h.contents
    rw [List.length_cons] at hlt
    rw [List.length_cons, window_cons, Nat.mod_eq_of_lt h.tail_lt, List.cons.injEq] at hcontents
    refine ⟨congrArg some hcontents.1,Nat.mod_lt _ (Nat.zero_lt_of_lt hlt),
      Nat.lt_of_succ_lt hlt,?_,hcontents.2⟩
    change s.head = ((s.tail + 1) % capacity + xs.length) % capacity
    rw [h.head_eq, List.length_cons, Nat.mod_add_mod, Nat.add_assoc, Nat.add_comm 1]

end Holds

/-- One call made on the buffer, with its answer. -/
def call (capacity : ℕ) (s : RingBuffer α) : Request α → RingBuffer α × List (Answer α)
  | .push item => ((s.push capacity item).1,[.pushed (s.push capacity item).2])
  | .pop => ((s.pop capacity).1,[.popped (s.pop capacity).2])
  | .size => (s,[.sized (s.size capacity)])

def sequential (capacity : ℕ) : Machine (RingBuffer α) (Request α) (Answer α) := ⟨call capacity⟩

theorem Holds.call (h : Holds capacity s xs) (request : Request α) :
    Holds capacity (s.call capacity request).1 (Bounded.call (capacity - 1) xs request).1 ∧
      (s.call capacity request).2 = (Bounded.call (capacity - 1) xs request).2 := by
  cases request with
  | push item =>
    obtain ⟨hok,hholds⟩ := h.push item
    simp only [RingBuffer.call, Bounded.call, hok]
    by_cases hroom : xs.length < capacity - 1
    · rw [if_pos hroom] at hholds ⊢
      exact ⟨hholds,by rw [decide_eq_true hroom]⟩
    · rw [if_neg hroom] at hholds ⊢
      exact ⟨hholds,by rw [decide_eq_false hroom]⟩
  | pop =>
    obtain ⟨hitem,hholds⟩ := h.pop
    exact ⟨hholds,congrArg (fun item => [Answer.popped item]) hitem⟩
  | size => exact ⟨h,congrArg (fun n => [Answer.sized n]) h.size_eq⟩

/-- The steps of a call of a thread that nothing interrupts; only the processor thread pops, and
`size` changes nothing. -/
def stepsOf : Thread × Request α → List (Call α)
  | (t,.push item) => [.push t item,.step t,.step t,.step t]
  | (_,.pop) => [.pop,.step .processor,.step .processor,.step .processor]
  | (_,.size) => []

theorem call_pc (s : RingBuffer α) (request : Request α) :
    (s.call capacity request).1.pc = s.pc := by
  cases request with
  | push item =>
    simp only [call, push]
    split <;> rfl
  | pop =>
    simp only [call, pop]
    split <;> rfl
  | size => rfl

theorem run_stepsOf (h : s.Quiet) (c : Thread × Request α) :
    (run capacity s (stepsOf c)).1 = (s.call capacity c.2).1 := by
  obtain ⟨t,request⟩ := c
  cases request with
  | push item => exact congrArg Prod.fst (run_push (h t) item)
  | pop => exact congrArg Prod.fst (run_pop (h .processor))
  | size => rfl

/-- Call after call, whichever threads make them, the step-by-step buffer ends where the
sequential one does. -/
theorem run_flatMap_stepsOf (h : s.Quiet) (calls : List (Thread × Request α)) :
    (run capacity s (calls.flatMap stepsOf)).1 =
      ((sequential capacity).run s (calls.map Prod.snd)).1 := by
  induction calls generalizing s with
  | nil => rfl
  | cons c calls ih =>
    have hquiet : (s.call capacity c.2).1.Quiet := by
      intro t
      rw [call_pc]
      exact h t
    have hfirst : ((machine capacity).run s (stepsOf c)).1 = (s.call capacity c.2).1 :=
      run_stepsOf h c
    rw [List.flatMap_cons, run, Machine.run_append, hfirst]
    exact ih hquiet

/-- From the initial buffer, any calls that do not overlap get the answers of a list that stores
at most `capacity - 1` items, the buffer holds the items of that list, and both indices stay
below the capacity. -/
theorem sequential_fifo [Inhabited α] (hcapacity : 1 ≤ capacity) (requests : List (Request α)) :
    let final := (sequential capacity).run (init : RingBuffer α) requests
    let queue := (Bounded.machine (capacity - 1)).run [] requests
    final.2 = queue.2 ∧ final.1.stored capacity = queue.1 ∧
      final.1.size capacity = queue.1.length ∧ final.1.head < capacity ∧
      final.1.tail < capacity := by
  intro final queue
  obtain ⟨hholds,hanswers⟩ := (sequential capacity).run_simulation
    (N := Bounded.machine (capacity - 1)) (R := fun s xs => Holds capacity s xs)
    (fun s xs request h => h.call request) (holds_init (α := α) hcapacity) requests
  exact ⟨hanswers,hholds.stored_eq,hholds.size_eq,hholds.head_lt,hholds.tail_lt⟩

/-- Three slots store two items, and the third push comes after the indices have wrapped. -/
theorem sequential_fifo_wrap :
    let final := (sequential 3).run (init : RingBuffer ℕ)
      [.push 5,.push 6,.push 7,.pop,.push 7,.size,.pop,.pop,.pop]
    let queue := (Bounded.machine (3 - 1)).run []
      [.push 5,.push 6,.push 7,.pop,.push 7,.size,.pop,.pop,.pop]
    final.2 = queue.2 ∧ final.1.stored 3 = queue.1 ∧ final.1.size 3 = queue.1.length ∧
      final.1.head < 3 ∧ final.1.tail < 3 :=
  sequential_fifo (by decide) _

end HftEngine.Core.RingBuffer
