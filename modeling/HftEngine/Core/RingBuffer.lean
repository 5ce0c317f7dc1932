import HftEngine.Foundation.Fifo
import HftEngine.Foundation.Machine
import Mathlib.Logic.Function.Basic

/-! The ring buffer (core/ring_buffer.hpp) under the two threads of main.cpp, step by step.
Each load, slot access and store is one atomic step; the feed thread only pushes, the
processor thread pushes and pops. -/
namespace HftEngine.Core
open Fifo

inductive Thread
  | feed
  | processor
  deriving DecidableEq, Repr

def Thread.other : Thread → Thread
  | .feed => .processor
  | .processor => .feed

@[simp] theorem Thread.other_other (t : Thread) : t.other.other = t := by cases t <;> rfl

/-- How far a thread is in its call, with the local variables read so far. A push also keeps
the number of stores of `head_` that had happened when it loaded `head_`; the code has no such
number and no step depends on it. -/
inductive Pc (α : Type)
  | idle
  | pushHead (item : α) (head seen : ℕ)
  | pushRoom (item : α) (head seen : ℕ)
  | pushWritten (item : α) (head seen : ℕ)
  | popTail (tail : ℕ)
  | popItem (tail : ℕ)
  | popRead (tail : ℕ) (item : α)
  deriving DecidableEq, Repr

structure RingBuffer (α : Type) where
  slots : ℕ → α
  head : ℕ
  tail : ℕ
  stores : ℕ
  pc : Thread → Pc α

namespace RingBuffer
variable {α : Type}

def init [Inhabited α] : RingBuffer α := ⟨fun _ => default,0,0,0,fun _ => .idle⟩

/-- What happens next: a thread calls push or pop, whose first load is part of the call, or
makes the next step of the call it is in. -/
inductive Call (α : Type)
  | push (t : Thread) (item : α)
  | pop
  | step (t : Thread)
  deriving DecidableEq, Repr

def setPc (s : RingBuffer α) (t : Thread) (pc : Pc α) : RingBuffer α :=
  { s with pc := Function.update s.pc t pc }

/-- The next step of a call; a push or a successful pop is recorded when it returns. -/
def advance (size : ℕ) (s : RingBuffer α) (t : Thread) : RingBuffer α × List (Op α) :=
  match s.pc t with
  | .idle => (s,[])
  | .pushHead item head seen =>
    if (head + 1) % size = s.tail then (s.setPc t .idle,[.push item false])
    else (s.setPc t (.pushRoom item head seen),[])
  | .pushRoom item head seen =>
    ({ s with slots := Function.update s.slots head item }.setPc t (.pushWritten item head seen),[])
  | .pushWritten item head _ =>
    ({ s with head := (head + 1) % size, stores := s.stores + 1 }.setPc t .idle,
      [.push item true])
  | .popTail tail =>
    if tail = s.head then (s.setPc t .idle,[]) else (s.setPc t (.popItem tail),[])
  | .popItem tail => (s.setPc t (.popRead tail (s.slots tail)),[])
  | .popRead tail item => ({ s with tail := (tail + 1) % size }.setPc t .idle,[.pop item])

/-- Calls begin only on an idle thread. -/
def next (size : ℕ) (s : RingBuffer α) : Call α → RingBuffer α × List (Op α)
  | .push t item =>
    if s.pc t matches .idle then (s.setPc t (.pushHead item s.head s.stores),[]) else (s,[])
  | .pop =>
    if s.pc .processor matches .idle then (s.setPc .processor (.popTail s.tail),[]) else (s,[])
  | .step t => s.advance size t

def machine (size : ℕ) : Machine (RingBuffer α) (Call α) (Op α) := ⟨next size⟩

def run (size : ℕ) (s : RingBuffer α) (calls : List (Call α)) : RingBuffer α × List (Op α) :=
  (machine size).run s calls

/-- The member function `size`. -/
def size (capacity : ℕ) (s : RingBuffer α) : ℕ :=
  if s.head ≥ s.tail then s.head - s.tail else capacity - (s.tail - s.head)

/-- The items between `tail_` and `head_`, oldest first. -/
def stored (capacity : ℕ) (s : RingBuffer α) : List α :=
  (List.range (s.size capacity)).map (fun i => s.slots ((s.tail + i) % capacity))

/-- No call is in progress. -/
def Quiet (s : RingBuffer α) : Prop := ∀ t, s.pc t = .idle

@[simp] theorem setPc_pc (s : RingBuffer α) (t : Thread) (pc : Pc α) :
    (s.setPc t pc).pc t = pc := by
  simp [setPc]

@[simp] theorem setPc_pc_other (s : RingBuffer α) (t : Thread) (pc : Pc α) :
    (s.setPc t pc).pc t.other = s.pc t.other := by
  cases t <;> simp [setPc, Thread.other]

@[simp] theorem setPc_feed_processor (s : RingBuffer α) (pc : Pc α) :
    (s.setPc .feed pc).pc .processor = s.pc .processor := setPc_pc_other s .feed pc

@[simp] theorem setPc_processor_feed (s : RingBuffer α) (pc : Pc α) :
    (s.setPc .processor pc).pc .feed = s.pc .feed := setPc_pc_other s .processor pc

end RingBuffer
end HftEngine.Core
