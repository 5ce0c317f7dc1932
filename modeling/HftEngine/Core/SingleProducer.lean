import HftEngine.Core.RingProducers

/-! The ring buffer with one producer and one consumer. A push that no other push can overtake
never stores an outdated `head_`, so the buffer is a queue in every interleaving, and a call that
fails does so for the right reason. -/
namespace HftEngine.Core
open Fifo Circular

namespace Pc
variable {α : Type}

def IsPush : Pc α → Prop
  | .pushHead _ _ _ => True
  | .pushRoom _ _ _ => True
  | .pushWritten _ _ _ => True
  | _ => False

/-- The `head_` that a push has loaded is the latest one. -/
def Current (stores : ℕ) : Pc α → Prop
  | .pushHead _ _ seen => seen = stores
  | .pushRoom _ _ seen => seen = stores
  | .pushWritten _ _ seen => seen = stores
  | _ => True

/-- The slot that a push is about to write or has written. -/
def written? : Pc α → Option ℕ
  | .pushRoom _ head _ => some head
  | .pushWritten _ head _ => some head
  | _ => none

/-- The slot that a pop is about to read or has read. -/
def read? : Pc α → Option ℕ
  | .popItem tail => some tail
  | .popRead tail _ => some tail
  | _ => none

theorem Current.not_stale {stores : ℕ} {pc : Pc α} (h : pc.Current stores) : ¬pc.Stale stores := by
  intro hstale
  cases pc with
  | pushRoom item head seen =>
    have hseen : seen = stores := h
    have hlt : seen < stores := hstale
    omega
  | pushWritten item head seen =>
    have hseen : seen = stores := h
    have hlt : seen < stores := hstale
    omega
  | _ => exact hstale

theorem not_stale_of_not_isPush {stores : ℕ} {pc : Pc α} (h : ¬pc.IsPush) : ¬pc.Stale stores := by
  intro hstale
  cases pc with
  | pushRoom item head seen => exact h trivial
  | pushWritten item head seen => exact h trivial
  | _ => exact hstale

end Pc

namespace RingBuffer
variable {α : Type} {size : ℕ}

/-- The feed thread is the only producer. -/
def SingleProducer (calls : List (Call α)) : Prop :=
  ∀ call ∈ calls, ∀ item, call ≠ .push .processor item

/-- The processor is not pushing, and the push of the feed is up to date. -/
structure Sole (s : RingBuffer α) : Prop where
  consumer : ¬(s.pc .processor).IsPush
  producer : (s.pc .feed).Current s.stores

namespace Sole
variable {s : RingBuffer α}

theorem init [Inhabited α] : Sole (RingBuffer.init : RingBuffer α) := ⟨id,trivial⟩

theorem not_doomed (h : Sole s) : ¬Doomed s := by
  rintro ⟨t,ht⟩
  cases t with
  | feed => exact h.producer.not_stale ht
  | processor => exact Pc.not_stale_of_not_isPush h.consumer ht

/-- A step of the feed thread. -/
theorem feed (h : Sole s) {s' : RingBuffer α} {pc : Pc α} (hpc : s'.pc = s.pc)
    (hcurrent : pc.Current s'.stores) : Sole (s'.setPc .feed pc) := by
  refine ⟨?_,?_⟩
  · rw [setPc_feed_processor, hpc]
    exact h.consumer
  · rw [setPc_pc]
    exact hcurrent

/-- A step of the processor thread stores no `head_`. -/
theorem processor (h : Sole s) {s' : RingBuffer α} {pc : Pc α} (hpc : s'.pc = s.pc)
    (hstores : s'.stores = s.stores) (hpush : ¬pc.IsPush) : Sole (s'.setPc .processor pc) := by
  refine ⟨?_,?_⟩
  · rw [setPc_pc]
    exact hpush
  · rw [setPc_processor_feed, hpc]
    change (s.pc .feed).Current s'.stores
    rw [hstores]
    exact h.producer

theorem advance_feed (size : ℕ) (h : Sole s) : Sole (s.advance size .feed).1 := by
  have hcurrent := h.producer
  unfold advance
  cases hpc : s.pc .feed with
  | idle => exact h
  | pushHead item head seen =>
    rw [hpc] at hcurrent
    dsimp only
    split_ifs
    · exact h.feed rfl trivial
    · exact h.feed rfl hcurrent
  | pushRoom item head seen =>
    rw [hpc] at hcurrent
    exact h.feed rfl hcurrent
  | pushWritten item head seen => exact h.feed rfl trivial
  | popTail tail =>
    dsimp only
    split_ifs
    · exact h.feed rfl trivial
    · exact h.feed rfl trivial
  | popItem tail => exact h.feed rfl trivial
  | popRead tail item => exact h.feed rfl trivial

theorem advance_processor (size : ℕ) (h : Sole s) : Sole (s.advance size .processor).1 := by
  have hconsumer := h.consumer
  unfold advance
  cases hpc : s.pc .processor with
  | idle => exact h
  | popTail tail =>
    dsimp only
    split_ifs
    · exact h.processor rfl rfl id
    · exact h.processor rfl rfl id
  | popItem tail => exact h.processor rfl rfl id
  | popRead tail item => exact h.processor rfl rfl id
  | _ =>
    rw [hpc] at hconsumer
    exact absurd trivial hconsumer

theorem next (size : ℕ) (h : Sole s) {l : Call α} (hl : ∀ item, l ≠ .push .processor item) :
    Sole (RingBuffer.next size s l).1 := by
  cases l with
  | push t item =>
    cases t with
    | processor => exact absurd rfl (hl item)
    | feed =>
      simp only [RingBuffer.next]
      split
      · exact h.feed rfl rfl
      · exact h
  | pop =>
    simp only [RingBuffer.next]
    split
    · exact h.processor rfl rfl id
    · exact h
  | step t =>
    cases t with
    | feed => exact h.advance_feed size
    | processor => exact h.advance_processor size

end Sole

/-- What a linearizable bounded queue shows in one state of a run: the items left in order, it
held no more than fits, the threads access different slots, and a call that fails now does so
because the buffer is full or empty now. -/
structure Linear (size : ℕ) (s : RingBuffer α) (tr : List (Op α)) : Prop where
  inOrder : popped tr <+: accepted tr
  contents : accepted tr = popped tr ++ s.stored size
  bounded : (s.stored size).length ≤ size - 1
  apart : ∀ slot, (s.pc .feed).written? = some slot → (s.pc .processor).read? ≠ some slot
  full : ∀ item, (s.advance size .feed).2 = [.push item false] →
    (s.stored size).length = size - 1
  empty : ∀ tail, s.pc .processor = .popTail tail →
    (s.advance size .processor).1.pc .processor = .idle → s.stored size = []

namespace Queue
variable {s : RingBuffer α} {xs : List α} {tr : List (Op α)}

/-- A push that has room and a pop that has an item are at different ends. -/
theorem written_ne_read (h : Queue size s xs tr) {slot : ℕ}
    (hwritten : (s.pc .feed).written? = some slot) : (s.pc .processor).read? ≠ some slot := by
  intro hread
  have hfeed := h.valid .feed
  have hprocessor := h.valid .processor
  have hhead : s.head = slot := by
    cases hpc : s.pc .feed with
    | pushRoom item head seen =>
      rw [hpc] at hwritten hfeed
      exact hfeed.2.1.symm.trans (Option.some.inj hwritten)
    | pushWritten item head seen =>
      rw [hpc] at hwritten hfeed
      exact hfeed.2.1.symm.trans (Option.some.inj hwritten)
    | _ => simp [hpc, Pc.written?] at hwritten
  have htail : s.tail = slot ∧ xs ≠ [] := by
    cases hpc : s.pc .processor with
    | popItem tail =>
      rw [hpc] at hread hprocessor
      exact ⟨hprocessor.1.symm.trans (Option.some.inj hread),hprocessor.2⟩
    | popRead tail item =>
      rw [hpc] at hread hprocessor
      refine ⟨hprocessor.1.symm.trans (Option.some.inj hread),?_⟩
      rintro rfl
      exact absurd hprocessor.2 (by simp)
    | _ => simp [hpc, Pc.read?] at hread
  have hmeet : (s.tail + xs.length) % size = s.tail := by
    rw [← h.head_eq, hhead, htail.1]
  have hzero := (head_eq_tail_iff h.tail_lt h.length_lt).mp hmeet
  exact htail.2 (List.length_eq_zero_iff.mp hzero)

theorem length_of_refused (h : Queue size s xs tr) (hsole : Sole s) {item : α}
    (hrefused : (s.advance size .feed).2 = [.push item false]) : xs.length = size - 1 := by
  have hvalid := h.valid .feed
  have hcurrent := hsole.producer
  unfold RingBuffer.advance at hrefused
  cases hpc : s.pc .feed with
  | pushHead item' head seen =>
    rw [hpc] at hrefused hvalid hcurrent
    dsimp only at hrefused
    split_ifs at hrefused with hfull
    · rw [hvalid.2 hcurrent, h.head_eq, next_eq_tail_iff h.tail_lt h.length_lt] at hfull
      omega
  | popTail tail =>
    rw [hpc] at hrefused
    dsimp only at hrefused
    split_ifs at hrefused
  | _ => simp [hpc] at hrefused

theorem nil_of_idle (h : Queue size s xs tr) {tail : ℕ} (hpc : s.pc .processor = .popTail tail)
    (hidle : (s.advance size .processor).1.pc .processor = .idle) : xs = [] := by
  have hvalid := h.valid .processor
  rw [hpc] at hvalid
  have htail : tail = s.tail := hvalid
  simp only [RingBuffer.advance, hpc] at hidle
  split_ifs at hidle with hempty
  · rw [htail, h.head_eq] at hempty
    exact List.length_eq_zero_iff.mp ((head_eq_tail_iff h.tail_lt h.length_lt).mp hempty.symm)
  · rw [setPc_pc] at hidle
    contradiction

theorem linear (h : Queue size s xs tr) (hsole : Sole s) : Linear size s tr := by
  have hstored := h.stored_eq
  have hlength := h.length_lt
  refine ⟨?_,?_,?_,fun _ => h.written_ne_read,?_,?_⟩
  · rw [h.history]
    exact List.prefix_append _ _
  · rw [hstored, h.history]
  · rw [hstored]
    omega
  · intro item hrefused
    rw [hstored]
    exact h.length_of_refused hsole hrefused
  · intro tail hpc hidle
    rw [hstored]
    exact h.nil_of_idle hpc hidle

end Queue

/-- One producer, one consumer, any size, any interleaving: the buffer is linearizable. -/
theorem linear_of_singleProducer [Inhabited α] (hsize : 2 ≤ size) {calls : List (Call α)}
    (hcalls : SingleProducer calls) :
    Linear size (run size init calls).1 (run size init calls).2 := by
  have hstart : Sole (init : RingBuffer α) ∧ ∃ xs, Queue size (init : RingBuffer α) xs [] :=
    ⟨Sole.init,[],queue_init (by omega)⟩
  have hinv := (machine size).run_invariant
    (P := fun _ (l : Call α) => ∀ item, l ≠ .push .processor item)
    (I := fun (s : RingBuffer α) tr => Sole s ∧ ∃ xs, Queue size s xs tr) ?_ hstart
    ((machine size).along_of_mem (fun _ => hcalls) init)
  · rw [List.nil_append] at hinv
    obtain ⟨hsole,xs,hqueue⟩ := hinv
    exact hqueue.linear hsole
  · rintro s tr l ⟨hsole,xs,hqueue⟩ hl
    have hnext := hsole.next size hl
    refine ⟨hnext,?_⟩
    cases hqueue.next l with
    | inl hdoomed => exact absurd hdoomed hnext.not_doomed
    | inr hqueue' => exact hqueue'

/-- A buffer for one item: the second push is refused, and it is taken again after the pop. -/
def handover : List (Call Event) :=
  [.push .feed (.cancelOrder 1),.step .feed,.step .feed,.pop,.step .feed,
    .push .feed (.cancelOrder 2),.step .processor,.step .feed,.step .processor,
    .step .processor,.push .feed (.cancelOrder 2),.step .feed,.step .feed,.step .feed]

theorem linear_handover : Linear 2 (run 2 init handover).1 (run 2 init handover).2 :=
  linear_of_singleProducer (by decide) (by simp [SingleProducer, handover])

end RingBuffer
end HftEngine.Core
