import HftEngine.Core.Events
import HftEngine.Core.RingBuffer
import HftEngine.Foundation.Circular

/-! Two producers on the ring buffer. As long as no push stores `head_` after the other
thread has stored it since the push loaded it, the buffer is a queue: what was accepted is
what was popped and then what is stored, in order. -/
namespace HftEngine.Core
open Fifo Circular

namespace Pc
variable {α : Type}

/-- A push that has passed its check and whose `head_` is out of date: it cannot complete
without storing an outdated `head_`. -/
def Stale (stores : ℕ) : Pc α → Prop
  | .pushRoom _ _ seen => seen < stores
  | .pushWritten _ _ seen => seen < stores
  | _ => False

def IsWritten : Pc α → Prop
  | .pushWritten _ _ _ => True
  | _ => False

def IsPop : Pc α → Prop
  | .popTail _ => True
  | .popItem _ => True
  | .popRead _ _ => True
  | _ => False

/-- What the local variables of a call mean while `xs` is stored. A slot that a push has
written still holds its item unless the other thread has written it too. -/
def Valid (size : ℕ) (s : RingBuffer α) (xs : List α) (pc other : Pc α) : Prop :=
  match pc with
  | .idle => True
  | .pushHead _ head seen => seen ≤ s.stores ∧ (seen = s.stores → head = s.head)
  | .pushRoom _ head seen => seen = s.stores ∧ head = s.head ∧ xs.length + 1 < size
  | .pushWritten item head seen => seen = s.stores ∧ head = s.head ∧ xs.length + 1 < size ∧
      (s.slots s.head = item ∨ other.IsWritten)
  | .popTail tail => tail = s.tail
  | .popItem tail => tail = s.tail ∧ xs ≠ []
  | .popRead tail item => tail = s.tail ∧ xs.head? = some item

variable {size : ℕ} {s : RingBuffer α} {xs : List α} {pc other other' : Pc α}

/-- The other thread may do anything but give up a written slot. -/
theorem Valid.mono (h : pc.Valid size s xs other)
    (hother : other.IsWritten → other'.IsWritten) : pc.Valid size s xs other' := by
  cases pc with
  | pushWritten item head seen =>
    obtain ⟨hseen,hhead,hroom,hslot⟩ := h
    exact ⟨hseen,hhead,hroom,hslot.imp_right hother⟩
  | _ => exact h

/-- What a call knows does not involve the program counters. -/
theorem valid_setPc (t : Thread) (pc' : Pc α) :
    pc.Valid size (s.setPc t pc') xs other ↔ pc.Valid size s xs other := by
  cases pc <;> exact Iff.rfl

/-- The other thread writes the slot at `head_`. -/
theorem Valid.write (h : pc.Valid size s xs other) {item : α} (hother : other'.IsWritten) :
    pc.Valid size { s with slots := Function.update s.slots s.head item } xs other' := by
  cases pc with
  | pushWritten item' head seen =>
    obtain ⟨hseen,hhead,hroom,-⟩ := h
    exact ⟨hseen,hhead,hroom,.inr hother⟩
  | _ => exact h

/-- The other thread stores `head_`, and this one has not passed its check with the old one. -/
theorem Valid.store (h : pc.Valid size s xs other) {item : α} {head : ℕ}
    (hstale : ¬ pc.Stale (s.stores + 1)) :
    pc.Valid size { s with head := head, stores := s.stores + 1 } (xs ++ [item]) other' := by
  cases pc with
  | idle => trivial
  | pushHead item' head' seen =>
    have hle : seen ≤ s.stores := h.1
    refine ⟨Nat.le_succ_of_le hle,?_⟩
    intro heq
    have heq' : seen = s.stores + 1 := heq
    omega
  | pushRoom item' head' seen =>
    have hseen : seen = s.stores := h.1
    have hnot : ¬ seen < s.stores + 1 := hstale
    omega
  | pushWritten item' head' seen =>
    have hseen : seen = s.stores := h.1
    have hnot : ¬ seen < s.stores + 1 := hstale
    omega
  | popTail tail => exact h
  | popItem tail => exact ⟨h.1,by simp⟩
  | popRead tail item' =>
    refine ⟨h.1,?_⟩
    rw [List.head?_append, h.2]
    rfl

/-- The processor thread stores `tail_`, and this one is no pop. -/
theorem Valid.take {x : α} (h : pc.Valid size s (x :: xs) other) {tail : ℕ}
    (hother : ¬ other.IsWritten) (hpop : ¬ pc.IsPop) :
    pc.Valid size { s with tail := tail } xs other' := by
  cases pc with
  | idle => trivial
  | pushHead item head seen => exact h
  | pushRoom item head seen =>
    obtain ⟨hseen,hhead,hroom⟩ := h
    rw [List.length_cons] at hroom
    exact ⟨hseen,hhead,by omega⟩
  | pushWritten item head seen =>
    obtain ⟨hseen,hhead,hroom,hslot⟩ := h
    rw [List.length_cons] at hroom
    exact ⟨hseen,hhead,by omega,hslot.imp_right (fun hw => absurd hw hother)⟩
  | popTail tail => exact absurd trivial hpop
  | popItem tail => exact absurd trivial hpop
  | popRead tail item => exact absurd trivial hpop

end Pc

namespace RingBuffer
variable {α : Type} {size : ℕ}

/-- A call that is about to store `head_` has loaded the current `head_`. -/
def StoresFresh (s : RingBuffer α) : Call α → Prop
  | .step t =>
    match s.pc t with
    | .pushWritten _ _ seen => seen = s.stores
    | _ => True
  | _ => True

instance (s : RingBuffer α) : (l : Call α) → Decidable (StoresFresh s l)
  | .push _ _ => isTrue trivial
  | .pop => isTrue trivial
  | .step t =>
    match h : s.pc t with
    | .pushWritten _ _ seen => decidable_of_iff (seen = s.stores) (by simp [StoresFresh, h])
    | .idle => isTrue (by simp [StoresFresh, h])
    | .pushHead _ _ _ => isTrue (by simp [StoresFresh, h])
    | .pushRoom _ _ _ => isTrue (by simp [StoresFresh, h])
    | .popTail _ => isTrue (by simp [StoresFresh, h])
    | .popItem _ => isTrue (by simp [StoresFresh, h])
    | .popRead _ _ => isTrue (by simp [StoresFresh, h])

/-- The buffer is a queue that holds `xs`, and only the processor pops. -/
structure Queue (size : ℕ) (s : RingBuffer α) (xs : List α) (tr : List (Op α)) : Prop where
  tail_lt : s.tail < size
  length_lt : xs.length < size
  head_eq : s.head = (s.tail + xs.length) % size
  contents : window s.slots size s.tail xs.length = xs
  history : accepted tr = popped tr ++ xs
  valid : ∀ t, (s.pc t).Valid size s xs (s.pc t.other)
  feed : ¬ (s.pc .feed).IsPop

theorem eq_or_eq_other (t u : Thread) : u = t ∨ u = t.other := by
  cases u <;> cases t <;> simp [Thread.other]

/-- Both threads' calls stay valid when one thread moves. -/
theorem valid_both {s : RingBuffer α} {xs : List α} {t : Thread} {pc : Pc α}
    (ht : pc.Valid size s xs (s.pc t.other)) (hother : (s.pc t.other).Valid size s xs pc) :
    ∀ u, ((s.setPc t pc).pc u).Valid size (s.setPc t pc) xs ((s.setPc t pc).pc u.other) := by
  intro u
  rw [Pc.valid_setPc]
  obtain rfl | rfl := eq_or_eq_other t u
  · rw [setPc_pc, setPc_pc_other]
    exact ht
  · rw [Thread.other_other, setPc_pc, setPc_pc_other]
    exact hother

theorem feed_setPc {s : RingBuffer α} {t : Thread} {pc : Pc α} (h : ¬ (s.pc .feed).IsPop)
    (hpc : t = .feed → ¬ pc.IsPop) : ¬ ((s.setPc t pc).pc .feed).IsPop := by
  cases t with
  | feed =>
    rw [setPc_pc]
    exact hpc rfl
  | processor =>
    rw [setPc_processor_feed]
    exact h

namespace Queue
variable {s : RingBuffer α} {xs : List α} {tr ops : List (Op α)} {t : Thread}

/-- Steps that only move a program counter. -/
theorem move (h : Queue size s xs tr) {pc : Pc α} (hpc : pc.Valid size s xs (s.pc t.other))
    (hwritten : ¬ (s.pc t).IsWritten) (hfeed : t = .feed → ¬ pc.IsPop)
    (haccepted : accepted ops = []) (hpopped : popped ops = []) :
    Queue size (s.setPc t pc) xs (tr ++ ops) := by
  refine ⟨h.tail_lt,h.length_lt,h.head_eq,h.contents,?_,valid_both hpc ?_,feed_setPc h.feed hfeed⟩
  · rw [accepted_append, popped_append, haccepted, hpopped, List.append_nil, List.append_nil]
    exact h.history
  · have hvalid := h.valid t.other
    rw [Thread.other_other] at hvalid
    exact hvalid.mono (fun hw => absurd hw hwritten)

/-- The slot at `head_` is written; the window of stored items does not see it. -/
theorem write (h : Queue size s xs tr) {item : α} {head seen : ℕ}
    (hpc : s.pc t = .pushRoom item head seen) :
    Queue size ({ s with slots := Function.update s.slots head item }.setPc t
      (.pushWritten item head seen)) xs tr := by
  have hvalid := h.valid t
  rw [hpc] at hvalid
  obtain ⟨hseen,rfl,hroom⟩ := hvalid
  refine ⟨h.tail_lt,h.length_lt,h.head_eq,?_,h.history,?_,feed_setPc h.feed (by simp [Pc.IsPop])⟩
  · have hslots : window (Function.update s.slots s.head item) size s.tail xs.length = xs := by
      rw [h.head_eq, window_update _ h.length_lt, h.contents]
    exact hslots
  · apply valid_both
    · exact ⟨hseen,rfl,hroom,.inl (Function.update_self _ _ _)⟩
    · have hother := h.valid t.other
      rw [Thread.other_other] at hother
      exact hother.write trivial

/-- A fresh store of `head_` makes the written item the newest one, unless it leaves the other
thread with an outdated `head_`. -/
theorem store (h : Queue size s xs tr) {item : α} {head seen : ℕ}
    (hpc : s.pc t = .pushWritten item head seen)
    (hstale : ¬ (s.pc t.other).Stale (s.stores + 1)) :
    Queue size ({ s with head := (head + 1) % size, stores := s.stores + 1 }.setPc t .idle)
      (xs ++ [item]) (tr ++ [.push item true]) := by
  have hvalid := h.valid t
  rw [hpc] at hvalid
  obtain ⟨-,rfl,hroom,hslot⟩ := hvalid
  have hother := h.valid t.other
  rw [Thread.other_other] at hother
  have hslot' : s.slots s.head = item := by
    rcases hslot with hslot | hwritten
    · exact hslot
    · -- had the other thread written too, this store would leave it behind
      cases hu : s.pc t.other with
      | pushWritten item' head' seen' =>
        rw [hu] at hother hstale
        have hseen : seen' = s.stores := hother.1
        have hnot : ¬ seen' < s.stores + 1 := hstale
        omega
      | _ => simp [hu, Pc.IsWritten] at hwritten
  have hlength : (xs ++ [item]).length = xs.length + 1 := by simp
  refine ⟨h.tail_lt,by rw [hlength]; exact hroom,?_,?_,?_,valid_both trivial (hother.store hstale),
    feed_setPc h.feed (by simp [Pc.IsPop])⟩
  · change (s.head + 1) % size = (s.tail + (xs ++ [item]).length) % size
    rw [h.head_eq, hlength, Nat.mod_add_mod, Nat.add_assoc]
  · change window s.slots size s.tail (xs ++ [item]).length = xs ++ [item]
    rw [hlength, window_succ, h.contents, ← h.head_eq, hslot']
  · rw [accepted_append, popped_append, h.history]
    simp

/-- The oldest item leaves when `tail_` is stored. -/
theorem take (h : Queue size s xs tr) {tail : ℕ} {item : α} (hpc : s.pc t = .popRead tail item) :
    ∃ ys, xs = item :: ys ∧
      Queue size ({ s with tail := (tail + 1) % size }.setPc t .idle) ys
        (tr ++ [.pop item]) := by
  have hvalid := h.valid t
  rw [hpc] at hvalid
  obtain ⟨rfl,hfirst⟩ := hvalid
  obtain ⟨ys,rfl⟩ : ∃ ys, xs = item :: ys := by
    cases xs with
    | nil => simp at hfirst
    | cons x ys =>
      rw [List.head?_cons, Option.some.injEq] at hfirst
      exact ⟨ys,by rw [hfirst]⟩
  refine ⟨ys,rfl,?_⟩
  have hlength := h.length_lt
  rw [List.length_cons] at hlength
  have hcontents := h.contents
  rw [List.length_cons, window_cons, List.cons.injEq] at hcontents
  refine ⟨Nat.mod_lt _ (by omega),by omega,?_,hcontents.2,?_,valid_both trivial ?_,
    feed_setPc h.feed (by simp [Pc.IsPop])⟩
  · change s.head = ((s.tail + 1) % size + ys.length) % size
    rw [h.head_eq, List.length_cons, Nat.mod_add_mod]
    congr 1
    omega
  · rw [accepted_append, popped_append, h.history]
    simp
  · have hother := h.valid t.other
    rw [Thread.other_other] at hother
    apply hother.take
    · rw [hpc]
      exact id
    · cases t with
      | processor => exact h.feed
      | feed => exact absurd (by rw [hpc]; trivial) h.feed

end Queue

/-- Some push has passed its check with a `head_` that is out of date. -/
def Doomed (s : RingBuffer α) : Prop := ∃ t, (s.pc t).Stale s.stores

section Doomed
variable {s : RingBuffer α} {t : Thread}

/-- The other thread's steps leave the push alone and store no older `head_`. -/
theorem doomed_setPc_other (h : (s.pc t).Stale s.stores) {s' : RingBuffer α} (pc : Pc α)
    (hpc : s'.pc = s.pc) (hstores : s.stores ≤ s'.stores) : Doomed (s'.setPc t.other pc) := by
  refine ⟨t,?_⟩
  have hsame := setPc_pc_other s' t.other pc
  rw [Thread.other_other] at hsame
  rw [hsame, hpc]
  change (s.pc t).Stale s'.stores
  cases hu : s.pc t with
  | pushRoom item head seen =>
    rw [hu] at h
    exact lt_of_lt_of_le h hstores
  | pushWritten item head seen =>
    rw [hu] at h
    exact lt_of_lt_of_le h hstores
  | _ => simp [hu, Pc.Stale] at h

theorem doomed_advance_other (h : (s.pc t).Stale s.stores) :
    Doomed (s.advance size t.other).1 := by
  unfold advance
  cases hu : s.pc t.other with
  | idle => exact ⟨t,h⟩
  | pushHead item head seen =>
    dsimp only
    split_ifs
    · exact doomed_setPc_other h _ rfl le_rfl
    · exact doomed_setPc_other h _ rfl le_rfl
  | pushRoom item head seen => exact doomed_setPc_other h _ rfl le_rfl
  | pushWritten item head seen => exact doomed_setPc_other h _ rfl (Nat.le_succ _)
  | popTail tail =>
    dsimp only
    split_ifs
    · exact doomed_setPc_other h _ rfl le_rfl
    · exact doomed_setPc_other h _ rfl le_rfl
  | popItem tail => exact doomed_setPc_other h _ rfl le_rfl
  | popRead tail item => exact doomed_setPc_other h _ rfl le_rfl

/-- The push itself can only write its slot. -/
theorem doomed_advance_self (h : (s.pc t).Stale s.stores) (hfresh : StoresFresh s (.step t)) :
    Doomed (s.advance size t).1 := by
  unfold advance
  cases hu : s.pc t with
  | pushRoom item head seen =>
    rw [hu] at h
    refine ⟨t,?_⟩
    rw [setPc_pc]
    exact h
  | pushWritten item head seen =>
    rw [hu] at h
    rw [StoresFresh, hu] at hfresh
    have hseen : seen = s.stores := hfresh
    have hlt : seen < s.stores := h
    omega
  | _ => simp [hu, Pc.Stale] at h

/-- A thread that begins a call is not the doomed one. -/
theorem doomed_begin (h : (s.pc t).Stale s.stores) {u : Thread} (hidle : s.pc u = .idle)
    (pc : Pc α) : Doomed (s.setPc u pc) := by
  cases eq_or_eq_other t u with
  | inl hsame =>
    rw [← hsame, hidle] at h
    exact h.elim
  | inr hother =>
    rw [hother]
    exact doomed_setPc_other h _ rfl le_rfl

/-- A doomed push stays doomed until it stores `head_`. -/
theorem Doomed.next (h : Doomed s) {l : Call α} (hfresh : StoresFresh s l) :
    Doomed (RingBuffer.next size s l).1 := by
  obtain ⟨t,ht⟩ := h
  cases l with
  | push u item =>
    simp only [RingBuffer.next]
    cases hu : s.pc u with
    | idle => exact doomed_begin ht hu _
    | _ => exact ⟨t,ht⟩
  | pop =>
    simp only [RingBuffer.next]
    cases hu : s.pc .processor with
    | idle => exact doomed_begin ht hu _
    | _ => exact ⟨t,ht⟩
  | step u =>
    cases eq_or_eq_other t u with
    | inl hsame =>
      subst hsame
      exact doomed_advance_self ht hfresh
    | inr hother =>
      rw [hother]
      exact doomed_advance_other ht

end Doomed

namespace Queue
variable {s : RingBuffer α} {xs : List α} {tr : List (Op α)} {t : Thread}

/-- A thread in a pop is the processor. -/
theorem not_feed (h : Queue size s xs tr) (hpop : (s.pc t).IsPop) : t ≠ .feed := by
  rintro rfl
  exact h.feed hpop

/-- The check of a push fails on a full buffer; a push that passes it with an outdated `head_` is
doomed. -/
theorem check (h : Queue size s xs tr) {item : α} {head seen : ℕ}
    (hpc : s.pc t = .pushHead item head seen) : Doomed (s.advance size t).1 ∨
      Queue size (s.advance size t).1 xs (tr ++ (s.advance size t).2) := by
  have hvalid := h.valid t
  rw [hpc] at hvalid
  obtain ⟨hle,hhead⟩ := hvalid
  have hwritten : ¬ (s.pc t).IsWritten := by simp [hpc, Pc.IsWritten]
  by_cases hfull : (head + 1) % size = s.tail
  · simp only [advance, hpc, if_pos hfull]
    exact .inr (h.move trivial hwritten (by simp [Pc.IsPop]) rfl rfl)
  · simp only [advance, hpc, if_neg hfull]
    rcases Nat.lt_or_eq_of_le hle with hlt | heq
    · left
      refine ⟨t,?_⟩
      rw [setPc_pc]
      exact hlt
    · right
      refine h.move ⟨heq,hhead heq,?_⟩ hwritten (by simp [Pc.IsPop]) rfl rfl
      rw [hhead heq, h.head_eq, next_eq_tail_iff h.tail_lt h.length_lt] at hfull
      have hlength := h.length_lt
      omega

/-- A pop goes on only if there is an item. -/
theorem look (h : Queue size s xs tr) {tail : ℕ} (hpc : s.pc t = .popTail tail) :
    Queue size (s.advance size t).1 xs (tr ++ (s.advance size t).2) := by
  have hvalid := h.valid t
  rw [hpc] at hvalid
  have htail : tail = s.tail := hvalid
  have hwritten : ¬ (s.pc t).IsWritten := by simp [hpc, Pc.IsWritten]
  have hfeed : t ≠ .feed := h.not_feed (by simp [hpc, Pc.IsPop])
  by_cases hempty : tail = s.head
  · simp only [advance, hpc, if_pos hempty]
    exact h.move trivial hwritten (by simp [Pc.IsPop]) rfl rfl
  · simp only [advance, hpc, if_neg hempty]
    refine h.move ⟨htail,?_⟩ hwritten (fun ht => absurd ht hfeed) rfl rfl
    rintro rfl
    apply hempty
    rw [htail, h.head_eq]
    exact ((head_eq_tail_iff h.tail_lt h.length_lt).mpr rfl).symm

/-- What a pop reads is the oldest item. -/
theorem read (h : Queue size s xs tr) {tail : ℕ} (hpc : s.pc t = .popItem tail) :
    Queue size (s.advance size t).1 xs (tr ++ (s.advance size t).2) := by
  have hvalid := h.valid t
  rw [hpc] at hvalid
  obtain ⟨rfl,hsome⟩ := hvalid
  have hfeed : t ≠ .feed := h.not_feed (by simp [hpc, Pc.IsPop])
  simp only [advance, hpc]
  refine h.move ⟨rfl,?_⟩ (by simp [hpc, Pc.IsWritten]) (fun ht => absurd ht hfeed) rfl rfl
  obtain ⟨x,ys,rfl⟩ := List.exists_cons_of_ne_nil hsome
  have hcontents := h.contents
  rw [List.length_cons, window_cons, List.cons.injEq, Nat.mod_eq_of_lt h.tail_lt] at hcontents
  rw [List.head?_cons, hcontents.1]

/-- The next step of a thread. -/
theorem advance (h : Queue size s xs tr) (t : Thread) : Doomed (s.advance size t).1 ∨
    ∃ ys, Queue size (s.advance size t).1 ys (tr ++ (s.advance size t).2) := by
  cases hpc : s.pc t with
  | idle =>
    simp only [RingBuffer.advance, hpc, List.append_nil]
    exact .inr ⟨xs,h⟩
  | pushHead item head seen => exact (h.check hpc).imp_right (fun hq => ⟨xs,hq⟩)
  | pushRoom item head seen =>
    simp only [RingBuffer.advance, hpc, List.append_nil]
    exact .inr ⟨xs,h.write hpc⟩
  | pushWritten item head seen =>
    simp only [RingBuffer.advance, hpc]
    by_cases hstale : (s.pc t.other).Stale (s.stores + 1)
    · left
      refine ⟨t.other,?_⟩
      rw [setPc_pc_other]
      exact hstale
    · exact .inr ⟨_,h.store hpc hstale⟩
  | popTail tail => exact .inr ⟨xs,h.look hpc⟩
  | popItem tail => exact .inr ⟨xs,h.read hpc⟩
  | popRead tail item =>
    simp only [RingBuffer.advance, hpc]
    obtain ⟨ys,-,hnext⟩ := h.take hpc
    exact .inr ⟨ys,hnext⟩

/-- A queue whose calls are about to make a fresh step stays a queue, or a push is doomed. -/
theorem next (h : Queue size s xs tr) (l : Call α) : Doomed (RingBuffer.next size s l).1 ∨
    ∃ ys, Queue size (RingBuffer.next size s l).1 ys (tr ++ (RingBuffer.next size s l).2) := by
  cases l with
  | push t item =>
    right
    refine ⟨xs,?_⟩
    simp only [RingBuffer.next]
    cases hpc : s.pc t with
    | idle =>
      have hvalid : (Pc.pushHead item s.head s.stores).Valid size s xs (s.pc t.other) :=
        ⟨le_rfl,fun _ => rfl⟩
      exact h.move hvalid (by simp [hpc, Pc.IsWritten]) (by simp [Pc.IsPop]) rfl rfl
    | _ => simpa using h
  | pop =>
    right
    refine ⟨xs,?_⟩
    simp only [RingBuffer.next]
    cases hpc : s.pc .processor with
    | idle =>
      have hvalid : (Pc.popTail s.tail).Valid size s xs (s.pc Thread.processor.other) := rfl
      exact h.move hvalid (by simp [hpc, Pc.IsWritten]) (by simp) rfl rfl
    | _ => simpa using h
  | step t => exact h.advance t

end Queue

theorem queue_init [Inhabited α] (hsize : 0 < size) :
    Queue size (init : RingBuffer α) [] [] :=
  ⟨hsize,hsize,(Nat.mod_eq_of_lt hsize).symm,rfl,rfl,fun _ => trivial,id⟩

/-- With no call in progress the stored items are the queue. -/
theorem Queue.stored_eq {s : RingBuffer α} {xs : List α} {tr : List (Op α)}
    (h : Queue size s xs tr) : s.stored size = xs := by
  have hlength : s.size size = xs.length := by
    have hdistance := distance_eq h.tail_lt h.length_lt
    rw [← h.head_eq] at hdistance
    exact hdistance
  rw [stored, hlength]
  exact h.contents

/-- In every run in which each push stores `head_` before the other thread does so after the
push loaded it, the accepted events are, whenever no call is in progress, the popped ones and
the stored ones. -/
theorem accepted_perm [Inhabited α] (hsize : 0 < size) (calls : List (Call α))
    (hfresh : (machine size).Along StoresFresh init calls)
    (hquiet : (run size (init : RingBuffer α) calls).1.Quiet) :
    (accepted (run size init calls).2).Perm
      (popped (run size init calls).2 ++ (run size init calls).1.stored size) := by
  have hstart : Doomed (init : RingBuffer α) ∨ ∃ xs, Queue size (init : RingBuffer α) xs [] :=
    .inr ⟨[],queue_init hsize⟩
  have hinv := (machine size).run_invariant (P := StoresFresh)
    (I := fun (s : RingBuffer α) tr => Doomed s ∨ ∃ xs, Queue size s xs tr) ?_ hstart hfresh
  · rw [List.nil_append] at hinv
    rcases hinv with ⟨t,ht⟩ | ⟨xs,hqueue⟩
    · have hidle := hquiet t
      rw [run] at hidle
      rw [hidle] at ht
      exact ht.elim
    · rw [run, hqueue.stored_eq, hqueue.history]
  · rintro s tr l (hdoomed | ⟨xs,hqueue⟩) hstep
    · exact .inl (hdoomed.next hstep)
    · exact hqueue.next l

/-- The feed pushes two events, the processor pops the first one meanwhile and then pushes. -/
def pushesInTurn : List (Call Event) :=
  [.push .feed (.cancelOrder 1),.step .feed,.step .feed,.step .feed,
    .pop,.push .feed (.cancelOrder 2),.step .processor,.step .feed,.step .processor,.step .feed,
    .step .processor,.step .feed,
    .push .processor (.cancelOrder 3),.step .processor,.step .processor,.step .processor]

theorem accepted_perm_pushesInTurn :
    (accepted (run 1024 init pushesInTurn).2).Perm
      (popped (run 1024 init pushesInTurn).2 ++ (run 1024 init pushesInTurn).1.stored 1024) :=
  accepted_perm (by decide) pushesInTurn (by decide) (fun t => by cases t <;> rfl)

/-- Both threads load the same `head_`, and the second store undoes the first. -/
def pushesAtOnce : List (Call Event) :=
  [.push .feed (.cancelOrder 1),.push .processor (.cancelOrder 2),.step .feed,.step .processor,
    .step .feed,.step .processor,.step .feed,.step .processor]

/-- Both pushes return true, and one event is gone. -/
theorem event_lost :
    (run 1024 init pushesAtOnce).1.Quiet ∧
    accepted (run 1024 init pushesAtOnce).2 = [.cancelOrder 1,.cancelOrder 2] ∧
    popped (run 1024 init pushesAtOnce).2 = [] ∧
    (run 1024 init pushesAtOnce).1.stored 1024 = [.cancelOrder 2] := by
  refine ⟨?_,rfl,rfl,rfl⟩
  intro t
  cases t <;> rfl

end RingBuffer
end HftEngine.Core
