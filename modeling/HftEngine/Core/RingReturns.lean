import HftEngine.Core.SingleProducer

/-! What a call on the ring buffer has done when it returns. If no store of `head_` falls into a
push of the other thread, every call acts as if all of it happened in its last step. -/
namespace HftEngine.Core
open Fifo Circular

namespace Pc
variable {α : Type}

def isIdle : Pc α → Bool
  | .idle => true
  | _ => false

/-- In a push of the item. -/
def Pushing (item : α) : Pc α → Prop
  | .pushHead x _ _ => x = item
  | .pushRoom x _ _ => x = item
  | .pushWritten x _ _ => x = item
  | _ => False

instance (stores : ℕ) : (pc : Pc α) → Decidable (pc.Current stores)
  | .idle => isTrue trivial
  | .pushHead _ _ seen => inferInstanceAs (Decidable (seen = stores))
  | .pushRoom _ _ seen => inferInstanceAs (Decidable (seen = stores))
  | .pushWritten _ _ seen => inferInstanceAs (Decidable (seen = stores))
  | .popTail _ => isTrue trivial
  | .popItem _ => isTrue trivial
  | .popRead _ _ => isTrue trivial

theorem Pushing.not_idle {pc : Pc α} {item : α} (h : pc.Pushing item) : pc.isIdle = false := by
  cases pc <;> trivial

theorem IsPop.not_idle {pc : Pc α} (h : pc.IsPop) : pc.isIdle = false := by
  cases pc <;> trivial

end Pc

namespace RingBuffer
variable {α : Type} {size : ℕ}

/-- No push in progress has been overtaken by a store of `head_`. -/
def Undisturbed (s : RingBuffer α) : Prop :=
  (s.pc .feed).Current s.stores ∧ (s.pc .processor).Current s.stores

instance (s : RingBuffer α) : Decidable (Undisturbed s) :=
  inferInstanceAs (Decidable (_ ∧ _))

/-- The thread begins the call, or makes the next step of it. -/
def proceed (size : ℕ) (t : Thread) (call : Call α) (s : RingBuffer α) :
    RingBuffer α × List (Op α) :=
  next size s (if (s.pc t).isIdle then call else .step t)

/-- The thread that makes a step. -/
def Call.thread : Call α → Thread
  | .push t _ => t
  | .pop => .processor
  | .step t => t

section
variable {s : RingBuffer α} {t : Thread}

theorem Undisturbed.current (h : Undisturbed s) (t : Thread) : (s.pc t).Current s.stores := by
  cases t with
  | feed => exact h.1
  | processor => exact h.2

theorem Undisturbed.not_doomed (h : Undisturbed s) : ¬Doomed s := by
  rintro ⟨t,hstale⟩
  exact (h.current t).not_stale hstale

/-- A step of a thread leaves the other one where it is. -/
theorem next_pc_other (l : Call α) : (next size s l).1.pc l.thread.other = s.pc l.thread.other := by
  cases l with
  | push t item =>
    simp only [next, Call.thread]
    split
    · exact setPc_pc_other s t _
    · rfl
  | pop =>
    simp only [next, Call.thread]
    split
    · exact setPc_pc_other s .processor _
    · rfl
  | step t =>
    simp only [next, Call.thread, advance]
    cases s.pc t with
    | idle => rfl
    | pushHead item head seen =>
      dsimp only
      split <;> exact setPc_pc_other _ t _
    | popTail tail =>
      dsimp only
      split <;> exact setPc_pc_other _ t _
    | _ => exact setPc_pc_other _ t _

theorem proceed_pc_other {call : Call α} (hcall : call.thread = t) :
    (s.proceed size t call).1.pc t.other = s.pc t.other := by
  unfold proceed
  split
  · rw [← hcall]
    exact next_pc_other call
  · exact next_pc_other (.step t)

end

namespace Queue
variable {s : RingBuffer α} {xs : List α} {tr : List (Op α)} {t : Thread}

/-- A step that overtakes no push adds what it accepts to the queue and takes what it pops. -/
theorem next_queue (h : Queue size s xs tr) {l : Call α}
    (hnext : Undisturbed (RingBuffer.next size s l).1) : ∃ ys,
      Queue size (RingBuffer.next size s l).1 ys (tr ++ (RingBuffer.next size s l).2) ∧
        xs ++ accepted (RingBuffer.next size s l).2 =
          popped (RingBuffer.next size s l).2 ++ ys := by
  obtain hdoomed | ⟨ys,hqueue⟩ := h.next l
  · exact absurd hdoomed hnext.not_doomed
  · refine ⟨ys,hqueue,?_⟩
    have hhistory := hqueue.history
    rw [accepted_append, popped_append, h.history, List.append_assoc, List.append_assoc] at hhistory
    exact List.append_cancel_left hhistory

theorem proceed_queue (h : Queue size s xs tr) {call : Call α}
    (hnext : Undisturbed (s.proceed size t call).1) : ∃ ys,
      Queue size (s.proceed size t call).1 ys (tr ++ (s.proceed size t call).2) ∧
        xs ++ accepted (s.proceed size t call).2 = popped (s.proceed size t call).2 ++ ys :=
  h.next_queue hnext

/-- A push fails in its check exactly if the queue is full then, and else returns true from its
store of `head_`. -/
theorem proceed_push (h : Queue size s xs tr) (hcurrent : Undisturbed s) {item : α}
    (hcall : s.pc t = .idle ∨ (s.pc t).Pushing item) :
    let next := s.proceed size t (.push t item)
    (next.1.pc t).Pushing item ∧ next.2 = [] ∨
      next.1.pc t = .idle ∧ next.2 = [.push item (decide (xs.length < size - 1))] := by
  have hlength := h.length_lt
  have hvalid := h.valid t
  intro next
  obtain hidle | hpushing := hcall
  · left
    have hbegin : next = (s.setPc t (.pushHead item s.head s.stores),[]) := by
      simp [next, proceed, RingBuffer.next, hidle, Pc.isIdle]
    rw [hbegin]
    refine ⟨?_,rfl⟩
    rw [setPc_pc]
    rfl
  · have hstep : next = s.advance size t := by
      simp [next, proceed, RingBuffer.next, hpushing.not_idle]
    rw [hstep]
    cases hpc : s.pc t with
    | pushHead x head seen =>
      rw [hpc] at hvalid hpushing
      obtain rfl : x = item := hpushing
      have hseen : seen = s.stores := by
        have hpresent := hcurrent.current t
        rw [hpc] at hpresent
        exact hpresent
      obtain rfl : head = s.head := hvalid.2 hseen
      have hfull : (s.head + 1) % size = s.tail ↔ xs.length + 1 = size := by
        rw [h.head_eq]
        exact next_eq_tail_iff h.tail_lt h.length_lt
      by_cases hroom : xs.length + 1 = size
      · right
        have hno : ¬xs.length < size - 1 := by omega
        simp only [RingBuffer.advance, hpc, if_pos (hfull.mpr hroom), hno, decide_false]
        exact ⟨setPc_pc s t _,trivial⟩
      · left
        simp only [RingBuffer.advance, hpc, if_neg (fun hf => hroom (hfull.mp hf))]
        refine ⟨?_,trivial⟩
        rw [setPc_pc]
        rfl
    | pushRoom x head seen =>
      left
      rw [hpc] at hpushing
      simp only [RingBuffer.advance, hpc]
      refine ⟨?_,trivial⟩
      rw [setPc_pc]
      exact hpushing
    | pushWritten x head seen =>
      right
      rw [hpc] at hvalid hpushing
      obtain rfl : x = item := hpushing
      have hroom : xs.length < size - 1 := by
        have hfits : xs.length + 1 < size := hvalid.2.2.1
        omega
      simp only [RingBuffer.advance, hpc, hroom, decide_true]
      exact ⟨setPc_pc _ t _,trivial⟩
    | _ =>
      rw [hpc] at hpushing
      exact absurd hpushing id

/-- A pop returns nothing exactly if the queue is empty when it loads `head_`, and else its oldest
item. -/
theorem proceed_pop (h : Queue size s xs tr)
    (hcall : s.pc .processor = .idle ∨ (s.pc .processor).IsPop) :
    let next := s.proceed size .processor .pop
    (next.1.pc .processor).IsPop ∧ next.2 = [] ∨
      next.1.pc .processor = .idle ∧ next.2 = (xs.head?.map Op.pop).toList := by
  have hvalid := h.valid .processor
  intro next
  obtain hidle | hpopping := hcall
  · left
    have hbegin : next = (s.setPc .processor (.popTail s.tail),[]) := by
      simp [next, proceed, RingBuffer.next, hidle, Pc.isIdle]
    rw [hbegin]
    refine ⟨?_,rfl⟩
    rw [setPc_pc]
    trivial
  · have hstep : next = s.advance size .processor := by
      simp [next, proceed, RingBuffer.next, hpopping.not_idle]
    rw [hstep]
    cases hpc : s.pc .processor with
    | popTail tail =>
      rw [hpc] at hvalid
      obtain rfl : tail = s.tail := hvalid
      have hempty : s.tail = s.head ↔ xs = [] := by
        rw [h.head_eq, eq_comm, head_eq_tail_iff h.tail_lt h.length_lt, List.length_eq_zero_iff]
      by_cases hnone : xs = []
      · right
        simp only [RingBuffer.advance, hpc, if_pos (hempty.mpr hnone), hnone]
        exact ⟨setPc_pc s .processor _,rfl⟩
      · left
        simp only [RingBuffer.advance, hpc, if_neg (fun he => hnone (hempty.mp he))]
        refine ⟨?_,trivial⟩
        rw [setPc_pc]
        trivial
    | popItem tail =>
      left
      simp only [RingBuffer.advance, hpc]
      refine ⟨?_,trivial⟩
      rw [setPc_pc]
      trivial
    | popRead tail item =>
      right
      rw [hpc] at hvalid
      simp only [RingBuffer.advance, hpc, hvalid.2]
      exact ⟨setPc_pc _ .processor _,rfl⟩
    | _ =>
      rw [hpc] at hpopping
      exact absurd hpopping id

end Queue
end RingBuffer
end HftEngine.Core
