import HftEngine.Foundation.Machine
import Mathlib.Order.WellFounded

/-! Infinite schedules of a machine: what holds at every moment, what one thing leads to, the rule
that a rank which every helpful step lowers is used up under a schedule that keeps helping, and the
progress of a machine that is part of another one. -/
namespace HftEngine.Machine
variable {State Label Obs : Type*} (M : Machine State Label Obs)

/-- The state after the first `n` steps of a schedule. -/
def after (s : State) (schedule : ℕ → Label) : ℕ → State
  | 0 => s
  | n+1 => (M.step (after s schedule n) (schedule n)).1

/-- Labels of one kind are taken again and again. -/
def Recurrent (p : Label → Prop) (schedule : ℕ → Label) : Prop := ∀ n, ∃ m, n ≤ m ∧ p (schedule m)

/-- Whenever `P` holds, `Q` holds then or later. -/
def LeadsTo (s : State) (schedule : ℕ → Label) (P Q : State → Prop) : Prop :=
  ∀ n, P (M.after s schedule n) → ∃ m, n ≤ m ∧ Q (M.after s schedule m)

section
variable {s : State} {schedule : ℕ → Label}

theorem after_succ (n : ℕ) :
    M.after s schedule (n+1) = (M.step (M.after s schedule n) (schedule n)).1 := rfl

theorem after_invariant {I : State → Prop} (hstep : ∀ s l, I s → I (M.step s l).1) (h : I s)
    (n : ℕ) : I (M.after s schedule n) := by
  induction n with
  | zero => exact h
  | succ n ih => exact hstep _ _ ih

/-- What every step keeps is kept from any moment on. -/
theorem after_stable {T : State → Prop} (hstep : ∀ s l, T s → T (M.step s l).1) {n m : ℕ}
    (hn : T (M.after s schedule n)) (hm : n ≤ m) : T (M.after s schedule m) := by
  induction hm with
  | refl => exact hn
  | step _ ih => exact hstep _ _ ih

theorem after_const {n m : ℕ} (hn : ∀ l, (M.step (M.after s schedule n) l).1 = M.after s schedule n)
    (hm : n ≤ m) : M.after s schedule m = M.after s schedule n := by
  induction hm with
  | refl => rfl
  | step _ ih => rw [after_succ, ih, hn]

/-- Stages one after another, each of which may be cut short by `D`. -/
theorem LeadsTo.trans_or {P Q R D : State → Prop}
    (hPQ : M.LeadsTo s schedule P (fun s => D s ∨ Q s))
    (hQR : M.LeadsTo s schedule Q (fun s => D s ∨ R s)) :
    M.LeadsTo s schedule P (fun s => D s ∨ R s) := by
  intro n hP
  obtain ⟨m,hm,hD | hQ⟩ := hPQ n hP
  · exact ⟨m,hm,.inl hD⟩
  · obtain ⟨k,hk,hR⟩ := hQR m hQ
    exact ⟨k,hm.trans hk,hR⟩

/-- Until the goal is reached, the condition stays and the rank does not rise. -/
theorem waits {P Q : State → Prop} {α : Type*} [Preorder α] {r : State → α}
    (hstay : ∀ s l, P s → Q (M.step s l).1 ∨ P (M.step s l).1 ∧ r (M.step s l).1 ≤ r s)
    {n : ℕ} (hP : P (M.after s schedule n)) {m : ℕ} (hm : n ≤ m) :
    (∃ k, n ≤ k ∧ Q (M.after s schedule k)) ∨
      P (M.after s schedule m) ∧ r (M.after s schedule m) ≤ r (M.after s schedule n) := by
  induction hm with
  | refl => exact .inr ⟨hP,le_refl _⟩
  | @step m hm ih =>
    cases ih with
    | inl hgoal => exact .inl hgoal
    | inr hwait =>
      cases hstay _ (schedule m) hwait.1 with
      | inl hQ => exact .inl ⟨m+1,Nat.le_succ_of_le hm,hQ⟩
      | inr hnext => exact .inr ⟨hnext.1,hnext.2.trans hwait.2⟩

/-- The rank rule: where `P` waits for `Q`, no step raises the rank, each step of a recurrent kind
lowers it, and ranks cannot fall for ever, `P` leads to `Q`. -/
theorem leadsTo_of_rank {P Q : State → Prop} {α : Type*} [Preorder α] [WellFoundedLT α]
    {r : State → α} {p : Label → Prop} (hfair : Recurrent p schedule)
    (hstay : ∀ s l, P s → Q (M.step s l).1 ∨ P (M.step s l).1 ∧ r (M.step s l).1 ≤ r s)
    (hhelp : ∀ s l, P s → p l → Q (M.step s l).1 ∨ r (M.step s l).1 < r s) :
    M.LeadsTo s schedule P Q := by
  suffices hall : ∀ a n, P (M.after s schedule n) → r (M.after s schedule n) = a →
      ∃ m, n ≤ m ∧ Q (M.after s schedule m) from fun n hP => hall _ n hP rfl
  intro a
  induction a using WellFoundedLT.induction with
  | ind a ih =>
    rintro n hP rfl
    obtain ⟨m,hm,hp⟩ := hfair n
    cases M.waits hstay hP hm with
    | inl hgoal => exact hgoal
    | inr hwait =>
      cases hhelp _ (schedule m) hwait.1 hp with
      | inl hQ => exact ⟨m+1,hm.trans (Nat.le_succ m),hQ⟩
      | inr hlower =>
        cases hstay _ (schedule m) hwait.1 with
        | inl hQ => exact ⟨m+1,hm.trans (Nat.le_succ m),hQ⟩
        | inr hnext =>
          obtain ⟨k,hk,hQ⟩ := ih _ (hlower.trans_le hwait.2) (m+1) hnext.1 rfl
          exact ⟨k,(hm.trans (Nat.le_succ m)).trans hk,hQ⟩

end

/-- Some rank falls with every step of the kind `p` and rises with none, from `P` until `Q`. -/
def Progresses (p : Label → Prop) (P Q : State → Prop) : Prop :=
  ∃ r : State → ℕ,
    (∀ s l, P s → Q (M.step s l).1 ∨ P (M.step s l).1 ∧ r (M.step s l).1 ≤ r s) ∧
    ∀ s l, P s → p l → Q (M.step s l).1 ∨ r (M.step s l).1 < r s

theorem Progresses.leadsTo {p : Label → Prop} {P Q : State → Prop} (h : M.Progresses p P Q)
    {s : State} {schedule : ℕ → Label} (hfair : Recurrent p schedule) :
    M.LeadsTo s schedule P Q := by
  obtain ⟨r,hstay,hhelp⟩ := h
  exact M.leadsTo_of_rank hfair hstay hhelp

/-- One machine as a part of another: the whole leaves it alone or makes a step of it, and some
labels of the whole stand for labels of the part. -/
structure Part {State' Label' Obs' : Type*} (M : Machine State Label Obs)
    (N : Machine State' Label' Obs') (part : State' → State) (stands : Label' → Label → Prop) :
    Prop where
  step : ∀ s l, part (N.step s l).1 = part s ∨
    ∃ l', part (N.step s l).1 = (M.step (part s) l').1
  acts : ∀ s l l', stands l l' → part (N.step s l).1 = (M.step (part s) l').1

theorem Part.refl : Part M M id Eq where
  step _ l := .inr ⟨l,rfl⟩
  acts s _ _ h := congrArg (fun l => (M.step s l).1) h

/-- The progress of a part is progress of the whole. -/
theorem Part.progresses {State' Label' Obs' : Type*} {N : Machine State' Label' Obs'}
    {part : State' → State} {stands : Label' → Label → Prop} (hpart : Part M N part stands)
    {p : Label → Prop} {P Q : State → Prop} (h : M.Progresses p P Q) :
    N.Progresses (fun l => ∃ l', p l' ∧ stands l l') (fun s => P (part s))
      (fun s => Q (part s)) := by
  obtain ⟨r,hstay,hlower⟩ := h
  refine ⟨fun s => r (part s),?_,?_⟩
  · intro s l hP
    dsimp only
    rcases hpart.step s l with hsame | ⟨l',hstep⟩
    · rw [hsame]
      exact .inr ⟨hP,le_refl _⟩
    · rw [hstep]
      exact hstay _ l' hP
  · rintro s l hP ⟨l',hl',hstands⟩
    dsimp only
    rw [hpart.acts s l l' hstands]
    exact hlower _ l' hP hl'

end HftEngine.Machine
