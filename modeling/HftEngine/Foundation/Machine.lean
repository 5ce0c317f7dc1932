import Mathlib.Algebra.GroupWithZero.Nat
import Mathlib.Data.List.Basic

/-! Deterministic labelled machines with observations: finite runs, conditions met along
a run, and the induction rule by which one step lemma becomes a run lemma. -/
namespace HftEngine

/-- A state machine that emits a list of observations at every labelled step. -/
structure Machine (State Label Obs : Type*) where
  step : State → Label → State × List Obs

namespace Machine
variable {State Label Obs : Type*} (M : Machine State Label Obs)

/-- Final state and complete trace of a schedule. -/
def run : State → List Label → State × List Obs
  | s, [] => (s,[])
  | s, l :: ls =>
    let next := M.step s l
    let rest := run next.1 ls
    (rest.1,next.2 ++ rest.2)

/-- Every step of the run of a schedule starts in a state that meets `P` with its label. -/
def Along (P : State → Label → Prop) : State → List Label → Prop
  | _, [] => True
  | s, l :: ls => P s l ∧ Along P (M.step s l).1 ls

@[simp] theorem run_nil (s : State) : M.run s [] = (s,[]) := rfl

@[simp] theorem run_cons (s : State) (l : Label) (ls : List Label) :
    M.run s (l :: ls) = ((M.run (M.step s l).1 ls).1,
      (M.step s l).2 ++ (M.run (M.step s l).1 ls).2) := rfl

@[simp] theorem along_nil (P : State → Label → Prop) (s : State) : M.Along P s [] := trivial

@[simp] theorem along_cons (P : State → Label → Prop) (s : State) (l : Label) (ls : List Label) :
    M.Along P s (l :: ls) ↔ P s l ∧ M.Along P (M.step s l).1 ls := Iff.rfl

instance decidableAlong (P : State → Label → Prop) [∀ s l, Decidable (P s l)] :
    (s : State) → (ls : List Label) → Decidable (M.Along P s ls)
  | _, [] => isTrue trivial
  | s, l :: ls =>
    have := decidableAlong P (M.step s l).1 ls
    inferInstanceAs (Decidable (P s l ∧ M.Along P (M.step s l).1 ls))

theorem run_append (s : State) (xs ys : List Label) :
    M.run s (xs ++ ys) = ((M.run (M.run s xs).1 ys).1,
      (M.run s xs).2 ++ (M.run (M.run s xs).1 ys).2) := by
  induction xs generalizing s with
  | nil => rfl
  | cons x xs ih => simp only [List.cons_append, run_cons, ih, List.append_assoc]

/-- A condition that holds of every state and label is met along every run. -/
theorem along_of_forall {P : State → Label → Prop} (h : ∀ s l, P s l) (s : State)
    (ls : List Label) : M.Along P s ls := by
  induction ls generalizing s with
  | nil => trivial
  | cons l ls ih => exact ⟨h s l,ih _⟩

theorem along_of_mem {P : State → Label → Prop} {ls : List Label}
    (h : ∀ s, ∀ l ∈ ls, P s l) (s : State) : M.Along P s ls := by
  induction ls generalizing s with
  | nil => trivial
  | cons l ls ih => exact ⟨h s l (by simp),ih (fun s l hl => h s l (by simp [hl])) _⟩

theorem along_append {P : State → Label → Prop} (s : State) (xs ys : List Label) :
    M.Along P s (xs ++ ys) ↔ M.Along P s xs ∧ M.Along P (M.run s xs).1 ys := by
  induction xs generalizing s with
  | nil => simp
  | cons x xs ih => simp only [List.cons_append, along_cons, ih, run_cons, and_assoc]

theorem Along.take {P : State → Label → Prop} {s : State} {ls : List Label} (h : M.Along P s ls)
    (n : ℕ) : M.Along P s (ls.take n) := by
  rw [← List.take_append_drop n ls, along_append] at h
  exact h.1

theorem Along.and {P Q : State → Label → Prop} {s : State} {ls : List Label}
    (hP : M.Along P s ls) (hQ : M.Along Q s ls) : M.Along (fun s l => P s l ∧ Q s l) s ls := by
  induction ls generalizing s with
  | nil => trivial
  | cons l ls ih => exact ⟨⟨hP.1,hQ.1⟩,ih hP.2 hQ.2⟩

/-- Conditions that agree wherever an invariant holds are met along the same runs. -/
theorem along_congr_of_invariant {I : State → Prop} {P Q : State → Label → Prop}
    {ls : List Label} (hstep : ∀ s, ∀ l ∈ ls, I s → I (M.step s l).1)
    (h : ∀ s, ∀ l ∈ ls, I s → (P s l ↔ Q s l)) {s : State} (hI : I s) :
    M.Along P s ls ↔ M.Along Q s ls := by
  induction ls generalizing s with
  | nil => exact Iff.rfl
  | cons l ls ih =>
    have hrest := ih (fun s l hl => hstep s l (by simp [hl]))
      (fun s l hl => h s l (by simp [hl])) (hstep s l (by simp) hI)
    rw [along_cons, along_cons, h s l (by simp) hI, hrest]

theorem along_congr {P Q : State → Label → Prop} {ls : List Label}
    (h : ∀ s, ∀ l ∈ ls, (P s l ↔ Q s l)) (s : State) : M.Along P s ls ↔ M.Along Q s ls :=
  M.along_congr_of_invariant (I := fun _ => True) (fun _ _ _ _ => trivial)
    (fun s l hl _ => h s l hl) trivial

/-- What every observation of a run satisfies, every observation of each of its steps does. -/
theorem forall_run_iff_along {p : Obs → Prop} (s : State) (ls : List Label) :
    (∀ o ∈ (M.run s ls).2, p o) ↔ M.Along (fun s l => ∀ o ∈ (M.step s l).2, p o) s ls := by
  induction ls generalizing s with
  | nil => simp
  | cons l ls ih => simp only [run_cons, List.forall_mem_append, along_cons, ih]

/-- What `g` reads off each step of a run, in order. -/
def collect {β : Type*} (g : State → Label → List β) : State → List Label → List β
  | _, [] => []
  | s, l :: ls => g s l ++ collect g (M.step s l).1 ls

@[simp] theorem collect_nil {β : Type*} (g : State → Label → List β) (s : State) :
    M.collect g s [] = [] := rfl

@[simp] theorem collect_cons {β : Type*} (g : State → Label → List β) (s : State) (l : Label)
    (ls : List Label) : M.collect g s (l :: ls) = g s l ++ M.collect g (M.step s l).1 ls := rfl

/-- Where less is read off every step, less is collected. -/
theorem collect_sublist {β : Type*} {f g : State → Label → List β}
    (h : ∀ s l, (f s l).Sublist (g s l)) (s : State) (ls : List Label) :
    (M.collect f s ls).Sublist (M.collect g s ls) := by
  induction ls generalizing s with
  | nil => exact List.Sublist.refl _
  | cons l ls ih => exact (h s l).append (ih _)

/-- What holds of all that is read off a step where an invariant holds, holds of all that is
collected along a run. -/
theorem forall_collect {β : Type*} {g : State → Label → List β} {I : State → Prop} {Q : β → Prop}
    {ls : List Label} (hkeep : ∀ s, ∀ l ∈ ls, I s → I (M.step s l).1)
    (h : ∀ s, ∀ l ∈ ls, I s → ∀ x ∈ g s l, Q x) {s : State} (hI : I s) :
    ∀ x ∈ M.collect g s ls, Q x := by
  induction ls generalizing s with
  | nil => exact fun x hx => absurd hx List.not_mem_nil
  | cons l ls ih =>
    rw [collect_cons, List.forall_mem_append]
    exact ⟨h s l List.mem_cons_self hI,
      ih (fun s l hl => hkeep s l (List.mem_cons_of_mem _ hl))
        (fun s l hl => h s l (List.mem_cons_of_mem _ hl)) (hkeep s l List.mem_cons_self hI)⟩

/-- What one additive measure of the trace does not exceed on a step it does not exceed on a
run. -/
theorem run_le {v w : List Obs → ℕ} (hv : ∀ xs ys, v (xs ++ ys) = v xs + v ys)
    (hw : ∀ xs ys, w (xs ++ ys) = w xs + w ys) (hle : ∀ s l, v (M.step s l).2 ≤ w (M.step s l).2)
    (s : State) (ls : List Label) : v (M.run s ls).2 ≤ w (M.run s ls).2 := by
  induction ls generalizing s with
  | nil =>
    have hzero : v [] = v [] + v [] := by simpa using hv [] []
    have hnil : v [] = 0 := by omega
    rw [run_nil, hnil]
    exact Nat.zero_le _
  | cons l ls ih =>
    rw [run_cons, hv, hw]
    exact Nat.add_le_add (hle s l) (ih _)

/-- The ledger rule: of two additive measures of the trace, one never above the other on a step,
the totals agree exactly when they agree on every step. -/
theorem run_eq_iff_along {v w : List Obs → ℕ} (hv : ∀ xs ys, v (xs ++ ys) = v xs + v ys)
    (hw : ∀ xs ys, w (xs ++ ys) = w xs + w ys) (hle : ∀ s l, v (M.step s l).2 ≤ w (M.step s l).2)
    (s : State) (ls : List Label) : v (M.run s ls).2 = w (M.run s ls).2 ↔
      M.Along (fun s l => v (M.step s l).2 = w (M.step s l).2) s ls := by
  induction ls generalizing s with
  | nil =>
    have hvzero : v [] = v [] + v [] := by simpa using hv [] []
    have hwzero : w [] = w [] + w [] := by simpa using hw [] []
    simp only [run_nil, along_nil, iff_true]
    omega
  | cons l ls ih =>
    have hfirst := hle s l
    have hrest := M.run_le hv hw hle (M.step s l).1 ls
    rw [run_cons, hv, hw, along_cons, ← ih]
    omega

/-- The run rule: a property of state and history that every step meeting `P` preserves
holds after every run whose steps meet `P`. -/
theorem run_invariant {P : State → Label → Prop} {I : State → List Obs → Prop}
    (hstep : ∀ s tr l, I s tr → P s l → I (M.step s l).1 (tr ++ (M.step s l).2))
    {s : State} {tr : List Obs} (h : I s tr) {ls : List Label} (hP : M.Along P s ls) :
    I (M.run s ls).1 (tr ++ (M.run s ls).2) := by
  induction ls generalizing s tr with
  | nil => simpa using h
  | cons l ls ih =>
    have hnext := ih (hstep s tr l h hP.1) hP.2
    simpa only [run_cons, List.append_assoc] using hnext

/-- The run rule for a property of the state alone. -/
theorem run_state_invariant {P : State → Label → Prop} {I : State → Prop}
    (hstep : ∀ s l, I s → P s l → I (M.step s l).1) {s : State} (h : I s) {ls : List Label}
    (hP : M.Along P s ls) : I (M.run s ls).1 := by
  induction ls generalizing s with
  | nil => exact h
  | cons l ls ih => exact ih (hstep s l h hP.1) hP.2

/-- The exactness rule: if, where an invariant of state and history holds, a step keeps it exactly
when it meets `P`, then the invariant holds at every point of a run exactly when every step meets
`P`. -/
theorem forall_take_iff_along_of_trace {I : State → List Obs → Prop} {P : State → Label → Prop}
    (hstep : ∀ s tr l, I s tr → (I (M.step s l).1 (tr ++ (M.step s l).2) ↔ P s l)) {s : State}
    {tr : List Obs} (h : I s tr) (ls : List Label) :
    (∀ n, I (M.run s (ls.take n)).1 (tr ++ (M.run s (ls.take n)).2)) ↔ M.Along P s ls := by
  induction ls generalizing s tr with
  | nil => simpa using h
  | cons l ls ih =>
    rw [along_cons]
    constructor
    · intro hall
      have hfirst : I (M.step s l).1 (tr ++ (M.step s l).2) := by simpa using hall 1
      refine ⟨(hstep s tr l h).mp hfirst,(ih hfirst).mp ?_⟩
      intro n
      have hnext := hall (n+1)
      rw [List.take_succ_cons, run_cons, ← List.append_assoc] at hnext
      exact hnext
    · rintro ⟨hP,hrest⟩ n
      have hfirst := (hstep s tr l h).mpr hP
      cases n with
      | zero => simpa using h
      | succ n =>
        rw [List.take_succ_cons, run_cons, ← List.append_assoc]
        exact (ih hfirst).mpr hrest n

/-- The exactness rule for an invariant of the state alone. -/
theorem forall_take_iff_along {I : State → Prop} {P : State → Label → Prop}
    (hstep : ∀ s l, I s → (I (M.step s l).1 ↔ P s l)) {s : State} (h : I s) (ls : List Label) :
    (∀ n, I (M.run s (ls.take n)).1) ↔ M.Along P s ls :=
  @forall_take_iff_along_of_trace _ _ _ M (fun s _ => I s) P (fun s _ l => hstep s l) s [] h ls

/-- The measure rule: what every step lowers by the weight of its label until it is zero, a run of
enough weight uses up. -/
theorem run_measure_weighted {μ : State → ℕ} {w : Label → ℕ}
    (hstep : ∀ s l, μ (M.step s l).1 ≤ μ s - w l) (s : State) (ls : List Label) :
    μ (M.run s ls).1 ≤ μ s - (ls.map w).sum := by
  induction ls generalizing s with
  | nil => exact Nat.le_refl _
  | cons l ls ih =>
    have hfirst := hstep s l
    have hrest := ih (M.step s l).1
    simp only [run_cons, List.map_cons, List.sum_cons]
    omega

theorem run_measure {μ : State → ℕ} (hstep : ∀ s l, μ (M.step s l).1 ≤ μ s - 1) (s : State)
    (ls : List Label) : μ (M.run s ls).1 ≤ μ s - ls.length := by
  have hmeasure := M.run_measure_weighted (w := fun _ => 1) hstep s ls
  simpa using hmeasure

/-- The trap rule: if every step that violates `P` where an invariant holds leads into a trap that
no step leaves, then a run that ends outside the trap has met `P` all along. -/
theorem along_of_not_trapped_of_invariant {P : State → Label → Prop}
    {I B : State → List Obs → Prop}
    (hkeep : ∀ s tr l, I s tr → P s l → I (M.step s l).1 (tr ++ (M.step s l).2))
    (hviolate : ∀ s tr l, I s tr → ¬P s l → B (M.step s l).1 (tr ++ (M.step s l).2))
    (hstable : ∀ s tr l, B s tr → B (M.step s l).1 (tr ++ (M.step s l).2))
    {s : State} {tr : List Obs} (hI : I s tr) {ls : List Label}
    (h : ¬B (M.run s ls).1 (tr ++ (M.run s ls).2)) : M.Along P s ls := by
  induction ls generalizing s tr with
  | nil => trivial
  | cons l ls ih =>
    rw [run_cons, ← List.append_assoc] at h
    have hP : P s l := by
      by_contra hP
      apply h
      exact M.run_invariant (P := fun _ _ => True) (fun s tr l hB _ => hstable s tr l hB)
        (hviolate s tr l hI hP) (M.along_of_forall (fun _ _ => trivial) _ ls)
    exact ⟨hP,ih (hkeep s tr l hI hP) h⟩

theorem along_of_not_trapped {P : State → Label → Prop} {B : State → List Obs → Prop}
    (hviolate : ∀ s tr l, ¬P s l → B (M.step s l).1 (tr ++ (M.step s l).2))
    (hstable : ∀ s tr l, B s tr → B (M.step s l).1 (tr ++ (M.step s l).2))
    (s : State) (tr : List Obs) (ls : List Label)
    (h : ¬B (M.run s ls).1 (tr ++ (M.run s ls).2)) : M.Along P s ls :=
  M.along_of_not_trapped_of_invariant (I := fun _ _ => True) (fun _ _ _ _ _ => trivial)
    (fun s tr l _ hP => hviolate s tr l hP) hstable trivial h

/-- The simulation rule: if the steps of two machines keep related states related and show the
same observations, then so do their runs. -/
theorem run_simulation {State' : Type*} {N : Machine State' Label Obs} {R : State → State' → Prop}
    (hstep : ∀ s t l, R s t → R (M.step s l).1 (N.step t l).1 ∧ (M.step s l).2 = (N.step t l).2)
    {s : State} {t : State'} (h : R s t) (ls : List Label) :
    R (M.run s ls).1 (N.run t ls).1 ∧ (M.run s ls).2 = (N.run t ls).2 := by
  induction ls generalizing s t with
  | nil => exact ⟨h,rfl⟩
  | cons l ls ih =>
    obtain ⟨hnext,hobs⟩ := hstep s t l h
    obtain ⟨hfinal,hrest⟩ := ih hnext
    refine ⟨hfinal,?_⟩
    rw [run_cons, run_cons, hobs, hrest]

/-- The refinement rule: if every step of one machine looks like a run of the other, so does every
run. A step may stutter, and an observer may see part of the traces only. -/
theorem run_refines {State' Label' Obs' View : Type*} {N : Machine State' Label' Obs'}
    {R : State → State' → Prop} {f : State → Label → List Label'} {v : List Obs → List View}
    {w : List Obs' → List View} (hnil : v [] = w [])
    (hv : ∀ xs ys, v (xs ++ ys) = v xs ++ v ys) (hw : ∀ xs ys, w (xs ++ ys) = w xs ++ w ys)
    (hstep : ∀ s t l, R s t → R (M.step s l).1 (N.run t (f s l)).1 ∧
      v (M.step s l).2 = w (N.run t (f s l)).2)
    {s : State} {t : State'} (h : R s t) (ls : List Label) :
    R (M.run s ls).1 (N.run t (M.collect f s ls)).1 ∧
      v (M.run s ls).2 = w (N.run t (M.collect f s ls)).2 := by
  induction ls generalizing s t with
  | nil => exact ⟨h,hnil⟩
  | cons l ls ih =>
    obtain ⟨hnext,hobs⟩ := hstep s t l h
    obtain ⟨hfinal,hrest⟩ := ih hnext
    rw [run_cons, collect_cons, run_append]
    refine ⟨hfinal,?_⟩
    rw [hv, hw, hobs, hrest]

/-- The stuttering rule: if every step that meets `P` where an invariant holds keeps it, and either
is the same step of another machine as `f` sees it or changes nothing for `f` and shows nothing,
then a run is a run of the other machine on a part of its schedule. -/
theorem run_stutters {State' : Type*} {N : Machine State' Label Obs} {I : State → Prop}
    {P : State → Label → Prop} {f : State → State'}
    (hkeep : ∀ s l, I s → P s l → I (M.step s l).1)
    (hstep : ∀ s l, I s → P s l → f (M.step s l).1 = f s ∧ (M.step s l).2 = [] ∨
      (f (M.step s l).1,(M.step s l).2) = N.step (f s) l)
    {s : State} (h : I s) {ls : List Label} (hP : M.Along P s ls) : ∃ ls', ls'.Sublist ls ∧
      (f (M.run s ls).1,(M.run s ls).2) = N.run (f s) ls' := by
  induction ls generalizing s with
  | nil => exact ⟨[],List.Sublist.refl _,rfl⟩
  | cons l ls ih =>
    obtain ⟨ls',hsub,hrest⟩ := ih (hkeep s l h hP.1) hP.2
    rw [run_cons]
    obtain ⟨hsame,hsilent⟩ | hmoved := hstep s l h hP.1
    · refine ⟨ls',hsub.cons l,?_⟩
      rw [hsilent, List.nil_append, ← hsame]
      exact hrest
    · refine ⟨l :: ls',hsub.cons_cons l,?_⟩
      rw [run_cons, ← hmoved, ← hrest]

/-- The potential rule: if no step works off more than its label credits and the potential falls,
no run works off more than its credit and what was there at its start. -/
theorem run_potential {I : State → Prop} {U : State → ℕ} {v : List Obs → ℕ} {w : Label → ℕ}
    (hnil : v [] = 0) (happend : ∀ xs ys, v (xs ++ ys) = v xs + v ys)
    (hkeep : ∀ s l, I s → I (M.step s l).1)
    (hstep : ∀ s l, I s → v (M.step s l).2 + U (M.step s l).1 ≤ U s + w l)
    {s : State} (h : I s) (ls : List Label) :
    v (M.run s ls).2 + U (M.run s ls).1 ≤ U s + (ls.map w).sum := by
  induction ls generalizing s with
  | nil => simp [hnil]
  | cons l ls ih =>
    have hfirst := hstep s l h
    have hrest := ih (hkeep s l h)
    rw [run_cons, happend, List.map_cons, List.sum_cons]
    dsimp only
    omega

/-- The goal rule: a goal that steps meeting `P` never leave, and towards which each of them lowers
a measure, is reached by any run of that many such steps. -/
theorem run_reaches {P : State → Label → Prop} {I T : State → Prop} {U : State → ℕ}
    (hkeep : ∀ s l, I s → P s l → I (M.step s l).1)
    (hstable : ∀ s l, I s → P s l → T s → T (M.step s l).1)
    (hprogress : ∀ s l, I s → P s l → ¬T s → U (M.step s l).1 < U s)
    (hzero : ∀ s, I s → U s = 0 → T s)
    {s : State} (h : I s) {ls : List Label} (hP : M.Along P s ls) (henough : U s ≤ ls.length) :
    T (M.run s ls).1 := by
  induction ls generalizing s with
  | nil => exact hzero s h (Nat.le_zero.mp henough)
  | cons l ls ih =>
    by_cases hT : T s
    · have hstay := M.run_state_invariant (P := P) (I := fun s => I s ∧ T s)
        (fun s l hs hl => ⟨hkeep s l hs.1 hl,hstable s l hs.1 hl hs.2⟩) ⟨h,hT⟩ hP
      exact hstay.2
    · have hlower := hprogress s l h hP.1 hT
      rw [List.length_cons] at henough
      exact ih (hkeep s l h hP.1) hP.2 (by omega)

end Machine
end HftEngine
