import HftEngine.Foundation.Number
import Mathlib.Algebra.BigOperators.Group.List.Basic
import Mathlib.Algebra.Order.BigOperators.Group.List
import Mathlib.Data.List.Permutation
import Mathlib.Tactic.Linarith

/-! Quantities that are added to a number one after another, in an order that is not known
beforehand. Where an addition is rounded the order matters, so a bound is asked for all of them;
in exact arithmetic the sums of the positive and of the negative quantities decide it. -/
namespace HftEngine.PartialSums
open Number

section Numbers
variable {α : Type} [Add α] [Neg α] [LT α] [DecidableLT α] [LE α] [OfNat α 0]

/-- In whichever order and however many of the quantities are added to the start, the absolute
value of the sum stays within the limit. -/
def StaysWithin (limit start : α) (qs : List α) : Prop :=
  ∀ zs : List α, zs.Perm qs → ∀ n, fabs ((zs.take n).foldl (· + ·) start) ≤ limit

theorem staysWithin_iff_permutations (limit start : α) (qs : List α) :
    StaysWithin limit start qs ↔ ∀ zs ∈ qs.permutations', ∀ n ∈ List.range (qs.length + 1),
      fabs ((zs.take n).foldl (· + ·) start) ≤ limit := by
  constructor
  · intro h zs hzs n _
    exact h zs (List.mem_permutations'.mp hzs) n
  · intro h zs hperm n
    have hzs := List.mem_permutations'.mpr hperm
    by_cases hn : n < qs.length + 1
    · exact h zs hzs n (List.mem_range.mpr hn)
    · have hall := h zs hzs qs.length (by simp)
      rw [List.take_of_length_le (by rw [hperm.length_eq]; omega)]
      rwa [List.take_of_length_le hperm.length_eq.le] at hall

instance [DecidableLE α] (limit start : α) (qs : List α) :
    Decidable (StaysWithin limit start qs) :=
  decidable_of_iff' _ (staysWithin_iff_permutations limit start qs)

variable {limit start q : α} {xs ys : List α}

namespace StaysWithin

theorem of_perm (h : StaysWithin limit start xs) (hperm : xs.Perm ys) :
    StaysWithin limit start ys := fun zs hzs n => h zs (hzs.trans hperm.symm) n

/-- Nothing has to be added. -/
theorem start_le (h : StaysWithin limit start xs) : fabs start ≤ limit :=
  h xs (List.Perm.refl _) 0

/-- Some of the quantities may never be added. -/
theorem of_subperm (h : StaysWithin limit start ys) (hsub : xs.Subperm ys) :
    StaysWithin limit start xs := by
  obtain ⟨l,hl,hsublist⟩ := hsub
  obtain ⟨rest,hrest⟩ := hsublist.exists_perm_append
  intro zs hzs n
  have hall : (zs ++ rest).Perm ys := ((hzs.trans hl.symm).append_right rest).trans hrest.symm
  have hstep := h (zs ++ rest) hall (min n zs.length)
  rw [List.take_append_of_le_length (Nat.min_le_right _ _)] at hstep
  rwa [List.take_eq_take_min]

/-- One of the quantities is added. -/
theorem add (h : StaysWithin limit start (q :: xs)) : StaysWithin limit (start + q) xs :=
  fun zs hzs n => h (q :: zs) (hzs.cons q) (n + 1)

end StaysWithin

/-- With nothing to add. -/
theorem staysWithin_nil (h : fabs start ≤ limit) : StaysWithin limit start [] := by
  intro zs hzs n
  rw [List.perm_nil.mp hzs, List.take_nil]
  exact h

end Numbers

section Exact
variable {limit start : ℚ} {qs : List ℚ}

theorem foldl_add (start : ℚ) (qs : List ℚ) : qs.foldl (· + ·) start = start + qs.sum := by
  induction qs generalizing start with
  | nil => simp
  | cons q qs ih => rw [List.foldl_cons, ih, List.sum_cons, add_assoc]

/-- Part of the quantities sums up to no more than the positive ones. -/
theorem sum_take_le {zs : List ℚ} (hperm : zs.Perm qs) (n : ℕ) :
    (zs.take n).sum ≤ (qs.map (max 0)).sum := by
  have hpositive : (zs.take n).sum ≤ ((zs.take n).map (max 0)).sum := by
    rw [← List.map_id (zs.take n), List.map_map]
    exact List.sum_le_sum fun q _ => le_max_right 0 q
  have hpart : ((zs.take n).map (max 0)).sum ≤ (zs.map (max 0)).sum := by
    refine ((List.take_sublist n zs).map _).sum_le_sum ?_
    intro q hq
    obtain ⟨r,-,rfl⟩ := List.mem_map.mp hq
    exact le_max_left 0 r
  exact (hpositive.trans hpart).trans_eq (hperm.map _).sum_eq

/-- The positive quantities added first. -/
theorem exists_take_sum (qs : List ℚ) :
    ∃ (zs : List ℚ) (n : ℕ), zs.Perm qs ∧ (zs.take n).sum = (qs.map (max 0)).sum := by
  refine ⟨_,(qs.filter (0 < ·)).length,List.filter_append_perm (0 < ·) qs,?_⟩
  rw [List.take_left]
  induction qs with
  | nil => rfl
  | cons q qs ih =>
    by_cases hq : 0 < q
    · rw [List.filter_cons_of_pos (by simpa using hq), List.map_cons, List.sum_cons, List.sum_cons,
        ih, max_eq_right hq.le]
    · rw [List.filter_cons_of_neg (by simpa using hq), List.map_cons, List.sum_cons, ih,
        max_eq_left (not_lt.mp hq), zero_add]

/-- In exact arithmetic the positive quantities must leave room above and the negative ones
below. -/
theorem staysWithin_iff : StaysWithin limit start qs ↔
    start + (qs.map (max 0)).sum ≤ limit ∧ -limit ≤ start - (qs.map fun q => max 0 (-q)).sum := by
  have hneg : (qs.map fun q => max 0 (-q)) = (qs.map (-·)).map (max 0) := by
    rw [List.map_map]
    rfl
  have hsum : ∀ l : List ℚ, (l.map (-·)).sum = -l.sum := fun l => (List.sum_neg l).symm
  simp only [StaysWithin, fabs_eq_abs, foldl_add, abs_le]
  rw [hneg]
  constructor
  · intro h
    obtain ⟨zs,n,hzs,hup⟩ := exists_take_sum qs
    obtain ⟨ys,m,hys,hdown⟩ := exists_take_sum (qs.map (-·))
    have hys' : (ys.map (-·)).Perm qs := by
      have := hys.map (-·)
      simpa [List.map_map, Function.comp_def] using this
    have hlow := (h _ hys' m).1
    rw [← List.map_take, hsum, hdown] at hlow
    refine ⟨hup ▸ (h zs hzs n).2,by linarith⟩
  · rintro ⟨hup,hdown⟩ zs hzs n
    have hhigh := sum_take_le hzs n
    have hlow := sum_take_le (hzs.map (-·)) n
    rw [← List.map_take, hsum] at hlow
    constructor <;> linarith

end Exact
end HftEngine.PartialSums
