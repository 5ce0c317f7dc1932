import Mathlib.Algebra.Order.Floor.Semiring
import Mathlib.Data.List.MinMax
import Mathlib.Data.List.Sort
import Mathlib.Data.Rat.Floor
import Mathlib.Tactic.Linarith

/-! Order statistics of a list over a linear order: the entries of its sorted version bound the
ranks of the elements, and a quantile is read off at a truncated index. -/
namespace HftEngine.OrderStatistics
variable {α : Type*} [LinearOrder α] {xs ys : List α} {x y : α} {k : ℕ}

/-- Between the smallest and the largest element of a list. -/
def Between (xs : List α) (x : α) : Prop := xs.minimum ≤ x ∧ x ≤ xs.maximum

theorem between_of_bounds (hxs : xs ≠ []) (hlower : ∀ lo, (∀ y ∈ xs, lo ≤ y) → lo ≤ x)
    (hupper : ∀ hi, (∀ y ∈ xs, y ≤ hi) → x ≤ hi) : Between xs x := by
  have hlength := List.length_pos_of_ne_nil hxs
  rw [Between, ← List.coe_minimum_of_length_pos hlength, ← List.coe_maximum_of_length_pos hlength,
    WithTop.coe_le_coe, WithBot.coe_le_coe]
  constructor
  · exact hlower _ (fun y hy => List.minimum_of_length_pos_le_of_mem hy hlength)
  · exact hupper _ (fun y hy => List.le_maximum_of_length_pos_of_mem hy hlength)

/-- The order of a list does not matter to its sorted version. -/
theorem mergeSort_eq_of_perm (h : xs.Perm ys) :
    xs.mergeSort (· ≤ ·) = ys.mergeSort (· ≤ ·) := by
  have hperm : (xs.mergeSort (· ≤ ·)).Perm (ys.mergeSort (· ≤ ·)) :=
    (List.mergeSort_perm _ _).trans (h.trans (List.mergeSort_perm _ _).symm)
  exact hperm.eq_of_pairwise' (List.pairwise_mergeSort' (· ≤ ·) xs)
    (List.pairwise_mergeSort' (· ≤ ·) ys)

/-- More than `k` elements are at most the one at index `k`. -/
theorem lt_countP_le (h : xs.Pairwise (· ≤ ·)) (hk : xs[k]? = some x) :
    k < xs.countP (· ≤ x) := by
  induction xs generalizing k with
  | nil => simp at hk
  | cons y xs ih =>
    obtain ⟨hy,hxs⟩ := List.pairwise_cons.mp h
    cases k with
    | zero =>
      obtain rfl : y = x := by simpa using hk
      rw [List.countP_cons_of_pos (by simp)]
      exact Nat.succ_pos _
    | succ k =>
      have hk' : xs[k]? = some x := by simpa using hk
      have hle : y ≤ x := hy x (List.mem_of_getElem? hk')
      rw [List.countP_cons_of_pos (by simpa using hle)]
      exact Nat.succ_lt_succ (ih hxs hk')

/-- All but `k` elements are at least the one at index `k`. -/
theorem le_countP_ge (h : xs.Pairwise (· ≤ ·)) (hk : xs[k]? = some x) :
    xs.length - k ≤ xs.countP (x ≤ ·) := by
  induction xs generalizing k with
  | nil => simp at hk
  | cons y xs ih =>
    obtain ⟨hy,hxs⟩ := List.pairwise_cons.mp h
    cases k with
    | zero =>
      obtain rfl : y = x := by simpa using hk
      have hall : (y :: xs).countP (y ≤ ·) = (y :: xs).length := by
        rw [List.countP_eq_length]
        intro z hz
        rcases List.mem_cons.mp hz with rfl | hz
        · simp
        · simpa using hy z hz
      rw [hall]
      exact Nat.sub_le _ _
    | succ k =>
      have hrest := ih hxs (by simpa using hk)
      have hcount : xs.countP (x ≤ ·) ≤ (y :: xs).countP (x ≤ ·) :=
        (List.sublist_cons_self y xs).countP_le
      rw [List.length_cons]
      omega

theorem getElem_le_getElem (h : xs.Pairwise (· ≤ ·)) {j : ℕ} (hjk : j ≤ k)
    (hj : xs[j]? = some x) (hk : xs[k]? = some y) : x ≤ y := by
  obtain ⟨hjlt,rfl⟩ := List.getElem?_eq_some_iff.mp hj
  obtain ⟨hklt,rfl⟩ := List.getElem?_eq_some_iff.mp hk
  rcases Nat.lt_or_eq_of_le hjk with hlt | rfl
  · exact List.pairwise_iff_getElem.mp h j k hjlt hklt hlt
  · exact le_refl _

/-- An element such that more than the fraction `q` of all are at most this one, and at least the
others are at least this one. -/
structure IsQuantile (q : ℚ) (xs : List α) (x : α) : Prop where
  mem : x ∈ xs
  below : q * xs.length < xs.countP (· ≤ x)
  above : xs.length - ⌊q * xs.length⌋₊ ≤ xs.countP (x ≤ ·)

theorem IsQuantile.of_perm {q : ℚ} (h : IsQuantile q xs x) (hperm : xs.Perm ys) :
    IsQuantile q ys x where
  mem := hperm.mem_iff.mp h.mem
  below := by
    rw [← hperm.length_eq, ← hperm.countP_eq]
    exact h.below
  above := by
    rw [← hperm.length_eq, ← hperm.countP_eq]
    exact h.above

/-- In a sorted list the element at the truncated index is a quantile. -/
theorem isQuantile_of_pairwise {q : ℚ} (h : xs.Pairwise (· ≤ ·))
    (hx : xs[⌊q * xs.length⌋₊]? = some x) : IsQuantile q xs x where
  mem := List.mem_of_getElem? hx
  below := by
    have hfloor := Nat.lt_floor_add_one (q * xs.length)
    have hrank : ((⌊q * xs.length⌋₊ + 1 : ℕ) : ℚ) ≤ xs.countP (· ≤ x) :=
      Nat.cast_le.mpr (lt_countP_le h hx)
    push_cast at hrank
    exact lt_of_lt_of_le hfloor hrank
  above := le_countP_ge h hx

/-- The truncated index of a fraction below one is in range. -/
theorem floor_mul_lt {q : ℚ} (hq : 0 ≤ q) (hq' : q < 1) {n : ℕ} (hn : 0 < n) :
    ⌊q * n⌋₊ < n := by
  have hpos : (0 : ℚ) < n := Nat.cast_pos.mpr hn
  rw [Nat.floor_lt (mul_nonneg hq hpos.le)]
  exact mul_lt_of_lt_one_left hpos hq'

end HftEngine.OrderStatistics
