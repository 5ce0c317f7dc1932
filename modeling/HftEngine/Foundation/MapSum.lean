import Mathlib.Algebra.BigOperators.Group.List.Basic
import Mathlib.Algebra.BigOperators.Ring.List
import Std.Data.TreeMap

/-! Sums over the values of an ordered map, and how an insertion changes them. -/
namespace HftEngine.MapSum
variable {κ β M : Type*} [Ord κ]

section Loop
variable [Add M] [OfNat M 0]

/-- Sum of `f` over all values stored in the map, added up in the order of the keys. -/
def sumBy (f : β → M) (m : Std.TreeMap κ β) : M := m.foldl (fun total _ v => total + f v) 0

@[simp] theorem sumBy_empty (f : β → M) : sumBy f ({} : Std.TreeMap κ β) = 0 := rfl

/-- Mapping the values first and summing afterwards is one sum. -/
theorem sumBy_map {γ : Type*} (f : γ → M) (g : β → γ) (m : Std.TreeMap κ β) :
    sumBy f (m.map (fun _ v => g v)) = sumBy (fun v => f (g v)) m := by
  unfold sumBy
  rw [Std.TreeMap.foldl_eq_foldl_toList, Std.TreeMap.foldl_eq_foldl_toList,
    Std.TreeMap.toList_map, List.foldl_map]

/-- The loop as a fold of the values' contributions. -/
theorem sumBy_eq_foldl (f : β → M) (m : Std.TreeMap κ β) :
    sumBy f m = (m.toList.map (fun e => f e.2)).foldl (· + ·) 0 := by
  unfold sumBy
  rw [Std.TreeMap.foldl_eq_foldl_toList, List.foldl_map]

theorem sumBy_congr {f g : β → M} {m : Std.TreeMap κ β}
    (h : ∀ e ∈ m.toList, f e.2 = g e.2) : sumBy f m = sumBy g m := by
  rw [sumBy_eq_foldl, sumBy_eq_foldl, List.map_congr_left h]

end Loop

variable [AddCommGroup M]

theorem sumBy_eq_sum (f : β → M) (m : Std.TreeMap κ β) :
    sumBy f m = (m.toList.map (fun e => f e.2)).sum := by
  rw [sumBy_eq_foldl, List.sum_eq_foldl]

theorem sumBy_add (f g : β → M) (m : Std.TreeMap κ β) :
    sumBy (fun v => f v + g v) m = sumBy f m + sumBy g m := by
  simp only [sumBy_eq_sum, List.sum_map_add]

theorem sumBy_mul_right {R : Type*} [Ring R] (f : β → R) (r : R) (m : Std.TreeMap κ β) :
    sumBy (fun v => f v * r) m = sumBy f m * r := by
  rw [sumBy_eq_sum, sumBy_eq_sum, ← List.sum_map_mul_right]

/-- In a list with distinct keys the entries under one key are that key's only entry. -/
lemma filter_key_eq_singleton {κ β : Type*} [BEq κ] [LawfulBEq κ] {k : κ} {v : β}
    {entries : List (κ × β)} (hkeys : entries.Pairwise (fun a b => a.1 ≠ b.1))
    (hmem : (k,v) ∈ entries) : entries.filter (fun e => k == e.1) = [(k,v)] := by
  induction entries with
  | nil => simp at hmem
  | cons e entries ih =>
    obtain ⟨hhead,htail⟩ := List.pairwise_cons.mp hkeys
    rcases List.mem_cons.mp hmem with rfl | hin
    · have hnone : entries.filter (fun e => k == e.1) = [] := by
        apply List.filter_eq_nil_iff.mpr
        intro e he hk
        exact hhead e he (eq_of_beq hk)
      simp [hnone]
    · have hne : (k == e.1) = false := by
        apply Bool.eq_false_iff.mpr
        exact fun hk => hhead _ hin (eq_of_beq hk).symm
      simp only [List.filter_cons, hne, Bool.false_eq_true, if_false]
      exact ih htail hin

variable [Std.TransOrd κ] [Std.LawfulEqOrd κ]

lemma distinct_toList (m : Std.TreeMap κ β) :
    m.toList.Pairwise (fun a b => a.1 ≠ b.1) := by
  apply m.distinct_keys_toList.imp
  intro a b h hab
  exact h (Std.LawfulEqOrd.compare_eq_iff_eq.mpr hab)

variable [BEq κ] [LawfulBEq κ]

/-- The entries under one key contribute the value read with a default of no weight. -/
lemma sum_filter_key (f : β → M) (m : Std.TreeMap κ β) (k : κ) {d : β} (hd : f d = 0) :
    ((m.toList.filter (fun e => k == e.1)).map (fun e => f e.2)).sum = f (m.getD k d) := by
  cases h : m[k]? with
  | none =>
    have hnone : m.toList.filter (fun e => k == e.1) = [] := by
      apply List.filter_eq_nil_iff.mpr
      rintro ⟨k',v⟩ he hk
      obtain rfl : k = k' := eq_of_beq hk
      rw [Std.TreeMap.mem_toList_iff_getElem?_eq_some.mp he] at h
      contradiction
    rw [hnone, Std.TreeMap.getD_eq_getD_getElem?, h]
    simpa using hd.symm
  | some v =>
    have hmem : (k,v) ∈ m.toList := Std.TreeMap.mem_toList_iff_getElem?_eq_some.mpr h
    rw [filter_key_eq_singleton (distinct_toList m) hmem, Std.TreeMap.getD_eq_getD_getElem?, h]
    simp

/-- Writing a value replaces what the key contributed by what the new value contributes. -/
theorem sumBy_insert [Std.LawfulBEqOrd κ] (f : β → M) (m : Std.TreeMap κ β) (k : κ) (v : β)
    {d : β} (hd : f d = 0) :
    sumBy f (m.insert k v) = sumBy f m - f (m.getD k d) + f v := by
  have hperm := (Std.TreeMap.toList_insert_perm (t := m) (k := k) (v := v)).map (fun e => f e.2)
  have hsplit := (List.filter_append_perm (fun e : κ × β => k == e.1) m.toList).map
    (fun e => f e.2)
  have htotal := hsplit.sum_eq
  simp only [List.map_append, List.sum_append, sum_filter_key f m k hd] at htotal
  rw [sumBy_eq_sum, sumBy_eq_sum, hperm.sum_eq, List.map_cons, List.sum_cons, ← htotal]
  simp [add_comm]

end HftEngine.MapSum
