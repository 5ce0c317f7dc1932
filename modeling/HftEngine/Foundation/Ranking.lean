import Mathlib.Data.List.Induction
import Mathlib.Data.List.Infix
import Mathlib.Data.List.Sort

/-! Keyed histories: the keys in the order of their first appearance, the latest value of a
key, and the best keys under a linear order. A table that stores only the first keys up to a
capacity shows the best ones exactly as long as no later key is better. -/
namespace HftEngine.Ranking
variable {K V : Type*} [DecidableEq K]

/-- Distinct items in the order of their first appearance. -/
def firstSeen (xs : List K) : List K :=
  xs.foldl (fun seen x => if x ∈ seen then seen else seen ++ [x]) []

/-- The value of the last entry with this key. -/
def latest (k : K) (history : List (K × V)) : Option V :=
  history.foldl (fun found entry => if entry.1 = k then some entry.2 else found) none

/-- The entry of a key with its latest value. -/
def row (history : List (K × V)) (k : K) : Option (K × V) := (latest k history).map (k,·)

/-- The `n` best distinct keys of a history, each with its latest value. -/
def best (r : K → K → Prop) [DecidableRel r] (n : ℕ) (history : List (K × V)) : List (K × V) :=
  (((firstSeen (history.map Prod.fst)).mergeSort (r · ·)).take n).filterMap (row history)

@[simp] theorem firstSeen_nil : firstSeen ([] : List K) = [] := rfl

theorem firstSeen_concat (xs : List K) (x : K) : firstSeen (xs ++ [x]) =
    if x ∈ firstSeen xs then firstSeen xs else firstSeen xs ++ [x] := by
  rw [firstSeen, List.foldl_append]
  rfl

theorem mem_firstSeen {xs : List K} {k : K} : k ∈ firstSeen xs ↔ k ∈ xs := by
  induction xs using List.reverseRecOn with
  | nil => simp
  | append_singleton xs x ih =>
    rw [firstSeen_concat]
    split_ifs with hx
    · rw [ih, List.mem_append, List.mem_singleton]
      constructor
      · exact .inl
      · rintro (h | rfl)
        · exact h
        · exact ih.mp hx
    · rw [List.mem_append, List.mem_append, ih]

theorem firstSeen_nodup (xs : List K) : (firstSeen xs).Nodup := by
  induction xs using List.reverseRecOn with
  | nil => exact List.nodup_nil
  | append_singleton xs x ih =>
    rw [firstSeen_concat]
    split_ifs with hx
    · exact ih
    · rw [List.nodup_append]
      refine ⟨ih,List.nodup_singleton x,?_⟩
      intro a ha b hb heq
      rw [List.mem_singleton] at hb
      rw [heq, hb] at ha
      exact hx ha

/-- Later items only append to what was seen. -/
theorem isPrefix_firstSeen (xs ys : List K) : (firstSeen xs).IsPrefix (firstSeen (xs ++ ys)) := by
  induction ys using List.reverseRecOn with
  | nil => rw [List.append_nil]
  | append_singleton ys y ih =>
    rw [← List.append_assoc, firstSeen_concat]
    split_ifs
    · exact ih
    · exact ih.trans (List.prefix_append _ _)

@[simp] theorem latest_nil (k : K) : latest k ([] : List (K × V)) = none := rfl

theorem latest_concat (k : K) (history : List (K × V)) (entry : K × V) :
    latest k (history ++ [entry]) =
      if entry.1 = k then some entry.2 else latest k history := by
  simp [latest, List.foldl_append]

theorem exists_latest {history : List (K × V)} {k : K} (h : k ∈ history.map Prod.fst) :
    ∃ v, latest k history = some v := by
  induction history using List.reverseRecOn with
  | nil => exact absurd h List.not_mem_nil
  | append_singleton history entry ih =>
    rw [latest_concat]
    split_ifs with hk
    · exact ⟨_,rfl⟩
    · apply ih
      rw [List.map_append, List.mem_append] at h
      rcases h with h | h
      · exact h
      · exact absurd (List.mem_singleton.mp h).symm hk

/-- Rows read back their keys. -/
theorem map_fst_filterMap_row {history : List (K × V)} {keys : List K}
    (h : ∀ k ∈ keys, k ∈ history.map Prod.fst) :
    (keys.filterMap (row history)).map Prod.fst = keys := by
  induction keys with
  | nil => rfl
  | cons k keys ih =>
    obtain ⟨v,hv⟩ := exists_latest (h k List.mem_cons_self)
    have hrow : row history k = some (k,v) := by rw [row, hv]; rfl
    rw [List.filterMap_cons_some hrow, List.map_cons,
      ih (fun k' hk' => h k' (List.mem_cons_of_mem _ hk'))]

/-- A table that stores the first `cap` keys of a history with their latest values. -/
structure Holds (cap : ℕ) (history rows : List (K × V)) : Prop where
  keys : (rows.map Prod.fst).Perm ((firstSeen (history.map Prod.fst)).take cap)
  values : ∀ entry ∈ rows, latest entry.1 history = some entry.2

namespace Holds
variable {cap : ℕ} {history rows rows' : List (K × V)} {k : K} {v : V}

omit [DecidableEq K] in
theorem map_fst_concat (history : List (K × V)) (k : K) (v : V) :
    (history ++ [(k,v)]).map Prod.fst = history.map Prod.fst ++ [k] := by
  rw [List.map_append]
  rfl

theorem nil (cap : ℕ) : Holds cap ([] : List (K × V)) [] where
  keys := by simp
  values _ h := absurd h List.not_mem_nil

/-- The order of the rows does not matter. -/
theorem perm (h : Holds cap history rows) (hperm : rows'.Perm rows) : Holds cap history rows' where
  keys := (hperm.map _).trans h.keys
  values entry hentry := h.values entry (hperm.mem_iff.mp hentry)

theorem keys_nodup (h : Holds cap history rows) : (rows.map Prod.fst).Nodup :=
  (h.keys.nodup_iff).mpr ((firstSeen_nodup _).sublist (List.take_sublist _ _))

theorem length_le (h : Holds cap history rows) : rows.length ≤ cap := by
  have hlength := h.keys.length_eq
  rw [List.length_map, List.length_take] at hlength
  rw [hlength]
  exact Nat.min_le_left _ _

/-- What is stored stays stored. -/
theorem keys_subset (h : Holds cap history rows) {more : List (K × V)}
    (h' : Holds cap (history ++ more) rows') : ∀ k ∈ rows.map Prod.fst, k ∈ rows'.map Prod.fst := by
  intro k hk
  rw [h.keys.mem_iff] at hk
  rw [h'.keys.mem_iff, List.map_append]
  exact (List.IsPrefix.take (isPrefix_firstSeen _ _) cap).subset hk

/-- A stored key gets a new value. -/
theorem replace (h : Holds cap history rows) (hkeys : rows'.map Prod.fst = rows.map Prod.fst)
    (hk : k ∈ rows.map Prod.fst)
    (hrows : ∀ entry ∈ rows', if entry.1 = k then entry.2 = v else entry ∈ rows) :
    Holds cap (history ++ [(k,v)]) rows' where
  keys := by
    have hseen : k ∈ firstSeen (history.map Prod.fst) :=
      List.mem_of_mem_take (h.keys.mem_iff.mp hk)
    rw [hkeys, map_fst_concat, firstSeen_concat, if_pos hseen]
    exact h.keys
  values entry hentry := by
    have hrow := hrows entry hentry
    rw [latest_concat]
    by_cases hkey : entry.1 = k
    · rw [if_pos hkey] at hrow
      rw [if_pos hkey.symm, hrow]
    · rw [if_neg hkey] at hrow
      rw [if_neg (fun heq => hkey heq.symm)]
      exact h.values entry hrow

/-- The value of a key that is not stored does not show. -/
theorem values_concat (h : Holds cap history rows) (hk : k ∉ rows.map Prod.fst) :
    ∀ entry ∈ rows, latest entry.1 (history ++ [(k,v)]) = some entry.2 := by
  intro entry hentry
  rw [latest_concat, if_neg]
  · exact h.values entry hentry
  · intro heq
    have hkey : k = entry.1 := heq
    rw [hkey] at hk
    exact hk (List.mem_map_of_mem hentry)

/-- A new key finds room. -/
theorem insert (h : Holds cap history rows) (hk : k ∉ rows.map Prod.fst)
    (hroom : rows.length < cap) : Holds cap (history ++ [(k,v)]) (rows ++ [(k,v)]) := by
  have hlength := h.keys.length_eq
  rw [List.length_map, List.length_take] at hlength
  have hall : (firstSeen (history.map Prod.fst)).take cap = firstSeen (history.map Prod.fst) :=
    List.take_of_length_le (by omega)
  have hkeys := h.keys
  rw [hall] at hkeys
  refine ⟨?_,?_⟩
  · rw [map_fst_concat, map_fst_concat, firstSeen_concat,
      if_neg (fun hseen => hk (hkeys.mem_iff.mpr hseen)), List.take_of_length_le]
    · exact hkeys.append_right _
    · rw [List.length_append, List.length_singleton]
      omega
  · intro entry hentry
    rcases List.mem_append.mp hentry with hentry | hentry
    · exact h.values_concat hk entry hentry
    · rw [List.mem_singleton.mp hentry, latest_concat]
      exact if_pos rfl

/-- A new key finds no room and is dropped. -/
theorem skip (h : Holds cap history rows) (hk : k ∉ rows.map Prod.fst)
    (hfull : ¬ rows.length < cap) : Holds cap (history ++ [(k,v)]) rows := by
  refine ⟨?_,h.values_concat hk⟩
  have hlength := h.keys.length_eq
  rw [List.length_map, List.length_take] at hlength
  rw [map_fst_concat, firstSeen_concat]
  split_ifs with hseen
  · exact h.keys
  · rw [List.take_append_of_le_length (by omega)]
    exact h.keys

/-- The rows are what the keys and the history determine. -/
theorem rows_eq (h : Holds cap history rows) (n : ℕ) :
    rows.take n = ((rows.map Prod.fst).take n).filterMap (row history) := by
  rw [← List.map_take, List.filterMap_map]
  have hrows : ∀ entry ∈ rows.take n, (row history ∘ Prod.fst) entry = some entry := by
    intro entry hentry
    rw [Function.comp, row, h.values entry (List.mem_of_mem_take hentry)]
    rfl
  rw [List.filterMap_congr hrows, List.filterMap_some]

end Holds

section Order
variable {r : K → K → Prop}

omit [DecidableEq K] in
/-- Sorting needs an order on the elements of the list only. -/
theorem pairwise_mergeSort_of_mem {β : Type*} {le : β → β → Bool} {l : List β}
    (htrans : ∀ a ∈ l, ∀ b ∈ l, ∀ c ∈ l, le a b = true → le b c = true → le a c = true)
    (htotal : ∀ a ∈ l, ∀ b ∈ l, (le a b || le b a) = true) :
    (l.mergeSort le).Pairwise (fun a b => le a b = true) := by
  have hattach : (l.attach.mergeSort (fun a b => le a.1 b.1)).map Subtype.val =
      l.mergeSort le := by
    rw [List.map_mergeSort (s := le) (fun a _ b _ => rfl), List.attach_map_subtype_val]
  rw [← hattach, List.pairwise_map]
  exact List.pairwise_mergeSort (fun a b c => htrans a.1 a.2 b.1 b.2 c.1 c.2)
    (fun a b => htotal a.1 a.2 b.1 b.2) _

/-- These keys are ordered linearly. -/
structure Orders (r : K → K → Prop) (keys : List K) : Prop where
  total : ∀ x ∈ keys, ∀ y ∈ keys, r x y ∨ r y x
  trans : ∀ {x y z : K}, r x y → r y z → r x z
  antisymm : ∀ {x y : K}, r x y → r y x → x = y

namespace Orders
variable {xs ys : List K}

omit [DecidableEq K] in
theorem subset (h : Orders r xs) (hsubset : ys ⊆ xs) : Orders r ys where
  total x hx y hy := h.total x (hsubset hx) y (hsubset hy)
  trans := h.trans
  antisymm := h.antisymm

omit [DecidableEq K] in
theorem pairwise_mergeSort [DecidableRel r] (h : Orders r xs) :
    (xs.mergeSort (r · ·)).Pairwise r := by
  have hsorted : (xs.mergeSort (r · ·)).Pairwise (fun a b => decide (r a b) = true) := by
    apply pairwise_mergeSort_of_mem
    · intro a _ b _ c _ hab hbc
      exact decide_eq_true (h.trans (of_decide_eq_true hab) (of_decide_eq_true hbc))
    · intro a ha b hb
      rw [Bool.or_eq_true, decide_eq_true_eq, decide_eq_true_eq]
      exact h.total a ha b hb
  exact hsorted.imp of_decide_eq_true

omit [DecidableEq K] in
/-- There is one way to put ordered keys in order. -/
theorem eq_of_perm (h : Orders r xs) (hperm : xs.Perm ys) (hxs : xs.Pairwise r)
    (hys : ys.Pairwise r) : xs = ys :=
  hperm.eq_of_pairwise (fun _ _ _ _ => h.antisymm) hxs hys

end Orders

variable (r) [DecidableRel r]

omit [DecidableEq K] in
/-- Sorting the first `cap` items finds the best `n ≤ cap` of all exactly when no other item
is better than one of them. -/
theorem mergeSort_take_iff {xs : List K} (horders : Orders r xs) (hnodup : xs.Nodup) (cap : ℕ) :
    (∀ n ≤ cap, ((xs.take cap).mergeSort (r · ·)).take n = (xs.mergeSort (r · ·)).take n) ↔
      ∀ x ∈ xs.take cap, ∀ y ∈ xs.drop cap, r x y := by
  have hlength : ((xs.take cap).mergeSort (r · ·)).length ≤ cap := by
    rw [List.length_mergeSort, List.length_take]
    exact Nat.min_le_left _ _
  constructor
  · intro h x hx y hy
    have htake := h cap le_rfl
    rw [List.take_of_length_le hlength] at htake
    have hperm : ((xs.mergeSort (r · ·)).take cap).Perm (xs.take cap) := by
      rw [← htake]
      exact List.mergeSort_perm _ _
    have hsorted := horders.pairwise_mergeSort
    rw [← List.take_append_drop cap (xs.mergeSort (r · ·)), List.pairwise_append] at hsorted
    apply hsorted.2.2 x (hperm.mem_iff.mpr hx) y
    have hmem : y ∈ xs.mergeSort (r · ·) :=
      (List.mergeSort_perm _ _).mem_iff.mpr (List.mem_of_mem_drop hy)
    rw [← List.take_append_drop cap (xs.mergeSort (r · ·)), List.mem_append] at hmem
    rcases hmem with hmem | hmem
    · have hdisjoint := List.disjoint_take_drop hnodup (le_refl cap)
      exact absurd hy (hdisjoint (hperm.mem_iff.mp hmem))
    · exact hmem
  · intro h n hn
    have hsplit : xs.mergeSort (r · ·) =
        (xs.take cap).mergeSort (r · ·) ++ (xs.drop cap).mergeSort (r · ·) := by
      have hfirst := horders.subset (List.take_subset cap xs)
      have hlast := horders.subset (List.drop_subset cap xs)
      apply (horders.subset (List.mergeSort_perm _ _).subset).eq_of_perm ?_
        horders.pairwise_mergeSort
      · rw [List.pairwise_append]
        refine ⟨hfirst.pairwise_mergeSort,hlast.pairwise_mergeSort,?_⟩
        intro x hx y hy
        exact h x ((List.mergeSort_perm _ _).mem_iff.mp hx) y
          ((List.mergeSort_perm _ _).mem_iff.mp hy)
      · have hparts := (List.mergeSort_perm (xs.take cap) (r · ·)).append
          (List.mergeSort_perm (xs.drop cap) (r · ·))
        rw [List.take_append_drop] at hparts
        exact (List.mergeSort_perm xs _).trans hparts.symm
    rw [hsplit, List.take_append, List.length_mergeSort, List.length_take]
    by_cases hcap : cap ≤ xs.length
    · rw [Nat.min_eq_left hcap, Nat.sub_eq_zero_of_le hn, List.take_zero, List.append_nil]
    · rw [List.drop_of_length_le (by omega)]
      simp

/-- A sorted table of the first `cap` keys shows the best `n ≤ cap` keys exactly when no key
beyond the first `cap` is better than one of these. -/
theorem Holds.take_eq_best_iff {cap : ℕ} {history rows : List (K × V)}
    (h : Holds cap history rows) (horders : Orders r (history.map Prod.fst))
    (hsorted : (rows.map Prod.fst).Pairwise r) :
    (∀ n ≤ cap, rows.take n = best r n history) ↔
      ∀ x ∈ (firstSeen (history.map Prod.fst)).take cap,
        ∀ y ∈ (firstSeen (history.map Prod.fst)).drop cap, r x y := by
  have hkeysOrdered : Orders r (firstSeen (history.map Prod.fst)) :=
    horders.subset (fun _ => mem_firstSeen.mp)
  have hfirst := hkeysOrdered.subset (List.take_subset cap _)
  rw [← mergeSort_take_iff r hkeysOrdered (firstSeen_nodup _) cap]
  have hkeys : rows.map Prod.fst =
      ((firstSeen (history.map Prod.fst)).take cap).mergeSort (r · ·) :=
    (hfirst.subset h.keys.subset).eq_of_perm (h.keys.trans (List.mergeSort_perm _ _).symm)
      hsorted hfirst.pairwise_mergeSort
  rw [← hkeys]
  apply forall₂_congr
  intro n hn
  rw [best, h.rows_eq]
  constructor
  · intro heq
    have hseen : ∀ k ∈ (rows.map Prod.fst).take n, k ∈ history.map Prod.fst := by
      intro k hk
      have hstored := h.keys.mem_iff.mp (List.mem_of_mem_take hk)
      exact mem_firstSeen.mp (List.mem_of_mem_take hstored)
    have hseen' : ∀ k ∈ ((firstSeen (history.map Prod.fst)).mergeSort (r · ·)).take n,
        k ∈ history.map Prod.fst := by
      intro k hk
      exact mem_firstSeen.mp ((List.mergeSort_perm _ _).mem_iff.mp (List.mem_of_mem_take hk))
    have hfst := congrArg (List.map Prod.fst) heq
    rw [map_fst_filterMap_row hseen, map_fst_filterMap_row hseen'] at hfst
    exact hfst
  · intro heq
    rw [heq]

end Order
end HftEngine.Ranking
