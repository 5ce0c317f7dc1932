import Mathlib.Data.List.Forall2
import Mathlib.Data.List.Nodup

/-! Two lists matched element by element, where matched elements share a key. With distinct
keys the partner of an element is found by its key alone. -/
namespace HftEngine.Matched
variable {α β γ κ : Type*} [DecidableEq κ] {R : α → β → Prop} (keyA : α → κ) (keyB : β → κ)

/-- A relation that holds pairwise holds of any two elements, whatever stands around them. -/
theorem pairwise_iff_forall_split {r : α → α → Prop} {as : List α} : as.Pairwise r ↔
    ∀ before a between b after, as = before ++ a :: (between ++ b :: after) → r a b := by
  rw [List.pairwise_iff_forall_sublist]
  constructor
  · intro h before a between b after hsplit
    apply h
    rw [hsplit]
    refine List.Sublist.trans ?_ (List.sublist_append_right before _)
    exact (List.singleton_sublist.mpr (by simp)).cons_cons a
  · intro h a b hpair
    obtain ⟨first,rest,rfl,ha,hb⟩ := List.cons_sublist_iff.mp hpair
    obtain ⟨before,between,rfl⟩ := List.append_of_mem ha
    obtain ⟨between',after,rfl⟩ := List.append_of_mem (List.singleton_sublist.mp hb)
    exact h before a (between ++ between') b after (by simp)

theorem forall₂_of_map_eq {f : α → γ} {g : β → γ} {as : List α} {bs : List β}
    (h : bs.map g = as.map f) : List.Forall₂ (fun a b => g b = f a) as bs := by
  induction as generalizing bs with
  | nil =>
    rw [List.map_nil, List.map_eq_nil_iff] at h
    rw [h]
    exact .nil
  | cons a as ih =>
    obtain ⟨b,bs,rfl,hb,hbs⟩ := List.map_eq_cons_iff.mp h
    exact .cons hb (ih hbs)

/-- The element itself is the only one with its key. -/
theorem filter_key_eq_self {as : List α} (hnodup : (as.map keyA).Nodup) {a : α} (ha : a ∈ as) :
    as.filter (fun x => decide (keyA x = keyA a)) = [a] := by
  induction as with
  | nil => contradiction
  | cons x as ih =>
    rw [List.map_cons, List.nodup_cons] at hnodup
    have hother : ∀ y ∈ as, keyA y ≠ keyA x := by
      intro y hy heq
      exact hnodup.1 (heq ▸ List.mem_map_of_mem hy)
    cases List.mem_cons.mp ha with
    | inl hax =>
      subst hax
      have hnone : as.filter (fun x => decide (keyA x = keyA a)) = [] := by
        rw [List.filter_eq_nil_iff]
        intro y hy
        simpa using hother y hy
      rw [List.filter_cons_of_pos (by simp), hnone]
    | inr hmem =>
      rw [List.filter_cons_of_neg (by simpa using (hother a hmem).symm)]
      exact ih hnodup.2 hmem

theorem forall₂_filter_key (hkey : ∀ a b, R a b → keyB b = keyA a) {as : List α} {bs : List β}
    (h : List.Forall₂ R as bs) (k : κ) :
    List.Forall₂ R (as.filter (fun a => decide (keyA a = k)))
      (bs.filter (fun b => decide (keyB b = k))) := by
  induction h with
  | nil => exact .nil
  | @cons a b as bs hab _ ih =>
    by_cases hk : keyA a = k
    · rw [List.filter_cons_of_pos (by simpa using hk),
        List.filter_cons_of_pos (by simpa [hkey a b hab] using hk)]
      exact .cons hab ih
    · rw [List.filter_cons_of_neg (by simpa using hk),
        List.filter_cons_of_neg (by simpa [hkey a b hab] using hk)]
      exact ih

/-- The one partner of an element. -/
theorem filter_key_eq_singleton (hkey : ∀ a b, R a b → keyB b = keyA a) {as : List α}
    {bs : List β} (h : List.Forall₂ R as bs) (hnodup : (as.map keyA).Nodup) {a : α}
    (ha : a ∈ as) : ∃ b, bs.filter (fun b => decide (keyB b = keyA a)) = [b] ∧ R a b := by
  have hfilter := forall₂_filter_key keyA keyB hkey h (keyA a)
  rw [filter_key_eq_self keyA hnodup ha] at hfilter
  obtain ⟨b,bs',hab,hnil,hbs⟩ := List.forall₂_cons_left_iff.mp hfilter
  rw [List.forall₂_nil_left_iff.mp hnil] at hbs
  exact ⟨b,hbs,hab⟩

theorem exists_partner {as : List α} {bs : List β} (h : List.Forall₂ R as bs) {b : β}
    (hb : b ∈ bs) : ∃ a ∈ as, R a b := by
  induction h with
  | nil => contradiction
  | @cons a b' as bs hab _ ih =>
    cases List.mem_cons.mp hb with
    | inl heq => exact ⟨a,List.mem_cons_self,heq ▸ hab⟩
    | inr hmem =>
      obtain ⟨a',ha',hab'⟩ := ih hmem
      exact ⟨a',List.mem_cons_of_mem _ ha',hab'⟩

/-- The matched elements are those whose key occurs among the partners. -/
theorem perm_filter_any (hkey : ∀ a b, R a b → keyB b = keyA a) {all as : List α} {bs : List β}
    (h : List.Forall₂ R as bs) (hall : (all.map keyA).Nodup) (hsub : as ⊆ all)
    (hnodup : as.Nodup) :
    as.Perm (all.filter (fun a => bs.any (fun b => decide (keyB b = keyA a)))) := by
  rw [List.perm_ext_iff_of_nodup hnodup ((List.Nodup.of_map _ hall).filter _)]
  intro a
  rw [List.mem_filter, List.any_eq_true]
  constructor
  · intro ha
    obtain ⟨b,hb,hab⟩ := exists_partner h.flip ha
    exact ⟨hsub ha,b,hb,by simpa using hkey a b hab⟩
  · rintro ⟨ha,b,hb,hkeyb⟩
    obtain ⟨a',ha',hab⟩ := exists_partner h hb
    have hsame : a' = a := by
      apply List.inj_on_of_nodup_map hall (hsub ha') ha
      rw [← hkey a' b hab]
      simpa using hkeyb
    exact hsame ▸ ha'

end HftEngine.Matched
