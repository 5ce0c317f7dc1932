import Mathlib.Algebra.Order.Group.Defs
import Mathlib.Order.Bounds.Basic

/-! Peak and drawdown of a series. One pass that keeps the largest value so far and the largest
fall from it finds the largest fall between any two ordered positions, over an ordered group and
over any numbers with a maximum and a monotone difference. -/
namespace HftEngine.Drawdown

section Series
variable {K : Type*} [Sub K]

/-- Falls from a value of the series to the same or a later one. -/
def falls (es : List K) : Set K :=
  {d | ∃ (i j : ℕ) (e f : K), i ≤ j ∧ es[i]? = some e ∧ es[j]? = some f ∧ d = e - f}

/-- A longer series has the old falls and those to its new last value. -/
theorem falls_concat (es : List K) (x : K) :
    falls (es ++ [x]) = falls es ∪ Set.image (fun e => e - x) {e | e ∈ es ++ [x]} := by
  ext d
  constructor
  · rintro ⟨i,j,e,f,hij,he,hf,rfl⟩
    by_cases hj : j < es.length
    · rw [List.getElem?_append_left (by omega)] at he
      rw [List.getElem?_append_left hj] at hf
      exact .inl ⟨i,j,e,f,hij,he,hf,rfl⟩
    · obtain ⟨hlt,hget⟩ := List.getElem?_eq_some_iff.mp hf
      rw [List.length_append, List.length_singleton] at hlt
      have hlast : j = es.length := by omega
      subst hlast
      have hx : x = f := by simpa using hget
      exact .inr ⟨e,List.mem_of_getElem? he,by rw [hx]⟩
  · rintro (⟨i,j,e,f,hij,he,hf,rfl⟩ | ⟨e,he,rfl⟩)
    · have hi := (List.getElem?_eq_some_iff.mp he).1
      have hj := (List.getElem?_eq_some_iff.mp hf).1
      exact ⟨i,j,e,f,hij,by rwa [List.getElem?_append_left hi],
        by rwa [List.getElem?_append_left hj],rfl⟩
    · obtain ⟨i,hi⟩ := List.getElem?_of_mem he
      have hlt := (List.getElem?_eq_some_iff.mp hi).1
      rw [List.length_append, List.length_singleton] at hlt
      exact ⟨i,es.length,e,x,by omega,hi,by simp,rfl⟩

variable [LE K]

/-- The pair of a largest value and a largest fall. -/
structure Tracks (es : List K) (peak drawdown : K) : Prop where
  peak : IsGreatest {e | e ∈ es} peak
  drawdown : IsGreatest (falls es) drawdown

theorem tracks_singleton {x z : K} (hx : x ≤ x) (hz : z ≤ z) (hfall : x - x = z) :
    Tracks [x] x z := by
  refine ⟨⟨List.mem_singleton_self x,?_⟩,⟨⟨0,0,x,x,le_rfl,rfl,rfl,hfall.symm⟩,?_⟩⟩
  · intro e he
    rw [List.mem_singleton.mp he]
    exact hx
  · rintro d ⟨i,j,e,f,-,he,hf,rfl⟩
    rw [List.mem_singleton.mp (List.mem_of_getElem? he),
      List.mem_singleton.mp (List.mem_of_getElem? hf), hfall]
    exact hz

/-- What one pass needs of the values it is given. -/
structure Comparable [Max K] (number : K → Prop) : Prop where
  le_refl : ∀ {x}, number x → x ≤ x
  isGreatest_max : ∀ {s t : Set K} {x y}, IsGreatest s x → IsGreatest t y →
    IsGreatest (s ∪ t) (max x y)
  sub_le_sub : ∀ {x y z}, number x → number y → number z → x ≤ y → x - z ≤ y - z

/-- One more value: the peak first, then the fall from the new peak. -/
theorem Tracks.concat [Max K] {number : K → Prop} (hK : Comparable number) {es : List K}
    {peak drawdown : K} (h : Tracks es peak drawdown) {x : K}
    (hnumbers : ∀ e ∈ es ++ [x], number e) :
    Tracks (es ++ [x]) (max peak x) (max drawdown (max peak x - x)) := by
  have hx : number x := hnumbers x (by simp)
  have hpeak : IsGreatest {e | e ∈ es ++ [x]} (max peak x) := by
    have hvalues : {e | e ∈ es ++ [x]} = {e | e ∈ es} ∪ {x} := by
      ext e
      simp [or_comm]
    have hlast : IsGreatest {x} x := by
      refine ⟨rfl,?_⟩
      rintro e rfl
      exact hK.le_refl hx
    rw [hvalues]
    exact hK.isGreatest_max h.peak hlast
  refine ⟨hpeak,?_⟩
  rw [falls_concat]
  apply hK.isGreatest_max h.drawdown
  refine ⟨⟨max peak x,hpeak.1,rfl⟩,?_⟩
  rintro d ⟨e,he,rfl⟩
  exact hK.sub_le_sub (hnumbers e he) (hnumbers _ hpeak.1) hx (hpeak.2 he)

end Series

theorem comparable_of_group (K : Type*) [AddCommGroup K] [LinearOrder K]
    [IsOrderedAddMonoid K] : Comparable (fun _ : K => True) where
  le_refl _ := le_rfl
  isGreatest_max := IsGreatest.union
  sub_le_sub := fun _ _ _ h => sub_le_sub_right h _

end HftEngine.Drawdown
