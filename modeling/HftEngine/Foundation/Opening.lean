import HftEngine.Foundation.AverageCost

/-! The open position of an average-cost book. Its average price comes from the trades since the
one that took the position from zero or through zero, and lies within their prices. -/
namespace HftEngine.AverageCost
variable {K : Type*} [Field K] [LinearOrder K]

/-- The trade takes the position from zero or through zero. -/
def Opens (before : List (Trade K)) (t : Trade K) : Prop :=
  netQty before = 0 ∨ netQty before * (netQty before + t.qty) < 0

/-- `t` is the last trade that took the position from zero or through zero, and `later` are the
trades since. -/
structure LastOpening (trades before : List (Trade K)) (t : Trade K) (later : List (Trade K)) :
    Prop where
  split : trades = before ++ t :: later
  opens : Opens before t
  last : ∀ pre u post, later = pre ++ u :: post → ¬Opens (before ++ t :: pre) u

theorem lastOpening_concat {trades : List (Trade K)} {t : Trade K} (h : Opens trades t) :
    LastOpening (trades ++ [t]) trades t [] := by
  refine ⟨rfl,h,?_⟩
  intro pre u post hsplit
  simp at hsplit

theorem LastOpening.concat {trades before later : List (Trade K)} {t u : Trade K}
    (h : LastOpening trades before t later) (hu : ¬Opens trades u) :
    LastOpening (trades ++ [u]) before t (later ++ [u]) := by
  refine ⟨?_,h.opens,?_⟩
  · rw [h.split, List.append_assoc, List.cons_append]
  · intro pre v post hsplit
    rcases List.eq_nil_or_concat post with rfl | ⟨post,w,rfl⟩
    · obtain ⟨rfl,hv⟩ := List.append_inj' hsplit rfl
      rw [← h.split, ← (List.cons.inj hv).1]
      exact hu
    · rw [List.concat_eq_append, ← List.cons_append, ← List.append_assoc] at hsplit
      exact h.last pre v post (List.append_inj' hsplit rfl).1

/-- The average price since the opening: it lies within the prices of these trades, and follows
from the position that was opened, its price and the trades since. -/
structure AverageSince (t : Trade K) (later : List (Trade K)) (opened avg : K) : Prop where
  lower : ∃ lo ∈ t :: later, lo.price ≤ avg
  upper : ∃ hi ∈ t :: later, avg ≤ hi.price
  determined : avg = (later.foldl Book.trade ⟨opened,t.price,0⟩).avg

theorem averageSince_opening (t : Trade K) (opened : K) : AverageSince t [] opened t.price :=
  ⟨⟨t,List.mem_singleton_self t,le_rfl⟩,⟨t,List.mem_singleton_self t,le_rfl⟩,rfl⟩

variable [IsStrictOrderedRing K]

/-- A weighted average lies between its two values. -/
theorem average_bounds {a b x y : K} (hx : 0 ≤ x) (hy : 0 < y) (hab : a ≤ b) :
    a ≤ (a * x + b * y) / (x + y) ∧ (a * x + b * y) / (x + y) ≤ b := by
  have hsum : 0 < x + y := by linarith
  constructor
  · rw [le_div_iff₀ hsum, mul_add]
    have := mul_le_mul_of_nonneg_right hab hy.le
    linarith
  · rw [div_le_iff₀ hsum, mul_add]
    have := mul_le_mul_of_nonneg_right hab hx
    linarith

namespace Book
variable {b : Book K} {t : Trade K}

/-- A trade that opens the position sets the average to its price. -/
theorem trade_avg_of_opens {trades : List (Trade K)} (hopens : Opens trades t)
    (hopen : netQty trades + t.qty ≠ 0) (hb : b.position = netQty trades) :
    (b.trade t).avg = t.price := by
  unfold trade
  rcases hopens with hzero | hthrough
  · rw [hzero, zero_add] at hopen
    have hside : b.Adds t := by
      rcases lt_or_gt_of_ne hopen with hneg | hpos
      · exact .inr ⟨(hb.trans hzero).le,hneg⟩
      · exact .inl ⟨(hb.trans hzero).ge,hpos⟩
    rw [if_pos hside, increase, hb, hzero, abs_zero, mul_zero, zero_add, zero_add,
      mul_div_cancel_right₀ _ (abs_pos.mpr hopen).ne']
  · rw [← hb] at hthrough
    rcases mul_neg_iff.mp hthrough with ⟨hp,hn⟩ | ⟨hp,hn⟩
    · have hside : ¬b.Adds t := by
        rintro (⟨-,hq⟩ | ⟨hle,-⟩) <;> linarith
      have hover : ¬|t.qty| ≤ |b.position| := by
        rw [abs_of_pos hp, abs_of_neg (by linarith)]
        linarith
      rw [if_neg hside, if_neg hover]
      rfl
    · have hside : ¬b.Adds t := by
        rintro (⟨hge,-⟩ | ⟨-,hq⟩) <;> linarith
      have hover : ¬|t.qty| ≤ |b.position| := by
        rw [abs_of_neg hp, abs_of_pos (by linarith)]
        linarith
      rw [if_neg hside, if_neg hover]
      rfl

/-- Any other trade blends its price into the average or leaves the average alone. -/
theorem trade_avg_of_not_opens {trades : List (Trade K)} (hopens : ¬Opens trades t)
    (hb : b.position = netQty trades) :
    (b.trade t).avg = b.avg ∨ b.avg ≤ (b.trade t).avg ∧ (b.trade t).avg ≤ t.price ∨
      t.price ≤ (b.trade t).avg ∧ (b.trade t).avg ≤ b.avg := by
  obtain ⟨hzero,hthrough⟩ := not_or.mp hopens
  rw [← hb] at hzero hthrough
  unfold trade
  by_cases hside : b.Adds t
  · right
    have hsum : |b.position + t.qty| = |b.position| + |t.qty| := by
      rcases hside with ⟨hp,hq⟩ | ⟨hp,hq⟩
      · rw [abs_of_nonneg hp, abs_of_pos hq, abs_of_nonneg (by linarith)]
      · rw [abs_of_nonpos hp, abs_of_neg hq, abs_of_nonpos (by linarith)]
        ring
    have hq : 0 < |t.qty| := by
      rcases hside with ⟨-,hq⟩ | ⟨-,hq⟩
      · exact abs_pos_of_pos hq
      · exact abs_pos_of_neg hq
    have hp : 0 < |b.position| := abs_pos.mpr hzero
    simp only [if_pos hside, increase, hsum]
    rcases le_total b.avg t.price with hle | hle
    · exact .inl (average_bounds hp.le hq hle)
    · right
      have hbounds := average_bounds hq.le hp hle
      rw [add_comm (t.price * |t.qty|), add_comm |t.qty|] at hbounds
      exact hbounds
  · left
    have hsmall : |t.qty| ≤ |b.position| := by
      by_contra hover
      apply hthrough
      rw [Adds, not_or, not_and, not_and] at hside
      rcases lt_or_gt_of_ne hzero with hneg | hpos
      · have hq : 0 ≤ t.qty := not_lt.mp (hside.2 hneg.le)
        rw [abs_of_neg hneg, abs_of_nonneg hq, not_le] at hover
        exact mul_neg_of_neg_of_pos hneg (by linarith)
      · have hq : t.qty ≤ 0 := not_lt.mp (hside.1 hpos.le)
        rw [abs_of_pos hpos, abs_of_nonpos hq, not_le] at hover
        exact mul_neg_of_pos_of_neg hpos (by linarith)
    rw [if_neg hside, if_pos hsmall]
    rfl

end Book

/-- One more trade that leaves the position open on its side. -/
theorem AverageSince.concat {trades before later : List (Trade K)} {t u : Trade K}
    (h : AverageSince t later (netQty (before ++ [t])) (Book.ofTrades trades).avg)
    (hlast : LastOpening trades before t later) (hu : ¬Opens trades u) :
    AverageSince t (later ++ [u]) (netQty (before ++ [t])) (Book.ofTrades (trades ++ [u])).avg := by
  have hposition := (Book.ofTrades_represents trades).1
  obtain ⟨lo,hlo,hlower⟩ := h.lower
  obtain ⟨hi,hhi,hupper⟩ := h.upper
  have hold : ∀ x ∈ t :: later, x ∈ t :: (later ++ [u]) := by
    intro x hx
    rw [← List.cons_append]
    exact List.mem_append_left _ hx
  have hnew : u ∈ t :: (later ++ [u]) := by simp
  have hdetermined : ((Book.ofTrades trades).trade u).avg =
      ((later ++ [u]).foldl Book.trade ⟨netQty (before ++ [t]),t.price,0⟩).avg := by
    rw [List.foldl_append]
    apply Book.trade_avg_congr _ h.determined
    rw [Book.foldl_trade_position, hposition, hlast.split, netQty_append, netQty_append]
    simp only [netQty, List.map_cons, List.sum_cons, List.map_nil, List.sum_nil]
    ring
  rw [Book.ofTrades_concat]
  rcases Book.trade_avg_of_not_opens hu hposition with hsame | ⟨hl,hr⟩ | ⟨hl,hr⟩
  · rw [← hsame] at hlower hupper
    exact ⟨⟨lo,hold lo hlo,hlower⟩,⟨hi,hold hi hhi,hupper⟩,hdetermined⟩
  · exact ⟨⟨lo,hold lo hlo,hlower.trans hl⟩,⟨u,hnew,hr⟩,hdetermined⟩
  · exact ⟨⟨u,hnew,hl⟩,⟨hi,hold hi hhi,hr.trans hupper⟩,hdetermined⟩

/-- An open position has a last opening, and its average price comes from the trades since. -/
theorem averageSince_ofTrades (trades : List (Trade K))
    (hopen : (Book.ofTrades trades).position ≠ 0) : ∃ before t later,
      LastOpening trades before t later ∧
      AverageSince t later (netQty (before ++ [t])) (Book.ofTrades trades).avg := by
  induction trades using List.reverseRecOn with
  | nil => exact absurd rfl hopen
  | append_singleton trades u ih =>
    have hposition := (Book.ofTrades_represents trades).1
    by_cases hu : Opens trades u
    · rw [Book.ofTrades_concat, Book.trade_position, hposition] at hopen
      have havg := Book.trade_avg_of_opens hu hopen hposition
      rw [Book.ofTrades_concat, havg]
      exact ⟨trades,u,[],lastOpening_concat hu,averageSince_opening u _⟩
    · have hbefore : (Book.ofTrades trades).position ≠ 0 := by
        rw [hposition]
        exact fun hzero => hu (.inl hzero)
      obtain ⟨before,t,later,hlast,hsince⟩ := ih hbefore
      exact ⟨before,t,later ++ [u],hlast.concat hu,hsince.concat hlast hu⟩

end HftEngine.AverageCost
