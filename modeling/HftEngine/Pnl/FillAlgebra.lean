import HftEngine.Foundation.Opening
import HftEngine.Pnl.Accounting

/-! Algebra of fills: a fill may be split without changing the books, the average price comes
from the fills since the position was opened, and exchanging buys and sells mirrors the whole
engine. -/
namespace HftEngine.Pnl
open HftEngine.Core AverageCost

namespace StrategyStats

/-- For a position of whole lots, two fills on one side at one price leave the position, average
price and realised profit of a single fill of both quantities. -/
theorem fill_split {L : ℚ} (hL : epsilon < L) (stats : StrategyStats)
    (hposition : ∃ n : ℤ, stats.position = n * L) (side : OrderSide) (price : ℚ) {q r : ℚ}
    (hq : ∃ n : ℕ, 0 < n ∧ q = n * L) (hr : ∃ n : ℕ, 0 < n ∧ r = n * L) :
    let split := (stats.fill side price q).fill side price r
    let whole := stats.fill side price (q + r)
    split.position = whole.position ∧ split.avgPrice = whole.avgPrice ∧
      split.realizedPnl = whole.realizedPnl := by
  intro split whole
  have hqpos := pos_of_lots hL hq
  have hrpos := pos_of_lots hL hr
  obtain ⟨n,hn⟩ := hposition
  obtain ⟨m,-,hm⟩ := hq
  have hflat : stats.FlatIsZero := fun hs => eq_zero_of_lots hL ⟨n,hn⟩ hs.le
  have hafter : (stats.fill side price q).FlatIsZero := by
    intro hs
    apply eq_zero_of_lots hL _ hs.le
    rw [fill_position]
    exact lots_fill hn ⟨m,hm⟩ side
  have hsides : 0 < q * side.sign ∧ 0 < r * side.sign ∨ q * side.sign < 0 ∧ r * side.sign < 0 := by
    cases side with
    | buy => exact .inl ⟨by simpa using hqpos,by simpa using hrpos⟩
    | sell => exact .inr ⟨by simpa using hqpos,by simpa using hrpos⟩
  have hbook : split.book = whole.book := by
    change ((stats.fill side price q).fill side price r).book =
      (stats.fill side price (q + r)).book
    rw [fill_trade _ side price hrpos hafter, fill_trade _ side price hqpos hflat,
      fill_trade _ side price (add_pos hqpos hrpos) hflat, Book.trade_trade _ price hsides, add_mul]
  exact ⟨congrArg Book.position hbook,congrArg Book.avg hbook,congrArg Book.realized hbook⟩

/-- Three lots sold out of a position of two: the first fill closes it exactly. -/
theorem fill_split_close :
    let stats : StrategyStats := ⟨5,0,1,100,0⟩
    let split := (stats.fill .sell 110 1).fill .sell 110 (1/2)
    let whole := stats.fill .sell 110 (1 + 1/2)
    split.position = whole.position ∧ split.avgPrice = whole.avgPrice ∧
      split.realizedPnl = whole.realizedPnl :=
  fill_split (L := 1/2) (by norm_num [epsilon]) ⟨5,0,1,100,0⟩ ⟨2,by norm_num⟩ .sell 110
    ⟨2,by norm_num,by norm_num⟩ ⟨1,by norm_num,by norm_num⟩

end StrategyStats

section Symmetry

/-- The other side. -/
def opposite : OrderSide → OrderSide
  | .buy => .sell
  | .sell => .buy

@[simp] theorem sign_opposite (side : OrderSide) : (opposite side).sign = -side.sign := by
  cases side <;> simp [opposite]

/-- The same call with the side of a fill swapped. -/
def PnlCall.swapped : PnlCall → PnlCall
  | .onFill strategyId side price quantity => .onFill strategyId (opposite side) price quantity
  | .updatePnl price => .updatePnl price

namespace StrategyStats
variable (stats : StrategyStats) (side : OrderSide) (price quantity : ℚ)

/-- The entry with position and profits negated. -/
def mirror (stats : StrategyStats) : StrategyStats :=
  { stats with
    realizedPnl := -stats.realizedPnl
    unrealizedPnl := -stats.unrealizedPnl
    position := -stats.position }

theorem mirror_mark : stats.mirror.mark price = (stats.mark price).mirror := by
  unfold mark
  have habs : |stats.mirror.position| = |stats.position| := abs_neg _
  rw [Number.fabs_eq_abs, Number.fabs_eq_abs, habs]
  split_ifs
  · simp only [mirror, neg_mul]
  · simp only [mirror, neg_zero]

theorem averages_mirror (fillQty : ℚ) :
    stats.mirror.Averages (-fillQty) ↔ stats.Averages fillQty := by
  simp only [averages_iff, mirror, abs_neg, gt_iff_lt, Left.neg_pos_iff, Left.neg_neg_iff]
  rw [← or_assoc, ← or_assoc, or_comm (a := stats.position < 0 ∧ fillQty < 0)]

/-- A short is treated as a long is. -/
theorem mirror_fill :
    stats.mirror.fill (opposite side) price quantity = (stats.fill side price quantity).mirror := by
  have hqty : quantity * (opposite side).sign = -(quantity * side.sign) := by
    rw [sign_opposite, mul_neg]
  have hsum : -stats.position + -(quantity * side.sign) =
      -(stats.position + quantity * side.sign) := by ring
  have habs : |stats.mirror.position| = |stats.position| := abs_neg _
  by_cases h : stats.Averages (quantity * side.sign)
  · have h' : stats.mirror.Averages (quantity * (opposite side).sign) := by
      rw [hqty]
      exact (stats.averages_mirror _).mpr h
    rw [fill_of_averages h, fill_of_averages h', hqty, habs]
    simp only [mirror, hsum, abs_neg]
  · have h' : ¬stats.mirror.Averages (quantity * (opposite side).sign) := by
      rw [hqty]
      exact fun hm => h ((stats.averages_mirror _).mp hm)
    -- outside the averaging branch the position is not zero, so the multiplier turns with it
    have hne : stats.position ≠ 0 := by
      intro hzero
      exact h (averages_of_zero hzero _)
    have hmultiplier : (if stats.mirror.position > 0 then (1 : ℚ) else -1) =
        -(if stats.position > 0 then (1 : ℚ) else -1) := by
      rcases lt_or_gt_of_ne hne with hneg | hpos
      · have hmirror : stats.mirror.position > 0 := neg_pos.mpr hneg
        rw [if_pos hmirror, if_neg (not_lt.mpr hneg.le), neg_neg]
      · have hmirror : ¬stats.mirror.position > 0 := not_lt.mpr (neg_nonpos.mpr hpos.le)
        rw [if_neg hmirror, if_pos hpos]
    rw [fill_of_not_averages h, fill_of_not_averages h', hqty, habs, hmultiplier]
    simp only [mirror, hsum, mul_neg, ← neg_add]

end StrategyStats

namespace PnlEngine

theorem stats_after_swapped (calls : List PnlCall) (id : ℕ) :
    (after (calls.map PnlCall.swapped)).stats id = ((after calls).stats id).mirror := by
  induction calls using List.reverseRecOn with
  | nil => simp [StrategyStats.mirror, StrategyStats.init]
  | append_singleton calls call ih =>
    rw [List.map_append, List.map_singleton, after_snoc, after_snoc]
    cases call with
    | updatePnl price =>
      simp only [apply, PnlCall.swapped, stats_updatePnl, ih, StrategyStats.mirror_mark]
    | onFill strategyId side price quantity =>
      simp only [apply, PnlCall.swapped, stats_onFill]
      by_cases hid : id = strategyId
      · rw [if_pos hid, if_pos hid, ← hid, ih, StrategyStats.mirror_fill]
      · rw [if_neg hid, if_neg hid, ih]

/-- With the side of every fill swapped, each strategy ends with the negated position and the
negated profits, and with the same average price and number of trades. -/
theorem long_short_symmetry (calls : List PnlCall) (id : ℕ) :
    let stats := (after calls).stats id
    let swapped := (after (calls.map PnlCall.swapped)).stats id
    swapped.position = -stats.position ∧ swapped.realizedPnl = -stats.realizedPnl ∧
      swapped.unrealizedPnl = -stats.unrealizedPnl ∧ swapped.avgPrice = stats.avgPrice ∧
      swapped.trades = stats.trades := by
  intro stats swapped
  have hmirror : swapped = stats.mirror := stats_after_swapped calls id
  rw [hmirror]
  exact ⟨rfl,rfl,rfl,rfl,rfl⟩

end PnlEngine
end Symmetry

namespace PnlEngine

/-- While a position is open, its average price lies within the prices of the strategy's fills
since the last one that took the position from zero or through zero, and it follows from the
position that this fill opened, its price and the fills after it. -/
theorem avgPrice_since_opening {L : ℚ} (hL : epsilon < L) {calls : List PnlCall}
    (h : ∀ call ∈ calls, call.InLots L) (id : ℕ)
    (hopen : ((after calls).stats id).position ≠ 0) :
    ∃ before opening later, LastOpening (fillsOf id calls) before opening later ∧
      (∃ lo ∈ opening :: later, lo.price ≤ ((after calls).stats id).avgPrice) ∧
      (∃ hi ∈ opening :: later, ((after calls).stats id).avgPrice ≤ hi.price) ∧
      ((after calls).stats id).avgPrice = (later.foldl Book.trade
        ⟨netQty (before ++ [opening]),opening.price,0⟩).avg := by
  have hbook := book_eq hL h id
  have hposition : (Book.ofTrades (fillsOf id calls)).position ≠ 0 := by
    rw [← hbook]
    exact hopen
  obtain ⟨before,opening,later,hlast,hsince⟩ := averageSince_ofTrades _ hposition
  have havg : (Book.ofTrades (fillsOf id calls)).avg = ((after calls).stats id).avgPrice := by
    rw [← hbook]
    rfl
  rw [havg] at hsince
  exact ⟨before,opening,later,hlast,hsince.lower,hsince.upper,hsince.determined⟩

/-- A long of one lot is turned into a short of one, which a further sale enlarges. -/
theorem avgPrice_since_opening_short :
    ∃ before opening later, LastOpening (fillsOf 1 [.onFill 1 .buy 90 (1/2),
        .onFill 1 .sell 100 1,.updatePnl 95,.onFill 1 .sell 110 (1/2)]) before opening later ∧
      (∃ lo ∈ opening :: later, lo.price ≤ 105) ∧ (∃ hi ∈ opening :: later, 105 ≤ hi.price) ∧
      105 = (later.foldl Book.trade
        ⟨netQty (before ++ [opening]),opening.price,0⟩).avg := by
  have havg : ((after (α := ℚ) [.onFill 1 .buy 90 (1/2),.onFill 1 .sell 100 1,.updatePnl 95,
      .onFill 1 .sell 110 (1/2)]).stats 1).avgPrice = 105 := by decide +kernel
  rw [← havg]
  apply avgPrice_since_opening (L := 1/2) (by norm_num [epsilon])
  · intro call hcall
    simp only [List.mem_cons, List.not_mem_nil, or_false] at hcall
    rcases hcall with rfl | rfl | rfl | rfl
    · exact ⟨1,by norm_num,by norm_num⟩
    · exact ⟨2,by norm_num,by norm_num⟩
    · trivial
    · exact ⟨1,by norm_num,by norm_num⟩
  · decide +kernel

end PnlEngine

end HftEngine.Pnl
