import HftEngine.Pnl.Calls
import HftEngine.Foundation.AverageCost
import Mathlib.Tactic.Linarith
import Mathlib.Tactic.Positivity

/-! The PnL engine as average-cost books. Over any interleaving of fills and price updates
each strategy's books represent its fills, so marked profit is the profit of the fills. -/
namespace HftEngine.Pnl
open HftEngine.Core MapSum AverageCost

namespace PnlCall

/-- The fill of a strategy that a call records, with its signed quantity. -/
def tradeOf (id : ℕ) : PnlCall → Option (Trade ℚ)
  | .onFill strategyId side price quantity =>
    if strategyId = id then some ⟨quantity * side.sign,price⟩ else none
  | .updatePnl _ => none

def trade : PnlCall → Option (Trade ℚ)
  | .onFill _ side price quantity => some ⟨quantity * side.sign,price⟩
  | .updatePnl _ => none

/-- A fill trades a positive number of lots. -/
def InLots (L : ℚ) : PnlCall → Prop
  | .onFill _ _ _ quantity => ∃ n : ℕ, 0 < n ∧ quantity = n * L
  | .updatePnl _ => True

end PnlCall

/-- Signed fills of one strategy, in the order of the calls. -/
def fillsOf (id : ℕ) (calls : List PnlCall) : List (Trade ℚ) := calls.filterMap (PnlCall.tradeOf id)

def allFills (calls : List PnlCall) : List (Trade ℚ) := calls.filterMap PnlCall.trade

@[simp] theorem fillsOf_snoc_updatePnl (id : ℕ) (calls : List PnlCall) (price : ℚ) :
    fillsOf id (calls ++ [.updatePnl price]) = fillsOf id calls := by
  simp [fillsOf, PnlCall.tradeOf, List.filterMap_cons]

@[simp] theorem fillsOf_snoc_onFill (id : ℕ) (calls : List PnlCall) (strategyId : ℕ)
    (side : OrderSide) (price quantity : ℚ) :
    fillsOf id (calls ++ [.onFill strategyId side price quantity]) =
      fillsOf id calls ++ if strategyId = id then [⟨quantity * side.sign,price⟩] else [] := by
  by_cases h : strategyId = id <;> simp [fillsOf, PnlCall.tradeOf, h]

@[simp] theorem allFills_snoc_updatePnl (calls : List PnlCall) (price : ℚ) :
    allFills (calls ++ [.updatePnl price]) = allFills calls := by
  simp [allFills, PnlCall.trade, List.filterMap_cons]

@[simp] theorem allFills_snoc_onFill (calls : List PnlCall) (strategyId : ℕ)
    (side : OrderSide) (price quantity : ℚ) :
    allFills (calls ++ [.onFill strategyId side price quantity]) =
      allFills calls ++ [⟨quantity * side.sign,price⟩] := by
  simp [allFills, PnlCall.trade]

namespace StrategyStats

/-- The average-cost book of an entry. -/
def book (stats : StrategyStats) : Book ℚ := ⟨stats.position,stats.avgPrice,stats.realizedPnl⟩

@[simp] theorem book_position (stats : StrategyStats) : stats.book.position = stats.position := rfl

@[simp] theorem book_mark (stats : StrategyStats) (price : ℚ) :
    (stats.mark price).book = stats.book := by simp [book]

/-- Below the flatness threshold there is no position at all. -/
def FlatIsZero (stats : StrategyStats) : Prop := |stats.position| < epsilon → stats.position = 0

theorem averages_iff (stats : StrategyStats) (fillQty : ℚ) : stats.Averages fillQty ↔
    (stats.position > 0 ∧ fillQty > 0) ∨ (stats.position < 0 ∧ fillQty < 0) ∨
      |stats.position| < epsilon := by
  rw [Averages, Number.fabs_eq_abs]

/-- Without a position every fill is averaged. -/
theorem averages_of_zero {stats : StrategyStats} (h : stats.position = 0) (fillQty : ℚ) :
    stats.Averages fillQty := by
  refine (averages_iff _ _).mpr (.inr (.inr ?_))
  rw [h]
  norm_num [epsilon]

theorem fill_of_averages {stats : StrategyStats} {side : OrderSide} {price quantity : ℚ}
    (h : stats.Averages (quantity * side.sign)) : stats.fill side price quantity =
      { stats with
        avgPrice := (stats.avgPrice * |stats.position| + price * quantity) /
          |stats.position + quantity * side.sign|
        position := stats.position + quantity * side.sign } := by
  rw [averages_iff] at h
  simp only [fill, Number.fabs_eq_abs]
  exact if_pos h

theorem fill_of_not_averages {stats : StrategyStats} {side : OrderSide} {price quantity : ℚ}
    (h : ¬stats.Averages (quantity * side.sign)) : stats.fill side price quantity =
      { stats with
        realizedPnl := stats.realizedPnl + min |stats.position| quantity *
          (price - stats.avgPrice) * if stats.position > 0 then 1 else -1
        trades := stats.trades + 1
        avgPrice := if quantity > |stats.position| then price else stats.avgPrice
        position := stats.position + quantity * side.sign } := by
  rw [averages_iff] at h
  simp only [fill, Number.fabs_eq_abs]
  exact if_neg h

theorem averages_iff_adds (stats : StrategyStats) {fillQty : ℚ} (price : ℚ) (hq : fillQty ≠ 0)
    (hflat : stats.FlatIsZero) : stats.Averages fillQty ↔ stats.book.Adds ⟨fillQty,price⟩ := by
  constructor
  · rw [averages_iff]
    rintro (⟨hp,hs⟩ | ⟨hp,hs⟩ | hp)
    · exact .inl ⟨hp.le,hs⟩
    · exact .inr ⟨hp.le,hs⟩
    · have hzero : stats.book.position = 0 := hflat hp
      rcases lt_or_gt_of_ne hq with hneg | hpos
      · exact .inr ⟨hzero.le,hneg⟩
      · exact .inl ⟨hzero.ge,hpos⟩
  · rintro (⟨hp,hs⟩ | ⟨hp,hs⟩)
    · rcases hp.eq_or_lt with h | h
      · exact averages_of_zero h.symm _
      · exact .inl ⟨h,hs⟩
    · rcases hp.eq_or_lt with h | h
      · exact averages_of_zero h _
      · exact .inr (.inl ⟨h,hs⟩)

/-- The branches of a fill are the moves of an average-cost book. -/
theorem fill_trade (stats : StrategyStats) (side : OrderSide) (price : ℚ) {quantity : ℚ}
    (hq : 0 < quantity) (hflat : stats.FlatIsZero) :
    (stats.fill side price quantity).book = stats.book.trade ⟨quantity * side.sign,price⟩ := by
  have habs : |quantity * side.sign| = quantity := by
    cases side <;> simp [abs_of_pos hq]
  have hne : quantity * side.sign ≠ 0 := abs_pos.mp (habs.symm ▸ hq)
  have hbranch := stats.averages_iff_adds price hne hflat
  by_cases hside : stats.Averages (quantity * side.sign)
  · rw [Book.trade, if_pos (hbranch.mp hside), fill_of_averages hside]
    simp only [book, Book.increase, habs]
  · have hsmall : quantity ≤ |stats.book.position| ↔ ¬ quantity > |stats.position| := not_lt.symm
    rw [Book.trade, if_neg (fun h => hside (hbranch.mpr h)), habs, fill_of_not_averages hside,
      if_congr hsmall rfl rfl, ite_not]
    -- the fill is against the position: the closing quantity has the position's sign
    rcases lt_trichotomy stats.position 0 with hneg | hzero | hpos
    · have hbuy : side = .buy := by
        cases side with
        | buy => rfl
        | sell => exact absurd (.inr (.inl ⟨hneg,by simp [hq]⟩)) hside
      subst hbuy
      simp only [abs_of_neg hneg, not_lt.mpr hneg.le, gt_iff_lt, if_false, OrderSide.sign_buy]
      by_cases hover : -stats.position < quantity
      · simp only [book, Book.reverse, min_eq_left hover.le, if_pos hover, Book.mk.injEq, true_and]
        ring
      · simp only [book, Book.reduce, min_eq_right (not_lt.mp hover), if_neg hover, Book.mk.injEq,
          true_and]
        ring
    · exact absurd (averages_of_zero hzero _) hside
    · have hsell : side = .sell := by
        cases side with
        | sell => rfl
        | buy => exact absurd (.inl ⟨hpos,by simpa using hq⟩) hside
      subst hsell
      simp only [abs_of_pos hpos, hpos, gt_iff_lt, if_true, OrderSide.sign_sell]
      by_cases hover : stats.position < quantity
      · simp only [book, Book.reverse, min_eq_left hover.le, if_pos hover, Book.mk.injEq, true_and]
        ring
      · simp only [book, Book.reduce, min_eq_right (not_lt.mp hover), if_neg hover, Book.mk.injEq,
          true_and]
        ring

/-- Marking at a price shows the equity of the book. -/
theorem equity_mark (stats : StrategyStats) (price : ℚ)
    (hflat : |stats.position| ≤ epsilon → stats.position = 0) :
    (stats.mark price).equity = stats.book.equity price := by
  unfold equity
  rw [mark_realizedPnl, mark_unrealizedPnl]
  split_ifs with h
  · rfl
  · simp [Book.equity, book, hflat (not_lt.mp h)]

end StrategyStats

section Lots
variable {L : ℚ}

/-- A whole number of lots that is not above the threshold is zero. -/
theorem eq_zero_of_lots (hL : epsilon < L) {x : ℚ} (hx : ∃ n : ℤ, x = n * L)
    (hsmall : |x| ≤ epsilon) : x = 0 := by
  obtain ⟨n,rfl⟩ := hx
  have heps : (0 : ℚ) < epsilon := by norm_num [epsilon]
  rw [abs_mul, abs_of_pos (heps.trans hL)] at hsmall
  have habs : |(n : ℚ)| < 1 := by
    by_contra hge
    have := mul_le_mul_of_nonneg_right (not_lt.mp hge) (heps.trans hL).le
    linarith
  have hzero : n = 0 := by
    have hint : |n| < 1 := by exact_mod_cast habs
    exact Int.abs_lt_one_iff.mp hint
  rw [hzero]
  simp

theorem pos_of_lots (hL : epsilon < L) {quantity : ℚ}
    (h : ∃ n : ℕ, 0 < n ∧ quantity = n * L) : 0 < quantity := by
  obtain ⟨n,hn,rfl⟩ := h
  have heps : (0 : ℚ) < epsilon := by norm_num [epsilon]
  have hL0 := heps.trans hL
  positivity

/-- A fill moves a whole number of lots to a whole number of lots. -/
theorem lots_fill {x quantity : ℚ} {n : ℤ} (hx : x = n * L) (hq : ∃ m : ℕ, quantity = m * L)
    (side : OrderSide) : ∃ k : ℤ, x + quantity * side.sign = k * L := by
  obtain ⟨m,rfl⟩ := hq
  rw [hx]
  cases side with
  | buy =>
    refine ⟨n + m,?_⟩
    push_cast
    rw [OrderSide.sign_buy]
    ring
  | sell =>
    refine ⟨n - m,?_⟩
    push_cast
    rw [OrderSide.sign_sell]
    ring

end Lots

namespace PnlEngine

/-- Whole numbers of lots stay whole numbers of lots. -/
theorem position_lots {L : ℚ} {calls : List PnlCall} (h : ∀ call ∈ calls, call.InLots L)
    (id : ℕ) : ∃ n : ℤ, ((after calls).stats id).position = n * L := by
  induction calls using List.reverseRecOn with
  | nil => exact ⟨0,by simp⟩
  | append_singleton calls call ih =>
    obtain ⟨n,hn⟩ := ih (fun c hc => h c (by simp [hc]))
    have hcall := h call (by simp)
    cases call with
    | updatePnl price => exact ⟨n,by simpa [apply] using hn⟩
    | onFill strategyId side price quantity =>
      obtain ⟨m,-,hm⟩ := hcall
      by_cases hid : id = strategyId
      · subst hid
        obtain ⟨k,hk⟩ := lots_fill hn ⟨m,hm⟩ side
        exact ⟨k,by simpa [apply, stats_onFill] using hk⟩
      · exact ⟨n,by simpa [apply, stats_onFill, hid] using hn⟩

/-- With lots above the threshold, a position at or below the threshold is zero. -/
theorem position_eq_zero_of_le {L : ℚ} (hL : epsilon < L) {calls : List PnlCall}
    (h : ∀ call ∈ calls, call.InLots L) (id : ℕ)
    (hsmall : |((after calls).stats id).position| ≤ epsilon) :
    ((after calls).stats id).position = 0 :=
  eq_zero_of_lots hL (position_lots h id) hsmall

/-- Each strategy's book is the average-cost book of the fills recorded for it. -/
theorem book_eq {L : ℚ} (hL : epsilon < L) {calls : List PnlCall}
    (h : ∀ call ∈ calls, call.InLots L) (id : ℕ) :
    ((after calls).stats id).book = Book.ofTrades (fillsOf id calls) := by
  induction calls using List.reverseRecOn with
  | nil => rfl
  | append_singleton calls call ih =>
    have hbefore : ∀ c ∈ calls, c.InLots L := fun c hc => h c (by simp [hc])
    have hcall := h call (by simp)
    cases call with
    | updatePnl price => simpa [apply] using ih hbefore
    | onFill strategyId side price quantity =>
      by_cases hid : id = strategyId
      · subst hid
        have hflat : ((after calls).stats id).FlatIsZero := fun hs =>
          position_eq_zero_of_le hL hbefore id hs.le
        rw [fillsOf_snoc_onFill, if_pos rfl, after_snoc, apply, stats_onFill, if_pos rfl,
          StrategyStats.fill_trade _ side price (pos_of_lots hL hcall) hflat, ih hbefore,
          Book.ofTrades_concat]
      · have hne : ¬ strategyId = id := Ne.symm hid
        simpa [apply, stats_onFill, hid, hne] using ih hbefore

/-- Each strategy's book represents exactly the fills recorded for it. -/
theorem book_represents {L : ℚ} (hL : epsilon < L) {calls : List PnlCall}
    (h : ∀ call ∈ calls, call.InLots L) (id : ℕ) :
    ((after calls).stats id).book.Represents (fillsOf id calls) := by
  rw [book_eq hL h id]
  exact Book.ofTrades_represents _

/-- Summed over all strategies, the books carry the profit of all fills at any price. -/
theorem sum_equity {L : ℚ} (hL : epsilon < L) {calls : List PnlCall}
    (h : ∀ call ∈ calls, call.InLots L) (P : ℚ) :
    sumBy (fun stats => stats.book.equity P) (after calls).strategyStats =
      markToMarket (allFills calls) P := by
  induction calls using List.reverseRecOn with
  | nil => exact sumBy_empty _
  | append_singleton calls call ih =>
    have hbefore : ∀ c ∈ calls, c.InLots L := fun c hc => h c (by simp [hc])
    cases call with
    | updatePnl price =>
      have hsum := ih hbefore
      simpa [apply, updatePnl, sumBy_map] using hsum
    | onFill strategyId side price quantity =>
      have hinit : StrategyStats.init.book.equity P = 0 := by
        simp [StrategyStats.book, Book.equity, StrategyStats.init]
      have hold := (book_represents hL hbefore strategyId).equity P
      have hnew := (book_represents hL h strategyId).equity P
      rw [after_snoc, apply, stats_onFill, if_pos rfl] at hnew
      rw [fillsOf_snoc_onFill, if_pos rfl, markToMarket_eq, netQty_append, cost_append] at hnew
      rw [markToMarket_eq] at hold
      rw [after_snoc, apply, onFill,
        sumBy_insert (fun stats : StrategyStats => stats.book.equity P) _ _ _ hinit, ih hbefore,
        allFills_snoc_onFill, markToMarket_eq, markToMarket_eq, netQty_append, cost_append]
      change _ - ((after calls).stats strategyId).book.equity P + _ = _
      rw [hold, hnew]
      ring

/-- Right after a price update the reported total is the sum of the books' equities. -/
theorem getTotalPnl_updatePnl {L : ℚ} (hL : epsilon < L) {calls : List PnlCall}
    (h : ∀ call ∈ calls, call.InLots L) (P : ℚ) :
    ((after calls).updatePnl P).getTotalPnl =
      sumBy (fun stats => stats.book.equity P) (after calls).strategyStats := by
  unfold getTotalPnl updatePnl
  rw [sumBy_map]
  apply sumBy_congr
  intro entry hentry
  apply StrategyStats.equity_mark
  rw [← stats_of_mem hentry]
  exact position_eq_zero_of_le hL h entry.1

/-- After every call, for every strategy, realised profit less the entry value of the open
position is minus the value of its fills; and a total taken right after a price update is
the profit of all fills at that price. -/
theorem accounting_identity (L : ℚ) (hL : epsilon < L) (calls : List PnlCall)
    (h : ∀ call ∈ calls, call.InLots L) :
    (∀ id, ((after calls).stats id).realizedPnl -
        ((after calls).stats id).position * ((after calls).stats id).avgPrice =
      -((fillsOf id calls).map (fun fill => fill.qty * fill.price)).sum) ∧
    ∀ P, ((after calls).updatePnl P).getTotalPnl =
      ((allFills calls).map (fun fill => fill.qty * (P - fill.price))).sum := by
  constructor
  · intro id
    exact (book_represents hL h id).2
  · intro P
    rw [getTotalPnl_updatePnl hL h P, sum_equity hL h P]
    rfl

/-- Two strategies trading lots of 1/10, one of them reversing through zero. -/
theorem accounting_identity_two_strategies :
    ((after (α := ℚ) [.onFill 1 .buy 100 (1/10), .onFill 2 .sell 90 (1/2), .updatePnl 95,
        .onFill 1 .sell 110 (3/10)]).updatePnl 80).getTotalPnl = 12 := by
  have h := (accounting_identity (1/10) (by norm_num [epsilon])
    [.onFill 1 .buy 100 (1/10), .onFill 2 .sell 90 (1/2), .updatePnl 95,
      .onFill 1 .sell 110 (3/10)] (by
    intro call hcall
    simp only [List.mem_cons, List.not_mem_nil, or_false] at hcall
    rcases hcall with rfl | rfl | rfl | rfl
    · exact ⟨1,by norm_num,by norm_num⟩
    · exact ⟨5,by norm_num,by norm_num⟩
    · trivial
    · exact ⟨3,by norm_num,by norm_num⟩)).2 80
  rw [h]
  decide +kernel

end PnlEngine
end HftEngine.Pnl
