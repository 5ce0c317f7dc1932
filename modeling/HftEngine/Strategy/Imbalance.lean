import HftEngine.Book.Levels
import HftEngine.Foundation.Ratio
import HftEngine.Strategy.Quotes

/-! When the imbalance of the book is defined, in double precision. The one that a trade leaves in
the book and the one that the market maker recomputes are the same quotient of the two best sizes;
it lies between -1 and 1 exactly if these sizes are finite, not both zero and of one sign, or one
of them is too small to change the other. -/
namespace HftEngine.Strategy
open HftEngine.Core Book Ranking Binary64

/-- Finite sizes that are not both zero, and of one sign or one of them absorbed by the other. -/
def SizesAgree (bidSize askSize : Double) : Prop :=
  bidSize.isFinite = true ∧ askSize.isFinite = true ∧ ¬(bidSize = 0 ∧ askSize = 0) ∧
    ((0 ≤ bidSize ∧ 0 ≤ askSize) ∨ (bidSize ≤ 0 ∧ askSize ≤ 0) ∨
      (bidSize + askSize = bidSize ∧ bidSize - askSize = bidSize) ∨
      (askSize + bidSize = askSize ∧ askSize - bidSize = askSize))

theorem sizesAgree_finite {q r : ℚ} (hq : InRange q) (hr : InRange r) :
    SizesAgree (.finite q hq) (.finite r hr) ↔
      ¬(q = 0 ∧ r = 0) ∧ (0 ≤ q * r ∨ Absorbed q r) := by
  have hsum : Double.finite q hq + .finite r hr = Double.round (q + r) := rfl
  have hsum' : Double.finite r hr + .finite q hq = Double.round (r + q) := rfl
  have hdiff : Double.finite q hq - .finite r hr = Double.round (q - r) := by
    rw [sub_eq_add_neg]
    rfl
  have hdiff' : Double.finite r hr - .finite q hq = Double.round (r - q) := by
    rw [sub_eq_add_neg]
    rfl
  unfold SizesAgree Absorbed
  rw [hsum, hsum', hdiff, hdiff', Double.zero_eq]
  simp only [Double.isFinite, Double.round_eq_finite_iff, Double.finite_le_finite,
    Double.finite.injEq, mul_nonneg_iff, true_and, or_assoc]

/-- With an infinity or NaN among the sizes the imbalance is NaN. -/
theorem ratio_isNan {x y : Double} (h : ¬(x.isFinite = true ∧ y.isFinite = true)) :
    ((x - y) / (x + y)).isNan = true := by
  cases x with
  | finite q hq =>
    cases y with
    | finite r hr => exact absurd ⟨rfl,rfl⟩ h
    | infinity negative => rfl
    | nan => rfl
  | infinity negative =>
    cases y with
    | finite r hr => rfl
    | infinity negative' => cases negative <;> cases negative' <;> rfl
    | nan => rfl
  | nan => rfl

/-- Exactly such sizes have an imbalance between -1 and 1. -/
theorem imbalance_iff (bid ask : Level Double) :
    (∃ imbalance, imbalance? bid ask = some imbalance ∧ -1 ≤ imbalance ∧ imbalance ≤ 1) ↔
      SizesAgree bid.quantity ask.quantity := by
  have hsome : (∃ imbalance, imbalance? bid ask = some imbalance ∧ -1 ≤ imbalance ∧
      imbalance ≤ 1) ↔ bid.quantity + ask.quantity ≠ 0 ∧
        -1 ≤ (bid.quantity - ask.quantity) / (bid.quantity + ask.quantity) ∧
        (bid.quantity - ask.quantity) / (bid.quantity + ask.quantity) ≤ 1 := by
    unfold imbalance?
    by_cases hzero : bid.quantity + ask.quantity = 0
    · simp [hzero]
    · simp [hzero]
  rw [hsome]
  by_cases hfinite : bid.quantity.isFinite = true ∧ ask.quantity.isFinite = true
  · obtain ⟨bidPrice,bidSize⟩ := bid
    obtain ⟨askPrice,askSize⟩ := ask
    obtain ⟨hbid,hask⟩ := hfinite
    cases bidSize with
    | finite q hq =>
      cases askSize with
      | finite r hr =>
        have hdiff : Double.finite q hq - .finite r hr = Double.round (q - r) := by
          rw [sub_eq_add_neg]
          rfl
        rw [sizesAgree_finite, ← Double.ratio_between_iff hq hr]
        simp only [hdiff]
        exact Iff.rfl
      | _ => contradiction
    | _ => contradiction
  · refine iff_of_false ?_ fun h => hfinite ⟨h.1,h.2.1⟩
    rintro ⟨-,hlow,-⟩
    have hnumber := (Double.isNan_of_le hlow).2
    rw [ratio_isNan hfinite] at hnumber
    contradiction

/-- Once both sides have a level, the imbalance that the book has stored and the one that the
market maker recomputes exist, are the same, and lie between -1 and 1. -/
def ImbalanceDefined (book : OrderBook Double) : Prop :=
  ∀ bid ask, book.getTopBids 1 = [bid] → book.getTopAsks 1 = [ask] →
    ∃ imbalance, imbalance? bid ask = some imbalance ∧ book.imbalance = imbalance ∧
      -1 ≤ imbalance ∧ imbalance ≤ 1

/-- The best of the first hundred prices. -/
def BestStored (better : Double → Double → Prop) (prices : List Double) (price : Double) : Prop :=
  price ∈ prices.take OrderBook.maxLevels ∧
    ∀ other ∈ prices.take OrderBook.maxLevels, better price other

/-- The sizes last traded at the best stored prices of the two sides agree. -/
def BestSizesAgree (trades : List (MarketDataEvent Double)) : Prop :=
  ∀ bidPrice askPrice bidSize askSize,
    BestStored (· ≥ ·) (distinctPrices true trades) bidPrice →
    BestStored (· ≤ ·) (distinctPrices false trades) askPrice →
    latest bidPrice (sideTrades true trades) = some bidSize →
    latest askPrice (sideTrades false trades) = some askSize → SizesAgree bidSize askSize

section Sides
variable {better : Double → Double → Prop} {history : List (Double × Double)}
  {levels : List (Level Double)}

/-- The level of the best stored price, with the size last traded at it. -/
theorem exists_best (hantisymm : ∀ {x y}, better x y → better y x → x = y)
    (hrefl : ∀ level ∈ levels, better level.price level.price)
    (h : OrderBook.Side better history levels) {price size : Double}
    (hbest : BestStored better (firstSeen (history.map Prod.fst)) price)
    (hsize : latest price history = some size) : levels.take 1 = [⟨price,size⟩] := by
  obtain ⟨level,hlevel⟩ := h.exists_head hbest.1
  have hmem : level ∈ levels := List.mem_of_mem_take (hlevel ▸ List.mem_singleton_self level)
  obtain ⟨hstored,hbetter⟩ := h.head_spec_of_refl hlevel (hrefl level hmem)
  have hprice : level.price = price :=
    hantisymm (hbetter price hbest.1) (hbest.2 level.price hstored)
  have hlatest := h.latest_eq level hmem
  rw [hprice, hsize, Option.some.injEq] at hlatest
  rw [hlevel, ← hprice, hlatest]

end Sides

theorem imbalanceDefined_iff {trades : List (MarketDataEvent Double)}
    (h : ∀ trade ∈ trades, trade.price.isNan = false) :
    ImbalanceDefined (OrderBook.applyTrades trades) ↔ BestSizesAgree trades := by
  obtain ⟨hbids,hasks⟩ := OrderBook.sides_of_comparable OrderBook.comparable_numbers h
  have hbidRefl := hbids.stored_numbers h
  have haskRefl := hasks.stored_numbers h
  constructor
  · intro hdefined bidPrice askPrice bidSize askSize hbid hask hbidSize haskSize
    obtain ⟨imbalance,hsome,-,hrange⟩ := hdefined ⟨bidPrice,bidSize⟩ ⟨askPrice,askSize⟩
      (exists_best (fun hxy hyx => Double.le_antisymm hyx hxy) hbidRefl hbids hbid hbidSize)
      (exists_best Double.le_antisymm haskRefl hasks hask haskSize)
    exact (imbalance_iff _ _).mp ⟨imbalance,hsome,hrange⟩
  · intro hagree bid ask hbid hask
    have hbidMem : bid ∈ (OrderBook.applyTrades trades).bidLevels :=
      List.mem_of_mem_take (hbid ▸ List.mem_singleton_self bid)
    have haskMem : ask ∈ (OrderBook.applyTrades trades).askLevels :=
      List.mem_of_mem_take (hask ▸ List.mem_singleton_self ask)
    have hsizes := hagree bid.price ask.price bid.quantity ask.quantity
      (hbids.head_spec_of_refl hbid (hbidRefl bid hbidMem))
      (hasks.head_spec_of_refl hask (haskRefl ask haskMem))
      (hbids.latest_eq bid hbidMem) (hasks.latest_eq ask haskMem)
    obtain ⟨imbalance,hsome,hrange⟩ := (imbalance_iff bid ask).mpr hsizes
    refine ⟨imbalance,hsome,?_,hrange⟩
    rw [OrderBook.applyTrades_imbalance trades hbid hask]
    unfold imbalance? at hsome
    split_ifs at hsome
    exact Option.some.inj hsome

/-- After every trade of a sequence the imbalance is defined exactly if the sizes last traded at
the best stored prices agree. -/
theorem imbalance_defined_iff (trades : List (MarketDataEvent Double))
    (h : ∀ trade ∈ trades, trade.price.isNan = false) :
    (∀ n, ImbalanceDefined (OrderBook.applyTrades (trades.take n))) ↔
      ∀ n, BestSizesAgree (trades.take n) :=
  forall_congr' (fun _ => imbalanceDefined_iff (fun trade htrade =>
    h trade (List.mem_of_mem_take htrade)))

/-- Two trades of size zero, one on each side. -/
def emptyTrades : List (MarketDataEvent Double) :=
  [⟨btcusdt,100,0,0,true⟩,⟨btcusdt,101,0,1,false⟩]

theorem imbalance_defined_iff_emptyTrades :
    (∀ n, ImbalanceDefined (OrderBook.applyTrades (emptyTrades.take n))) ↔
      ∀ n, BestSizesAgree (emptyTrades.take n) :=
  imbalance_defined_iff emptyTrades (by decide +kernel)

theorem imbalance_undefined :
    ¬∀ n, ImbalanceDefined (OrderBook.applyTrades (emptyTrades.take n)) := by
  intro h
  have hbid : (OrderBook.applyTrades (emptyTrades.take 2)).getTopBids 1 = [⟨100,0⟩] := by
    decide +kernel
  have hask : (OrderBook.applyTrades (emptyTrades.take 2)).getTopAsks 1 = [⟨101,0⟩] := by
    decide +kernel
  obtain ⟨imbalance,hsome,-⟩ := h 2 _ _ hbid hask
  have hnone : imbalance? (⟨100,0⟩ : Level Double) ⟨101,0⟩ = none := by decide +kernel
  rw [hnone] at hsome
  contradiction

end HftEngine.Strategy
