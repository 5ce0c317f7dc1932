import HftEngine.Book.Levels
import Mathlib.Algebra.BigOperators.Group.List.Basic

/-! What a book says, told from its trades at once and not one after another: each side depends on
its own trades only, and the metrics on the two best levels. The book of the code is this one. -/
namespace HftEngine.Book
open HftEngine.Core Ranking

/-- The first hundred prices of a side, best first, with their latest quantities. -/
def storedLevels (better : ℚ → ℚ → Prop) [DecidableRel better] (history : List (ℚ × ℚ)) :
    List Level :=
  (((firstSeen (history.map Prod.fst)).take OrderBook.maxLevels).mergeSort (better · ·)).map
    (fun price => ⟨price,(latest price history).getD 0⟩)

/-- Imbalance and spread, zero as long as one side is empty. -/
def metricsOf : List Level → List Level → ℚ × ℚ
  | bid :: _, ask :: _ =>
    ((bid.quantity - ask.quantity) / (bid.quantity + ask.quantity),ask.price - bid.price)
  | _, _ => (0,0)

/-- The quantity traded on one side. -/
def volume (isBuyerMaker : Bool) (trades : List MarketDataEvent) : ℚ :=
  ((sideTrades isBuyerMaker trades).map Prod.snd).sum

/-- The book of a history of trades. -/
def bookOf (trades : List MarketDataEvent) : OrderBook :=
  let bids := storedLevels (· ≥ ·) (sideTrades true trades)
  let asks := storedLevels (· ≤ ·) (sideTrades false trades)
  { bidLevels := bids
    askLevels := asks
    lastPrice := (trades.getLast?.map MarketDataEvent.price).getD 0
    imbalance := (metricsOf bids asks).1
    buyVolume := volume false trades
    sellVolume := volume true trades
    spread := (metricsOf bids asks).2 }

theorem volume_concat (isBuyerMaker : Bool) (trades : List MarketDataEvent)
    (trade : MarketDataEvent) : volume isBuyerMaker (trades ++ [trade]) =
      volume isBuyerMaker trades +
        if trade.isBuyerMaker = isBuyerMaker then trade.quantity else 0 := by
  rw [volume, sideTrades_concat, List.map_append, List.sum_append, volume]
  split <;> simp

namespace OrderBook

/-- A side that stores the first prices in order is told by its trades. -/
theorem Side.eq_storedLevels {better : ℚ → ℚ → Prop} [DecidableRel better] [Std.Total better]
    [IsTrans ℚ better] [Std.Antisymm better] {history : List (ℚ × ℚ)} {levels : List Level}
    (h : Side better history levels) : levels = storedLevels better history := by
  have hkeys := h.holds.keys
  rw [map_fst_entry] at hkeys
  have hprices : levels.map Level.price =
      ((firstSeen (history.map Prod.fst)).take maxLevels).mergeSort (better · ·) :=
    List.Perm.eq_of_pairwise' h.sorted (List.pairwise_mergeSort' better _)
      (hkeys.trans (List.mergeSort_perm _ _).symm)
  have hlevel : ∀ level ∈ levels,
      (⟨level.price,(latest level.price history).getD 0⟩ : Level) = level := by
    intro level hmem
    rw [h.latest_eq level hmem]
    rfl
  rw [storedLevels, ← hprices, List.map_map]
  exact ((List.map_congr_left hlevel).trans (List.map_id levels)).symm

section Fields
variable (book : OrderBook) (trade : MarketDataEvent)

theorem recalculate_fields : book.recalculate.lastPrice = book.lastPrice ∧
    book.recalculate.buyVolume = book.buyVolume ∧
      book.recalculate.sellVolume = book.sellVolume := by
  unfold recalculate
  split <;> exact ⟨rfl,rfl,rfl⟩

/-- Nothing but the two sides decides on the metrics. -/
theorem recalculate_metrics {book : OrderBook}
    (h : book.bidLevels = [] ∨ book.askLevels = [] → (book.imbalance,book.spread) = (0,0)) :
    (book.recalculate.imbalance,book.recalculate.spread) =
      metricsOf book.bidLevels book.askLevels := by
  unfold recalculate
  cases hbids : book.bidLevels with
  | nil => exact h (.inl hbids)
  | cons bid bids =>
    cases hasks : book.askLevels with
    | nil => exact h (.inr hasks)
    | cons ask asks => rfl

/-- A trade is entered on its side, and then the metrics are computed. -/
theorem applyTrade_cases : ∃ entered : OrderBook, book.applyTrade trade = entered.recalculate ∧
    entered.lastPrice = trade.price ∧
    entered.buyVolume =
      book.buyVolume + (if trade.isBuyerMaker = false then trade.quantity else 0) ∧
    entered.sellVolume =
      book.sellVolume + (if trade.isBuyerMaker = true then trade.quantity else 0) ∧
    (entered.imbalance,entered.spread) = (book.imbalance,book.spread) ∧
    (entered.bidLevels = [] ∨ entered.askLevels = [] →
      book.bidLevels = [] ∨ book.askLevels = []) := by
  cases h : trade.isBuyerMaker with
  | true =>
    refine ⟨{ book with
      lastPrice := trade.price
      sellVolume := book.sellVolume + trade.quantity
      bidLevels := (updateLevels book.bidLevels trade.price trade.quantity).mergeSort
        (fun a b => decide (a.price ≥ b.price)) },?_,rfl,by simp,by simp,rfl,?_⟩
    · simp [applyTrade, h]
    · rintro (hbids | hasks)
      · exact absurd hbids (mergeSort_updateLevels_ne_nil _ _ _ _)
      · exact .inr hasks
  | false =>
    refine ⟨{ book with
      lastPrice := trade.price
      buyVolume := book.buyVolume + trade.quantity
      askLevels := (updateLevels book.askLevels trade.price trade.quantity).mergeSort
        (fun a b => decide (a.price ≤ b.price)) },?_,rfl,by simp,by simp,rfl,?_⟩
    · simp [applyTrade, h]
    · rintro (hbids | hasks)
      · exact .inl hbids
      · exact absurd hasks (mergeSort_updateLevels_ne_nil _ _ _ _)

end Fields

theorem metricsOf_of_empty {bids asks : List Level} (h : bids = [] ∨ asks = []) :
    metricsOf bids asks = (0,0) := by
  obtain rfl | rfl := h
  · rfl
  · cases bids <;> rfl

/-- The metrics are always those of the two sides. -/
theorem applyTrades_metrics (trades : List MarketDataEvent) :
    ((applyTrades trades).imbalance,(applyTrades trades).spread) =
      metricsOf (applyTrades trades).bidLevels (applyTrades trades).askLevels := by
  induction trades using List.reverseRecOn with
  | nil => rfl
  | append_singleton trades trade ih =>
    obtain ⟨entered,hentered,-,-,-,hsame,hempty⟩ := applyTrade_cases (applyTrades trades) trade
    rw [applyTrades_concat, hentered, recalculate_bidLevels, recalculate_askLevels]
    refine recalculate_metrics fun hside => ?_
    rw [hsame, ih, metricsOf_of_empty (hempty hside)]

theorem applyTrades_totals (trades : List MarketDataEvent) :
    (applyTrades trades).lastPrice = (trades.getLast?.map MarketDataEvent.price).getD 0 ∧
      (applyTrades trades).buyVolume = volume false trades ∧
        (applyTrades trades).sellVolume = volume true trades := by
  induction trades using List.reverseRecOn with
  | nil => exact ⟨rfl,rfl,rfl⟩
  | append_singleton trades trade ih =>
    obtain ⟨-,hbuy,hsell⟩ := ih
    obtain ⟨entered,hentered,hprice,hbought,hsold,-,-⟩ :=
      applyTrade_cases (applyTrades trades) trade
    obtain ⟨hprice',hbought',hsold'⟩ := entered.recalculate_fields
    rw [applyTrades_concat, hentered, volume_concat, volume_concat]
    refine ⟨?_,?_,?_⟩
    · rw [hprice', hprice, List.getLast?_append]
      rfl
    · rw [hbought', hbought, hbuy]
    · rw [hsold', hsold, hsell]

/-- The book of the code is the book of its history. So how the trades of the two sides are
interleaved does not matter to it, but for the last price. -/
theorem book_exact (trades : List MarketDataEvent) :
    applyTrades trades = bookOf trades ∧
      ∀ trades', (∀ side, sideTrades side trades' = sideTrades side trades) →
        { applyTrades trades' with lastPrice := (applyTrades trades).lastPrice } =
          applyTrades trades := by
  have hexact : ∀ trades, applyTrades trades = bookOf trades := by
    intro trades
    obtain ⟨hbids,hasks⟩ := applyTrades_sides trades
    obtain ⟨hprice,hbuy,hsell⟩ := applyTrades_totals trades
    have hmetrics := applyTrades_metrics trades
    rw [hbids.eq_storedLevels, hasks.eq_storedLevels, Prod.mk.injEq] at hmetrics
    have hbids' := hbids.eq_storedLevels
    have hasks' := hasks.eq_storedLevels
    generalize applyTrades trades = book at hprice hbuy hsell hmetrics hbids' hasks' ⊢
    obtain ⟨bidLevels,askLevels,lastPrice,imbalance,buyVolume,sellVolume,spread⟩ := book
    dsimp only at hprice hbuy hsell hmetrics hbids' hasks'
    rw [hprice, hbuy, hsell, hmetrics.1, hmetrics.2, hbids', hasks', bookOf]
  refine ⟨hexact trades,fun trades' hsides => ?_⟩
  rw [hexact trades, hexact trades', bookOf, bookOf, hsides, hsides, volume, volume, hsides, hsides]
  rfl

end OrderBook
end HftEngine.Book
