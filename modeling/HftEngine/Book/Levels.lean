import HftEngine.Book.OrderBook
import HftEngine.Foundation.Double
import HftEngine.Foundation.Ranking
import Mathlib.Tactic.NormNum

/-! What the level arrays store over a whole history of trades. Each side holds the first
hundred distinct prices traded on it, sorted, with their latest quantities; these are the best
prices only as long as no later price is better. -/
set_option linter.unusedSectionVars false

namespace HftEngine.Book
open HftEngine.Core Ranking

section Histories
variable {α : Type}

def Level.entry (level : Level α) : α × α := (level.price,level.quantity)

/-- The trades of one side as prices and quantities. -/
def sideTrades (isBuyerMaker : Bool) (trades : List (MarketDataEvent α)) : List (α × α) :=
  (trades.filter (fun trade => trade.isBuyerMaker == isBuyerMaker)).map
    (fun trade => (trade.price,trade.quantity))

/-- The distinct prices of one side in the order of their first trade. -/
def distinctPrices [DecidableEq α] (isBuyerMaker : Bool) (trades : List (MarketDataEvent α)) :
    List α :=
  firstSeen ((sideTrades isBuyerMaker trades).map Prod.fst)

theorem map_fst_entry (levels : List (Level α)) :
    (levels.map Level.entry).map Prod.fst = levels.map Level.price := by
  rw [List.map_map]
  rfl

theorem sideTrades_concat (isBuyerMaker : Bool) (trades : List (MarketDataEvent α))
    (trade : MarketDataEvent α) : sideTrades isBuyerMaker (trades ++ [trade]) =
      sideTrades isBuyerMaker trades ++
        if trade.isBuyerMaker = isBuyerMaker then [(trade.price,trade.quantity)] else [] := by
  by_cases h : trade.isBuyerMaker = isBuyerMaker <;> simp [sideTrades, h]

/-- The prices of a side are prices of trades. -/
theorem exists_trade_of_sideTrades {isBuyerMaker : Bool} {trades : List (MarketDataEvent α)}
    {price : α} (h : price ∈ (sideTrades isBuyerMaker trades).map Prod.fst) :
    ∃ trade ∈ trades, trade.price = price := by
  obtain ⟨entry,hentry,rfl⟩ := List.mem_map.mp h
  obtain ⟨trade,htrade,rfl⟩ := List.mem_map.mp hentry
  exact ⟨trade,List.mem_of_mem_filter htrade,rfl⟩

end Histories

namespace OrderBook

section Generic
variable {α : Type} [BEq α] [LE α] [DecidableLE α] [Add α] [Sub α] [Div α]
  [∀ n, OfNat α n]

/-- The book after a sequence of trades. -/
def applyTrades (trades : List (MarketDataEvent α)) : OrderBook α :=
  trades.foldl applyTrade (init α)

theorem applyTrades_concat (trades : List (MarketDataEvent α)) (trade : MarketDataEvent α) :
    applyTrades (trades ++ [trade]) = (applyTrades trades).applyTrade trade := by
  rw [applyTrades, List.foldl_append]
  rfl

@[simp] theorem recalculate_bidLevels (book : OrderBook α) :
    book.recalculate.bidLevels = book.bidLevels := by
  unfold recalculate
  split <;> rfl

@[simp] theorem recalculate_askLevels (book : OrderBook α) :
    book.recalculate.askLevels = book.askLevels := by
  unfold recalculate
  split <;> rfl

theorem applyTrade_bidLevels (book : OrderBook α) (trade : MarketDataEvent α) :
    (book.applyTrade trade).bidLevels = if trade.isBuyerMaker then
      (updateLevels book.bidLevels trade.price trade.quantity).mergeSort
        (fun a b => decide (a.price ≥ b.price)) else book.bidLevels := by
  cases h : trade.isBuyerMaker <;> simp [applyTrade, h]

theorem applyTrade_askLevels (book : OrderBook α) (trade : MarketDataEvent α) :
    (book.applyTrade trade).askLevels = if trade.isBuyerMaker then book.askLevels else
      (updateLevels book.askLevels trade.price trade.quantity).mergeSort
        (fun a b => decide (a.price ≤ b.price)) := by
  cases h : trade.isBuyerMaker <;> simp [applyTrade, h]

theorem replaceLevel_ne_nil {levels replaced : List (Level α)} {price quantity : α}
    (h : replaceLevel price quantity levels = some replaced) : replaced ≠ [] := by
  cases levels with
  | nil => contradiction
  | cons level rest =>
    unfold replaceLevel at h
    split_ifs at h
    · rw [Option.some.injEq] at h
      rw [← h]
      exact List.cons_ne_nil _ _
    · obtain ⟨tail,-,rfl⟩ := Option.map_eq_some_iff.mp h
      exact List.cons_ne_nil _ _

theorem updateLevels_ne_nil (levels : List (Level α)) (price quantity : α) :
    updateLevels levels price quantity ≠ [] := by
  unfold updateLevels
  cases hreplace : replaceLevel price quantity levels with
  | some replaced => exact replaceLevel_ne_nil hreplace
  | none =>
    simp only
    split_ifs with hroom
    · simp
    · intro hnil
      rw [hnil] at hroom
      exact hroom (Nat.zero_lt_succ 99)

theorem mergeSort_updateLevels_ne_nil (le : Level α → Level α → Bool) (levels : List (Level α))
    (price quantity : α) : (updateLevels levels price quantity).mergeSort le ≠ [] := by
  intro hnil
  have hlength := congrArg List.length hnil
  rw [List.length_mergeSort] at hlength
  exact updateLevels_ne_nil _ _ _ (List.length_eq_zero_iff.mp hlength)

/-- A trade leaves a level on its side. -/
theorem applyTrade_ne_init (book : OrderBook α) (trade : MarketDataEvent α) :
    book.applyTrade trade ≠ init α := by
  intro hinit
  cases h : trade.isBuyerMaker with
  | true =>
    have hbids := applyTrade_bidLevels book trade
    rw [hinit, h, if_pos rfl] at hbids
    exact mergeSort_updateLevels_ne_nil _ _ _ _ hbids.symm
  | false =>
    have hasks := applyTrade_askLevels book trade
    rw [hinit, h, if_neg (by decide)] at hasks
    exact mergeSort_updateLevels_ne_nil _ _ _ _ hasks.symm

theorem applyTrades_eq_init_iff (trades : List (MarketDataEvent α)) :
    applyTrades trades = init α ↔ trades = [] := by
  rcases List.eq_nil_or_concat trades with rfl | ⟨earlier,trade,rfl⟩
  · exact iff_of_true rfl rfl
  · rw [List.concat_eq_append, applyTrades_concat]
    exact iff_of_false (applyTrade_ne_init _ _) (by simp)

variable [DecidableEq α]

/-- Prices that the book compares as a linear order does. -/
structure Comparable (P : α → Prop) : Prop where
  beq_iff : ∀ {x y}, P x → P y → ((x == y) = true ↔ x = y)
  total : ∀ {x y}, P x → P y → x ≤ y ∨ y ≤ x
  trans : ∀ {x y z : α}, x ≤ y → y ≤ z → x ≤ z
  antisymm : ∀ {x y : α}, x ≤ y → y ≤ x → x = y

section Update
variable {levels replaced : List (Level α)} {price quantity : α} {P : α → Prop}

theorem replaceLevel_none (hP : Comparable P) (hlevels : ∀ level ∈ levels, P level.price)
    (hprice : P price) (h : replaceLevel price quantity levels = none) :
    price ∉ levels.map Level.price := by
  induction levels with
  | nil => exact List.not_mem_nil
  | cons level rest ih =>
    obtain ⟨hlevel,hrest⟩ := List.forall_mem_cons.mp hlevels
    simp only [replaceLevel, hP.beq_iff hlevel hprice] at h
    split_ifs at h with heq
    rw [Option.map_eq_none_iff] at h
    rw [List.map_cons, List.mem_cons, not_or]
    exact ⟨fun h' => heq h'.symm,ih hrest h⟩

/-- Replacing keeps the prices. -/
theorem replaceLevel_prices (hP : Comparable P) (hlevels : ∀ level ∈ levels, P level.price)
    (hprice : P price) (h : replaceLevel price quantity levels = some replaced) :
    replaced.map Level.price = levels.map Level.price ∧ price ∈ levels.map Level.price := by
  induction levels generalizing replaced with
  | nil => contradiction
  | cons level rest ih =>
    obtain ⟨hlevel,hrest⟩ := List.forall_mem_cons.mp hlevels
    simp only [replaceLevel, hP.beq_iff hlevel hprice] at h
    split_ifs at h with heq
    · rw [Option.some.injEq] at h
      rw [← h]
      exact ⟨rfl,by rw [List.map_cons, heq]; exact List.mem_cons_self⟩
    · obtain ⟨tail,htail,rfl⟩ := Option.map_eq_some_iff.mp h
      obtain ⟨hkeys,hmem⟩ := ih hrest htail
      exact ⟨congrArg (level.price :: ·) hkeys,List.mem_cons_of_mem _ hmem⟩

/-- Where no price occurs twice, replacing changes the level of that price only. -/
theorem replaceLevel_mem (hP : Comparable P) (hlevels : ∀ level ∈ levels, P level.price)
    (hprice : P price) (hnodup : (levels.map Level.price).Nodup)
    (h : replaceLevel price quantity levels = some replaced) :
    ∀ level ∈ replaced, if level.price = price then level.quantity = quantity
      else level ∈ levels := by
  induction levels generalizing replaced with
  | nil => contradiction
  | cons head rest ih =>
    obtain ⟨hheadP,hrestP⟩ := List.forall_mem_cons.mp hlevels
    rw [List.map_cons, List.nodup_cons] at hnodup
    obtain ⟨hhead,hrest⟩ := hnodup
    simp only [replaceLevel, hP.beq_iff hheadP hprice] at h
    split_ifs at h with hsame
    · rw [Option.some.injEq] at h
      rw [← h]
      intro level hlevel
      rcases List.mem_cons.mp hlevel with rfl | hlevel
      · rw [if_pos hsame]
      · rw [if_neg]
        · exact List.mem_cons_of_mem _ hlevel
        · rintro heq
          apply hhead
          rw [hsame, ← heq]
          exact List.mem_map_of_mem hlevel
    · obtain ⟨tail,htail,rfl⟩ := Option.map_eq_some_iff.mp h
      intro level hlevel
      rcases List.mem_cons.mp hlevel with rfl | hlevel
      · rw [if_neg hsame]
        exact List.mem_cons_self
      · have hlater := ih hrestP hrest htail level hlevel
        split_ifs at hlater ⊢ with heq
        · exact hlater
        · exact List.mem_cons_of_mem _ hlater

/-- Find or replace and append while there is room: the first hundred prices stay stored. -/
theorem updateLevels_holds (hP : Comparable P) (hlevels : ∀ level ∈ levels, P level.price)
    (hprice : P price) {history : List (α × α)}
    (h : Holds maxLevels history (levels.map Level.entry)) :
    Holds maxLevels (history ++ [(price,quantity)])
      ((updateLevels levels price quantity).map Level.entry) := by
  have hnodup := h.keys_nodup
  rw [map_fst_entry] at hnodup
  unfold updateLevels
  cases hreplace : replaceLevel price quantity levels with
  | some replaced =>
    obtain ⟨hkeys,hmem⟩ := replaceLevel_prices hP hlevels hprice hreplace
    have hrows := replaceLevel_mem hP hlevels hprice hnodup hreplace
    rw [← map_fst_entry, ← map_fst_entry] at hkeys
    rw [← map_fst_entry] at hmem
    refine h.replace hkeys hmem ?_
    intro entry hentry
    obtain ⟨level,hlevel,rfl⟩ := List.mem_map.mp hentry
    have hrow := hrows level hlevel
    by_cases hsame : level.price = price
    · rw [if_pos hsame] at hrow
      exact (if_pos hsame).mpr hrow
    · rw [if_neg hsame] at hrow
      exact (if_neg hsame).mpr (List.mem_map_of_mem hrow)
  | none =>
    have hnew := replaceLevel_none hP hlevels hprice hreplace
    rw [← map_fst_entry] at hnew
    by_cases hroom : levels.length < maxLevels
    · simp only [if_pos hroom, List.map_append]
      exact h.insert hnew (by rw [List.length_map]; exact hroom)
    · simp only [if_neg hroom]
      exact h.skip hnew (by rw [List.length_map]; exact hroom)

end Update

/-- A side of the book: the first hundred prices of its trades, best first. -/
structure Side (better : α → α → Prop) (history : List (α × α)) (levels : List (Level α)) :
    Prop where
  holds : Holds maxLevels history (levels.map Level.entry)
  sorted : (levels.map Level.price).Pairwise better

namespace Side
variable {better : α → α → Prop} {history : List (α × α)} {levels : List (Level α)}

theorem init : Side better [] ([] : List (Level α)) where
  holds := .nil maxLevels
  sorted := List.Pairwise.nil

/-- The stored prices are prices of the history. -/
theorem price_mem (h : Side better history levels) :
    ∀ level ∈ levels, level.price ∈ history.map Prod.fst := by
  intro level hlevel
  have hkeys := h.holds.keys
  rw [map_fst_entry] at hkeys
  exact mem_firstSeen.mp (List.mem_of_mem_take (hkeys.mem_iff.mp (List.mem_map_of_mem hlevel)))

/-- The side after one more trade, for prices that `better` orders. -/
theorem update_of_comparable [DecidableRel better] {P : α → Prop} (hP : Comparable P)
    (htotal : ∀ {x y}, P x → P y → better x y ∨ better y x)
    (htrans : ∀ {x y z}, better x y → better y z → better x z)
    (hhistory : ∀ price ∈ history.map Prod.fst, P price) (h : Side better history levels)
    {price : α} (hprice : P price) (quantity : α) :
    Side better (history ++ [(price,quantity)]) ((updateLevels levels price quantity).mergeSort
      (fun a b => decide (better a.price b.price))) := by
  have hlevels : ∀ level ∈ levels, P level.price := fun level hlevel =>
    hhistory _ (h.price_mem level hlevel)
  have hholds : Holds maxLevels (history ++ [(price,quantity)])
      ((updateLevels levels price quantity).map Level.entry) :=
    updateLevels_holds hP hlevels hprice h.holds
  refine ⟨hholds.perm ((List.mergeSort_perm _ _).map _),?_⟩
  have hnew : ∀ level ∈ updateLevels levels price quantity, P level.price := by
    intro level hlevel
    have hkeys := hholds.keys
    rw [map_fst_entry] at hkeys
    have hmem := mem_firstSeen.mp
      (List.mem_of_mem_take (hkeys.mem_iff.mp (List.mem_map_of_mem hlevel)))
    rw [List.map_append, List.mem_append] at hmem
    rcases hmem with hold | hlast
    · exact hhistory _ hold
    · rw [List.mem_singleton.mp hlast]
      exact hprice
  have hsorted : ((updateLevels levels price quantity).mergeSort
      (fun a b => decide (better a.price b.price))).Pairwise
        (fun a b => decide (better a.price b.price) = true) := by
    apply pairwise_mergeSort_of_mem
    · intro a ha b hb c hc hab hbc
      exact decide_eq_true (htrans (of_decide_eq_true hab) (of_decide_eq_true hbc))
    · intro a ha b hb
      rw [Bool.or_eq_true, decide_eq_true_eq, decide_eq_true_eq]
      exact htotal (hnew a ha) (hnew b hb)
  rw [List.pairwise_map]
  exact hsorted.imp of_decide_eq_true

/-- No price occurs twice, so the order is strict. -/
theorem strict (h : Side better history levels) :
    levels.Pairwise (fun a b => better a.price b.price ∧ a.price ≠ b.price) := by
  have hnodup := h.holds.keys_nodup
  rw [map_fst_entry] at hnodup
  have hpair := h.sorted.and hnodup
  rw [List.pairwise_map] at hpair
  exact hpair

/-- The side shows its best prices exactly as long as no later price is better. -/
theorem take_eq_best_iff [DecidableRel better] (h : Side better history levels)
    (horders : Orders better (history.map Prod.fst)) :
    (∀ n ≤ maxLevels, (levels.take n).map Level.entry = best better n history) ↔
      ∀ x ∈ (firstSeen (history.map Prod.fst)).take maxLevels,
        ∀ y ∈ (firstSeen (history.map Prod.fst)).drop maxLevels, better x y := by
  have hsorted := h.sorted
  rw [← map_fst_entry] at hsorted
  simp only [List.map_take]
  exact h.holds.take_eq_best_iff better horders hsorted

end Side

/-- Both sides after any sequence of trades at comparable prices. -/
theorem sides_of_comparable {P : α → Prop} (hP : Comparable P)
    {trades : List (MarketDataEvent α)} (h : ∀ trade ∈ trades, P trade.price) :
    Side (· ≥ ·) (sideTrades true trades) (applyTrades trades).bidLevels ∧
      Side (· ≤ ·) (sideTrades false trades) (applyTrades trades).askLevels := by
  induction trades using List.reverseRecOn with
  | nil => exact ⟨Side.init,Side.init⟩
  | append_singleton trades trade ih =>
    have hbefore : ∀ trade ∈ trades, P trade.price := fun t ht => h t (by simp [ht])
    have hprice : P trade.price := h trade (by simp)
    have hhistory : ∀ isBuyerMaker, ∀ price ∈ (sideTrades isBuyerMaker trades).map Prod.fst,
        P price := by
      intro isBuyerMaker price hmem
      obtain ⟨t,ht,rfl⟩ := exists_trade_of_sideTrades hmem
      exact hbefore t ht
    obtain ⟨hbids,hasks⟩ := ih hbefore
    rw [applyTrades_concat, applyTrade_bidLevels, applyTrade_askLevels, sideTrades_concat,
      sideTrades_concat]
    cases hside : trade.isBuyerMaker with
    | true =>
      refine ⟨hbids.update_of_comparable hP (fun hx hy => hP.total hy hx)
        (fun hxy hyz => hP.trans hyz hxy) (hhistory true) hprice _,?_⟩
      rw [if_neg (by decide), List.append_nil]
      exact hasks
    | false =>
      refine ⟨?_,hasks.update_of_comparable hP hP.total hP.trans (hhistory false) hprice _⟩
      rw [if_neg (by decide), List.append_nil]
      exact hbids

/-- Each side shows its best prices, each with the quantity last traded at it. -/
def ShowsBest (trades : List (MarketDataEvent α)) : Prop :=
  ∀ n ≤ maxLevels,
    ((applyTrades trades).getTopBids n).map Level.entry = best (· ≥ ·) n (sideTrades true trades) ∧
    ((applyTrades trades).getTopAsks n).map Level.entry = best (· ≤ ·) n (sideTrades false trades)

/-- No price that comes after the first hundred distinct ones of its side is better than one of
these. -/
def BestComeFirst (trades : List (MarketDataEvent α)) : Prop :=
  (∀ p ∈ (distinctPrices true trades).take maxLevels,
    ∀ q ∈ (distinctPrices true trades).drop maxLevels, p ≥ q) ∧
  (∀ p ∈ (distinctPrices false trades).take maxLevels,
    ∀ q ∈ (distinctPrices false trades).drop maxLevels, p ≤ q)

/-- The prices of one side are ordered. -/
theorem Comparable.orders {P : α → Prop} (hP : Comparable P) {trades : List (MarketDataEvent α)}
    (h : ∀ trade ∈ trades, P trade.price) (isBuyerMaker : Bool) :
    Orders (· ≤ ·) ((sideTrades isBuyerMaker trades).map Prod.fst) where
  total := by
    intro x hx y hy
    obtain ⟨t,ht,rfl⟩ := exists_trade_of_sideTrades hx
    obtain ⟨t',ht',rfl⟩ := exists_trade_of_sideTrades hy
    exact hP.total (h t ht) (h t' ht')
  trans := hP.trans
  antisymm := hP.antisymm

theorem showsBest_iff {P : α → Prop} (hP : Comparable P) {trades : List (MarketDataEvent α)}
    (h : ∀ trade ∈ trades, P trade.price) : ShowsBest trades ↔ BestComeFirst trades := by
  obtain ⟨hbids,hasks⟩ := sides_of_comparable hP h
  have hrising := hP.orders h true
  have hfalling : Orders (· ≥ ·) ((sideTrades true trades).map Prod.fst) :=
    ⟨fun x hx y hy => hrising.total y hy x hx,fun hxy hyz => hrising.trans hyz hxy,
      fun hxy hyx => hrising.antisymm hyx hxy⟩
  rw [BestComeFirst, distinctPrices, distinctPrices, ← hbids.take_eq_best_iff hfalling,
    ← hasks.take_eq_best_iff (hP.orders h false)]
  constructor
  · intro hshown
    exact ⟨fun n hn => (hshown n hn).1,fun n hn => (hshown n hn).2⟩
  · rintro ⟨htop,hbottom⟩ n hn
    exact ⟨htop n hn,hbottom n hn⟩

theorem Side.latest_eq {better : α → α → Prop} {history : List (α × α)} {levels : List (Level α)}
    (h : Side better history levels) :
    ∀ level ∈ levels, latest level.price history = some level.quantity := by
  intro level hlevel
  exact h.holds.values level.entry (List.mem_map_of_mem hlevel)

theorem Side.bounded {better : α → α → Prop} {history : List (α × α)} {levels : List (Level α)}
    (h : Side better history levels) : levels.length ≤ maxLevels := by
  have hlength := h.holds.length_le
  rw [List.length_map] at hlength
  exact hlength

/-- The best price of a non-empty side bounds the first hundred distinct prices, and is one. -/
theorem Side.head_spec_of_refl {better : α → α → Prop} {history : List (α × α)}
    {levels : List (Level α)} (h : Side better history levels) {level : Level α}
    (hhead : levels.take 1 = [level]) (hrefl : better level.price level.price) :
    level.price ∈ (firstSeen (history.map Prod.fst)).take maxLevels ∧
      ∀ p ∈ (firstSeen (history.map Prod.fst)).take maxLevels, better level.price p := by
  obtain ⟨rest,rfl⟩ : ∃ rest, levels = level :: rest := by
    cases levels with
    | nil => simp at hhead
    | cons first rest =>
      rw [List.take_succ_cons, List.take_zero, List.cons.injEq] at hhead
      exact ⟨rest,by rw [hhead.1]⟩
  have hkeys := h.holds.keys
  have hsorted := h.sorted
  rw [map_fst_entry] at hkeys
  rw [List.map_cons, List.pairwise_cons] at hsorted
  refine ⟨hkeys.mem_iff.mp List.mem_cons_self,?_⟩
  intro p hp
  rcases List.mem_cons.mp (hkeys.mem_iff.mpr hp) with rfl | hp
  · exact hrefl
  · exact hsorted.1 p hp

theorem Side.exists_head {better : α → α → Prop} {history : List (α × α)} {levels : List (Level α)}
    (h : Side better history levels) {p : α}
    (hp : p ∈ (firstSeen (history.map Prod.fst)).take maxLevels) :
    ∃ level, levels.take 1 = [level] := by
  have hmem := h.holds.keys.mem_iff.mpr hp
  cases levels with
  | nil => exact absurd hmem List.not_mem_nil
  | cons level rest => exact ⟨level,rfl⟩

/-- With both sides present the metrics are computed from the two best levels. -/
theorem recalculate_of_best {book : OrderBook α} {bid ask : Level α}
    (hbid : book.getTopBids 1 = [bid]) (hask : book.getTopAsks 1 = [ask]) :
    book.recalculate = { book with
      imbalance := (bid.quantity - ask.quantity) / (bid.quantity + ask.quantity)
      spread := ask.price - bid.price } := by
  unfold getTopBids at hbid
  unfold getTopAsks at hask
  unfold recalculate
  cases hbids : book.bidLevels with
  | nil => simp [hbids] at hbid
  | cons b bids =>
    cases hasks : book.askLevels with
    | nil => simp [hasks] at hask
    | cons a asks =>
      rw [hbids, List.take_succ_cons, List.take_zero, List.cons.injEq] at hbid
      rw [hasks, List.take_succ_cons, List.take_zero, List.cons.injEq] at hask
      rw [← hbid.1, ← hask.1]

theorem applyTrades_recalculated (trades : List (MarketDataEvent α)) {bid ask : Level α}
    (hbid : (applyTrades trades).getTopBids 1 = [bid])
    (hask : (applyTrades trades).getTopAsks 1 = [ask]) :
    ∃ book : OrderBook α, applyTrades trades = { book with
      imbalance := (bid.quantity - ask.quantity) / (bid.quantity + ask.quantity)
      spread := ask.price - bid.price } := by
  rcases List.eq_nil_or_concat trades with rfl | ⟨before,trade,rfl⟩
  · simp [applyTrades, init, getTopBids] at hbid
  · obtain ⟨book,hbook⟩ : ∃ book : OrderBook α,
        (applyTrades before).applyTrade trade = book.recalculate := ⟨_,rfl⟩
    rw [List.concat_eq_append, applyTrades_concat, hbook] at hbid hask ⊢
    rw [getTopBids, recalculate_bidLevels] at hbid
    rw [getTopAsks, recalculate_askLevels] at hask
    exact ⟨book,recalculate_of_best hbid hask⟩

/-- The stored spread is the one between the two best levels. -/
theorem applyTrades_spread (trades : List (MarketDataEvent α)) {bid ask : Level α}
    (hbid : (applyTrades trades).getTopBids 1 = [bid])
    (hask : (applyTrades trades).getTopAsks 1 = [ask]) :
    (applyTrades trades).spread = ask.price - bid.price := by
  obtain ⟨book,hbook⟩ := applyTrades_recalculated trades hbid hask
  rw [hbook]

/-- The stored imbalance is the one of their sizes. -/
theorem applyTrades_imbalance (trades : List (MarketDataEvent α)) {bid ask : Level α}
    (hbid : (applyTrades trades).getTopBids 1 = [bid])
    (hask : (applyTrades trades).getTopAsks 1 = [ask]) :
    (applyTrades trades).imbalance =
      (bid.quantity - ask.quantity) / (bid.quantity + ask.quantity) := by
  obtain ⟨book,hbook⟩ := applyTrades_recalculated trades hbid hask
  rw [hbook]

end Generic

theorem comparable_rat : Comparable (fun _ : ℚ => True) where
  beq_iff _ _ := beq_iff_eq
  total _ _ := le_total _ _
  trans := le_trans
  antisymm := le_antisymm

theorem comparable_numbers : Comparable (fun price : Double => price.isNan = false) where
  beq_iff := Double.beq_iff
  total := Double.le_total
  trans := Double.le_trans
  antisymm := Double.le_antisymm

/-- The stored prices of trades at numbers are numbers. -/
theorem Side.stored_numbers {trades : List (MarketDataEvent Double)}
    (h : ∀ trade ∈ trades, trade.price.isNan = false) {better : Double → Double → Prop}
    {isBuyerMaker : Bool} {levels : List (Level Double)}
    (hside : Side better (sideTrades isBuyerMaker trades) levels) :
    ∀ level ∈ levels, level.price ≤ level.price := by
  intro level hlevel
  obtain ⟨trade,htrade,hprice⟩ := exists_trade_of_sideTrades (hside.price_mem level hlevel)
  rw [← hprice]
  exact Double.le_rfl_of_isNan (h trade htrade)

/-- The best stored price is a number. -/
theorem Side.head_refl {trades : List (MarketDataEvent Double)}
    (h : ∀ trade ∈ trades, trade.price.isNan = false) {better : Double → Double → Prop}
    {isBuyerMaker : Bool} {levels : List (Level Double)}
    (hside : Side better (sideTrades isBuyerMaker trades) levels) {level : Level Double}
    (hhead : levels.take 1 = [level]) : level.price ≤ level.price :=
  hside.stored_numbers h level (List.mem_of_mem_take (hhead ▸ List.mem_singleton_self level))

/-- Both sides after any sequence of trades. -/
theorem applyTrades_sides (trades : List MarketDataEvent) :
    Side (· ≥ ·) (sideTrades true trades) (applyTrades trades).bidLevels ∧
      Side (· ≤ ·) (sideTrades false trades) (applyTrades trades).askLevels :=
  sides_of_comparable comparable_rat (fun _ _ => trivial)

/-- The shown levels of each side are the best prices of all its trades, with their latest
quantities, exactly when no price that comes after the first hundred distinct ones of its side
is better than one of these: in exact arithmetic, and in doubles at prices that are numbers. -/
theorem best_levels_iff (trades : List MarketDataEvent) (doubles : List (MarketDataEvent Double)) :
    (ShowsBest trades ↔ BestComeFirst trades) ∧
      ((∀ trade ∈ doubles, trade.price.isNan = false) →
        (ShowsBest doubles ↔ BestComeFirst doubles)) :=
  ⟨showsBest_iff comparable_rat (fun _ _ => trivial),showsBest_iff comparable_numbers⟩

/-- Buyer-maker trades at 1, 2, and so on up to 101. -/
def risingBids : List (MarketDataEvent Double) :=
  (List.range 101).map (fun i => ⟨[],Double.round (i + 1),1,0,true⟩)

theorem best_levels_iff_risingBids : ShowsBest risingBids ↔ BestComeFirst risingBids :=
  (best_levels_iff [] risingBids).2 (by decide +kernel)

/-- The hundred and first price is the best one and is not stored. -/
theorem best_bid_dropped : ¬ShowsBest risingBids := by
  intro h
  have hfirst := (showsBest_iff comparable_numbers (by decide +kernel)).mp h
  have hone : ((distinctPrices true risingBids).take maxLevels)[0]? = some 1 := by
    decide +kernel
  have hlast : ((distinctPrices true risingBids).drop maxLevels)[0]? = some 101 := by
    decide +kernel
  have hbelow : (1 : Double) ≥ 101 :=
    hfirst.1 1 (List.mem_of_getElem? hone) 101 (List.mem_of_getElem? hlast)
  exact absurd hbelow (by decide +kernel)

/-- What holds of the level arrays after a sequence of trades. -/
structure WellFormed (trades : List MarketDataEvent) (book : OrderBook) : Prop where
  bids_descending : book.bidLevels.Pairwise (fun a b => a.price > b.price)
  asks_ascending : book.askLevels.Pairwise (fun a b => a.price < b.price)
  bids_bounded : book.bidLevels.length ≤ maxLevels
  asks_bounded : book.askLevels.length ≤ maxLevels
  bids_latest : ∀ level ∈ book.bidLevels,
    latest level.price (sideTrades true trades) = some level.quantity
  asks_latest : ∀ level ∈ book.askLevels,
    latest level.price (sideTrades false trades) = some level.quantity

theorem applyTrades_wellFormed (trades : List MarketDataEvent) :
    WellFormed trades (applyTrades trades) := by
  obtain ⟨hbids,hasks⟩ := applyTrades_sides trades
  refine ⟨hbids.strict.imp ?_,hasks.strict.imp ?_,hbids.bounded,hasks.bounded,
    hbids.latest_eq,hasks.latest_eq⟩
  · rintro a b ⟨hle,hne⟩
    exact lt_of_le_of_ne hle hne.symm
  · rintro a b ⟨hle,hne⟩
    exact lt_of_le_of_ne hle hne

theorem sideTrades_append (isBuyerMaker : Bool) (trades more : List MarketDataEvent) :
    sideTrades isBuyerMaker (trades ++ more) =
      sideTrades isBuyerMaker trades ++ sideTrades isBuyerMaker more := by
  simp [sideTrades]

/-- A stored price stays stored. -/
theorem prices_stay (trades more : List MarketDataEvent) :
    (∀ p ∈ (applyTrades trades).bidLevels.map Level.price,
      p ∈ (applyTrades (trades ++ more)).bidLevels.map Level.price) ∧
    (∀ p ∈ (applyTrades trades).askLevels.map Level.price,
      p ∈ (applyTrades (trades ++ more)).askLevels.map Level.price) := by
  obtain ⟨hbids,hasks⟩ := applyTrades_sides trades
  obtain ⟨hbids',hasks'⟩ := applyTrades_sides (trades ++ more)
  have hkeptBids := hbids'.holds
  have hkeptAsks := hasks'.holds
  rw [sideTrades_append] at hkeptBids hkeptAsks
  simp only [← map_fst_entry]
  exact ⟨hbids.holds.keys_subset hkeptBids,hasks.holds.keys_subset hkeptAsks⟩

/-- The representation invariant: strict order on both sides, the bound, last-write quantities,
stored prices that stay, sides that do not touch each other, and the shown levels as the first
ones of the arrays. -/
theorem representation (trades : List MarketDataEvent) :
    WellFormed trades (applyTrades trades) ∧
    (∀ more, (∀ p ∈ (applyTrades trades).bidLevels.map Level.price,
        p ∈ (applyTrades (trades ++ more)).bidLevels.map Level.price) ∧
      (∀ p ∈ (applyTrades trades).askLevels.map Level.price,
        p ∈ (applyTrades (trades ++ more)).askLevels.map Level.price)) ∧
    (∀ trade, if trade.isBuyerMaker
      then (applyTrades (trades ++ [trade])).askLevels = (applyTrades trades).askLevels
      else (applyTrades (trades ++ [trade])).bidLevels = (applyTrades trades).bidLevels) ∧
    ∀ n, ((applyTrades trades).getTopBids n).IsPrefix (applyTrades trades).bidLevels ∧
      ((applyTrades trades).getTopBids n).length = min n (applyTrades trades).bidLevels.length ∧
      ((applyTrades trades).getTopAsks n).IsPrefix (applyTrades trades).askLevels ∧
      ((applyTrades trades).getTopAsks n).length =
        min n (applyTrades trades).askLevels.length := by
  refine ⟨applyTrades_wellFormed trades,prices_stay trades,?_,?_⟩
  · intro trade
    rw [applyTrades_concat, applyTrade_askLevels, applyTrade_bidLevels]
    cases trade.isBuyerMaker <;> simp
  · intro n
    exact ⟨List.take_prefix _ _,List.length_take,List.take_prefix _ _,List.length_take⟩

/-- The book is uncrossed, and the stored spread not negative, exactly when none of the first
hundred distinct buyer-maker prices is above one of the first hundred of the other trades, and no
infinite price is among both. -/
theorem uncrossed_iff (trades : List (MarketDataEvent Double))
    (h : ∀ trade ∈ trades, trade.price.isNan = false) :
    (∀ bid ask, (applyTrades trades).getTopBids 1 = [bid] →
      (applyTrades trades).getTopAsks 1 = [ask] →
      bid.price ≤ ask.price ∧ 0 ≤ (applyTrades trades).spread) ↔
    ∀ p ∈ (distinctPrices true trades).take maxLevels,
      ∀ q ∈ (distinctPrices false trades).take maxLevels,
        p ≤ q ∧ (p = q → p.isFinite = true) := by
  obtain ⟨hbids,hasks⟩ := sides_of_comparable comparable_numbers h
  have hspread : ∀ bid ask, (applyTrades trades).getTopBids 1 = [bid] →
      (applyTrades trades).getTopAsks 1 = [ask] →
        (0 ≤ (applyTrades trades).spread ↔
          bid.price ≤ ask.price ∧ (bid.price = ask.price → bid.price.isFinite = true)) := by
    intro bid ask hbid hask
    rw [applyTrades_spread trades hbid hask]
    exact Double.sub_nonneg_iff (Double.isNan_of_le (hbids.head_refl h hbid)).1
      (Double.isNan_of_le (hasks.head_refl h hask)).1
  constructor
  · intro huncrossed p hp q hq
    obtain ⟨bid,hbid⟩ := hbids.exists_head hp
    obtain ⟨ask,hask⟩ := hasks.exists_head hq
    obtain ⟨hbest,hnonneg⟩ := huncrossed bid ask hbid hask
    have hbelow : p ≤ bid.price :=
      (hbids.head_spec_of_refl hbid (hbids.head_refl h hbid)).2 p hp
    have habove : ask.price ≤ q :=
      (hasks.head_spec_of_refl hask (hasks.head_refl h hask)).2 q hq
    refine ⟨Double.le_trans hbelow (Double.le_trans hbest habove),?_⟩
    rintro rfl
    -- the two best prices lie between equal ones
    have hbidEq : bid.price = p :=
      Double.le_antisymm (Double.le_trans hbest habove) hbelow
    have haskEq : bid.price = ask.price := by
      rw [hbidEq] at hbest ⊢
      exact Double.le_antisymm hbest habove
    rw [← hbidEq]
    exact ((hspread bid ask hbid hask).mp hnonneg).2 haskEq
  · intro hapart bid ask hbid hask
    have hbest := hapart _ (hbids.head_spec_of_refl hbid (hbids.head_refl h hbid)).1
      _ (hasks.head_spec_of_refl hask (hasks.head_refl h hask)).1
    exact ⟨hbest.1,(hspread bid ask hbid hask).mpr hbest⟩

/-- A buyer-maker trade at 101, then another trade at 100. -/
def fallingPrice : List (MarketDataEvent Double) := [⟨[],101,1,0,true⟩,⟨[],100,1,1,false⟩]

theorem uncrossed_iff_fallingPrice :
    (∀ bid ask, (applyTrades fallingPrice).getTopBids 1 = [bid] →
      (applyTrades fallingPrice).getTopAsks 1 = [ask] →
      bid.price ≤ ask.price ∧ 0 ≤ (applyTrades fallingPrice).spread) ↔
    ∀ p ∈ (distinctPrices true fallingPrice).take maxLevels,
      ∀ q ∈ (distinctPrices false fallingPrice).take maxLevels,
        p ≤ q ∧ (p = q → p.isFinite = true) :=
  uncrossed_iff fallingPrice (by decide +kernel)

/-- The book is crossed although all prices and quantities are positive. -/
theorem book_crossed : (∀ trade ∈ fallingPrice, 0 < trade.price ∧ 0 < trade.quantity) ∧
    (applyTrades fallingPrice).getTopBids 1 = [⟨101,1⟩] ∧
    (applyTrades fallingPrice).getTopAsks 1 = [⟨100,1⟩] ∧
    ¬ (101 : Double) ≤ 100 ∧ (applyTrades fallingPrice).spread = -1 := by
  decide +kernel

end OrderBook
end HftEngine.Book
