import HftEngine.Book.OrderBook
import HftEngine.Pnl.PnlEngine

/-! The screen (ui/terminal_ui.cpp) as the lines that an update prints, each with its place and with
the values in it before they are formatted. -/
namespace HftEngine.Ui
open HftEngine.Core Book Pnl

inductive Content
  | text (label : String)
  | totals (position pnl : ℚ)
  | strategy (id : ℕ) (name : String) (pnl position : ℚ) (trades : ℕ)
  | microstructure (imbalance spread : ℚ)
  | ask (price quantity : ℚ)
  | bid (price quantity : ℚ)
  | order (strategyId orderId : ℕ) (side : String) (quantity price : ℚ)
  | trade (strategyId tradeId : ℕ) (side : String) (lastQty lastPrice : ℚ)
  | throughput (eventsPerSec queueDepth : ℕ)
  | latency (p99LatencyNs : ℕ)
  deriving DecidableEq, Repr

/-- Whether values are printed, and not only a label. -/
def Content.hasValues : Content → Bool
  | .text _ => false
  | _ => true

structure Printed where
  row : ℕ
  column : ℕ
  content : Content
  deriving DecidableEq, Repr

/-- One below the other, as the loops over `row++` print them. -/
def printDown (row column : ℕ) : List Content → List Printed
  | [] => []
  | content :: contents => ⟨row,column,content⟩ :: printDown (row + 1) column contents

namespace TerminalUi

def strategyName (id : ℕ) : String :=
  if id = 1 then "MarketMaker" else if id = 2 then "Momentum  " else "Unknown   "

def strategyContent (id : ℕ) (stats : StrategyStats) : Content :=
  .strategy id (strategyName id) (stats.realizedPnl + stats.unrealizedPnl) stats.position
    stats.trades

def orderContent (order : OrderRequest) : Content :=
  .order order.strategyId order.orderId (if order.side = .buy then "BUY" else "SELL")
    order.quantity order.price

def tradeContent (report : ExecutionReport) : Content :=
  .trade report.strategyId report.tradeId (if report.side = .buy then "BOT" else "SLD")
    report.lastQty report.lastPrice

/-- Asks are printed worst first, trades latest first. -/
def update (orderBook : OrderBook) (totalPnl totalPosition : ℚ)
    (strategyStats : Std.TreeMap ℕ StrategyStats) (p99LatencyNs queueDepth eventsPerSec : ℕ)
    (openOrders : List OrderRequest) (trades : List ExecutionReport) : List Printed :=
  let attribution := strategyStats.toList.map (fun entry => strategyContent entry.1 entry.2)
  let sRow := 6 + attribution.length
  let asks := orderBook.getTopAsks 5
  let bids := orderBook.getTopBids 5
  let levels := [.text "--- ORDER BOOK ---",
      .microstructure orderBook.imbalance orderBook.spread] ++
    asks.reverse.map (fun level => .ask level.price level.quantity) ++
    [.text "------------------"] ++ bids.map (fun level => .bid level.price level.quantity)
  let row := sRow + 1 + levels.length
  let orders := (openOrders.take 8).map orderContent
  let oRow := 5 + orders.length
  let history := (trades.reverse.take 8).map tradeContent
  let tRow := oRow + 2 + history.length
  let bRow := max row tRow + 2
  [⟨0,0,.text "=== HFT QUANT INFRASTRUCTURE - ELITE DASHBOARD ==="⟩,
    ⟨2,0,.totals totalPosition totalPnl⟩,
    ⟨4,0,.text "--- STRATEGY ATTRIBUTION ---"⟩,
    ⟨5,0,.text "ID   Name         PnL      Pos      Trades"⟩] ++
  printDown 6 0 attribution ++
  printDown (sRow + 1) 0 levels ++
  ⟨4,50,.text "--- OPEN ORDERS ---"⟩ :: printDown 5 50 orders ++
  ⟨oRow + 1,50,.text "--- TRADE HISTORY ---"⟩ :: printDown (oRow + 2) 50 history ++
  [⟨bRow,0,.text "--- SYSTEM TELEMETRY ---"⟩,
    ⟨bRow + 1,0,.throughput eventsPerSec queueDepth⟩,
    ⟨bRow + 2,0,.latency p99LatencyNs⟩,
    ⟨bRow + 4,0,.text "Press 'q' to quit."⟩]

end TerminalUi

/-- Among the lines that begin in the same column, each is printed below those before it. -/
def TopDown (lines : List Printed) : Prop :=
  lines.Pairwise (fun above below => above.column = below.column → above.row < below.row)

/-- The values on the screen, without the labels. -/
def valuesOf (lines : List Printed) : List Content :=
  (lines.map Printed.content).filter Content.hasValues

@[simp] theorem valuesOf_nil : valuesOf [] = [] := rfl

@[simp] theorem valuesOf_cons (line : Printed) (lines : List Printed) :
    valuesOf (line :: lines) = [line.content].filter Content.hasValues ++ valuesOf lines := by
  rw [← List.singleton_append, valuesOf, List.map_append, List.filter_append]
  rfl

@[simp] theorem valuesOf_append (xs ys : List Printed) :
    valuesOf (xs ++ ys) = valuesOf xs ++ valuesOf ys := by
  rw [valuesOf, List.map_append, List.filter_append]
  rfl

@[simp] theorem map_content_printDown (row column : ℕ) (contents : List Content) :
    (printDown row column contents).map Printed.content = contents := by
  induction contents generalizing row with
  | nil => rfl
  | cons content contents ih => rw [printDown, List.map_cons, ih]

@[simp] theorem valuesOf_printDown (row column : ℕ) (contents : List Content) :
    valuesOf (printDown row column contents) = contents.filter Content.hasValues := by
  rw [valuesOf, map_content_printDown]

theorem mem_printDown {row column : ℕ} {contents : List Content} {line : Printed}
    (h : line ∈ printDown row column contents) :
    line.column = column ∧ row ≤ line.row ∧ line.row < row + contents.length := by
  induction contents generalizing row with
  | nil => exact absurd h List.not_mem_nil
  | cons content contents ih =>
    rw [printDown, List.mem_cons] at h
    rw [List.length_cons]
    cases h with
    | inl hfirst =>
      rw [hfirst]
      exact ⟨rfl,Nat.le_refl row,Nat.lt_add_of_pos_right (Nat.succ_pos _)⟩
    | inr hrest =>
      obtain ⟨hcolumn,hge,hlt⟩ := ih hrest
      exact ⟨hcolumn,by omega,by omega⟩

theorem topDown_printDown (row column : ℕ) (contents : List Content) :
    TopDown (printDown row column contents) := by
  induction contents generalizing row with
  | nil => exact List.Pairwise.nil
  | cons content contents ih =>
    refine List.Pairwise.cons ?_ (ih (row + 1))
    intro line hline _
    have hbelow := (mem_printDown hline).2.1
    dsimp only
    omega

/-- The two columns of the screen, each filled from the top down to a row. -/
structure Filled (lines : List Printed) (left right : ℕ) : Prop where
  topDown : TopDown lines
  places : ∀ line ∈ lines, line.column = 0 ∧ line.row < left ∨ line.column = 50 ∧ line.row < right

namespace Filled
variable {lines : List Printed} {left right : ℕ} (row : ℕ) (block : List Printed)
  (contents : List Content)

theorem append_left (h : Filled lines left right) (hblock : TopDown block) (hrow : left ≤ row)
    (hplaces : ∀ line ∈ block, line.column = 0 ∧ left ≤ line.row ∧ line.row < row) :
    Filled (lines ++ block) row right where
  topDown := by
    refine List.pairwise_append.mpr ⟨h.topDown,hblock,?_⟩
    intro above habove below hbelow hcolumn
    obtain ⟨hzero,hge,-⟩ := hplaces below hbelow
    cases h.places above habove with
    | inl hleft => omega
    | inr hright => omega
  places line hline := by
    cases List.mem_append.mp hline with
    | inl hold => exact (h.places line hold).imp_left (And.imp_right (fun hlt => by omega))
    | inr hnew => exact .inl ⟨(hplaces line hnew).1,(hplaces line hnew).2.2⟩

theorem append_right (h : Filled lines left right) (hblock : TopDown block) (hrow : right ≤ row)
    (hplaces : ∀ line ∈ block, line.column = 50 ∧ right ≤ line.row ∧ line.row < row) :
    Filled (lines ++ block) left row where
  topDown := by
    refine List.pairwise_append.mpr ⟨h.topDown,hblock,?_⟩
    intro above habove below hbelow hcolumn
    obtain ⟨hfifty,hge,-⟩ := hplaces below hbelow
    cases h.places above habove with
    | inl hleft => omega
    | inr hright => omega
  places line hline := by
    cases List.mem_append.mp hline with
    | inl hold => exact (h.places line hold).imp_right (And.imp_right (fun hlt => by omega))
    | inr hnew => exact .inr ⟨(hplaces line hnew).1,(hplaces line hnew).2.2⟩

theorem printDown_left (h : Filled lines left right) (hrow : left ≤ row) :
    Filled (lines ++ printDown row 0 contents) (row + contents.length) right := by
  refine h.append_left _ _ (topDown_printDown row 0 contents) (by omega) ?_
  intro line hline
  obtain ⟨hcolumn,hge,hlt⟩ := mem_printDown hline
  exact ⟨hcolumn,by omega,hlt⟩

theorem printDown_right (h : Filled lines left right) (hrow : right ≤ row) :
    Filled (lines ++ printDown row 50 contents) left (row + contents.length) := by
  refine h.append_right _ _ (topDown_printDown row 50 contents) (by omega) ?_
  intro line hline
  obtain ⟨hcolumn,hge,hlt⟩ := mem_printDown hline
  exact ⟨hcolumn,by omega,hlt⟩

end Filled

namespace TerminalUi
variable (orderBook : OrderBook) (totalPnl totalPosition : ℚ)
  (strategyStats : Std.TreeMap ℕ StrategyStats) (p99LatencyNs queueDepth eventsPerSec : ℕ)
  (openOrders : List OrderRequest) (trades : List ExecutionReport)

/-- An update fills two columns from the top down, whatever is printed. -/
theorem filled_update : ∃ left right, Filled (update orderBook totalPnl totalPosition strategyStats
    p99LatencyNs queueDepth eventsPerSec openOrders trades) left right := by
  have hempty : Filled [] 0 0 := ⟨List.Pairwise.nil,fun _ h => absurd h List.not_mem_nil⟩
  unfold update
  extract_lets attribution sRow asks bids levels row orders oRow history tRow bRow
  have hheader := hempty.append_left 6
    [⟨0,0,.text "=== HFT QUANT INFRASTRUCTURE - ELITE DASHBOARD ==="⟩,
      ⟨2,0,.totals totalPosition totalPnl⟩,⟨4,0,.text "--- STRATEGY ATTRIBUTION ---"⟩,
      ⟨5,0,.text "ID   Name         PnL      Pos      Trades"⟩]
    (by simp [TopDown]) (by omega) (by simp)
  have hattribution := hheader.printDown_left 6 attribution (Nat.le_refl 6)
  have hlevels := hattribution.printDown_left (sRow + 1) levels (Nat.le_succ sRow)
  have horders := hlevels.printDown_right 4 (.text "--- OPEN ORDERS ---" :: orders) (Nat.zero_le 4)
  have hhistory := horders.printDown_right (oRow + 1) (.text "--- TRADE HISTORY ---" :: history)
    (by simp [oRow]; omega)
  have htelemetry := hhistory.append_left (bRow + 5)
    [⟨bRow,0,.text "--- SYSTEM TELEMETRY ---"⟩,⟨bRow + 1,0,.throughput eventsPerSec queueDepth⟩,
      ⟨bRow + 2,0,.latency p99LatencyNs⟩,⟨bRow + 4,0,.text "Press 'q' to quit."⟩]
    (by simp [TopDown]) (by omega) (by simp; omega)
  exact ⟨_,_,htelemetry⟩

theorem filter_hasValues {α : Type*} {f : α → Content} (hf : ∀ x, (f x).hasValues = true)
    (xs : List α) : (xs.map f).filter Content.hasValues = xs.map f := by
  rw [List.filter_eq_self]
  intro content hcontent
  obtain ⟨x,-,rfl⟩ := List.mem_map.mp hcontent
  exact hf x

/-- The values of an update, from the first printed to the last. -/
theorem valuesOf_update : valuesOf (update orderBook totalPnl totalPosition strategyStats
    p99LatencyNs queueDepth eventsPerSec openOrders trades) =
      [.totals totalPosition totalPnl] ++
      strategyStats.toList.map (fun entry => strategyContent entry.1 entry.2) ++
      [.microstructure orderBook.imbalance orderBook.spread] ++
      (orderBook.getTopAsks 5).reverse.map (fun level => .ask level.price level.quantity) ++
      (orderBook.getTopBids 5).map (fun level => .bid level.price level.quantity) ++
      (openOrders.take 8).map orderContent ++ (trades.reverse.take 8).map tradeContent ++
      [.throughput eventsPerSec queueDepth,.latency p99LatencyNs] := by
  have hstrategies := filter_hasValues (f := fun entry : ℕ × StrategyStats =>
    strategyContent entry.1 entry.2) (fun _ => rfl) strategyStats.toList
  have hasks := filter_hasValues (f := fun level : Level => Content.ask level.price level.quantity)
    (fun _ => rfl) (orderBook.getTopAsks 5).reverse
  have hbids := filter_hasValues (f := fun level : Level => Content.bid level.price level.quantity)
    (fun _ => rfl) (orderBook.getTopBids 5)
  have horders := filter_hasValues (f := orderContent) (fun _ => rfl) (openOrders.take 8)
  have htrades := filter_hasValues (f := tradeContent) (fun _ => rfl) (trades.reverse.take 8)
  unfold update
  simp only [valuesOf_append, valuesOf_cons, valuesOf_nil, valuesOf_printDown, List.filter_append,
    hstrategies, hasks, hbids, horders, htrades, List.append_assoc]
  rfl

end TerminalUi
end HftEngine.Ui
