import HftEngine.Book.Levels
import HftEngine.Foundation.Double
import HftEngine.Main.Lockstep

/-! The order book that the strategies and the UI share. No handler of the event loop applies a
trade to it, so it stays empty, and the market maker returns early on every tick. -/
set_option linter.unusedSectionVars false

namespace HftEngine.Main
open HftEngine.Core Book Strategy Fifo Number
variable {α : Type} [Add α] [Sub α] [Mul α] [Div α] [Neg α] [LT α] [DecidableLT α] [LE α]
  [DecidableLE α] [Min α] [Max α] [∀ n, OfNat α n]

/-- The book is the one that the handled trades build, and once both sides have traded the market
maker finds a best bid and a best ask in it. -/
def SeesFeed [BEq α] (book : OrderBook α) (ticks : List (MarketDataEvent α)) : Prop :=
  book = OrderBook.applyTrades ticks ∧
  ((∃ tick ∈ ticks, tick.isBuyerMaker = true) → (∃ tick ∈ ticks, tick.isBuyerMaker = false) →
    book.getTopBids 1 ≠ [] ∧ book.getTopAsks 1 ≠ [])

namespace EventLoop
variable {σ : Type} (S : StrategyApi σ α)

theorem dispatch_orderBook (clock : Clock) (c : Components σ α) (event : Event α) :
    (c.dispatch S clock event).1.orderBook = c.orderBook := by
  cases event with
  | executionReport report =>
    simp only [Components.dispatch, Components.onExecutionReport]
    split <;> rfl
  | _ => rfl

theorem orderBook_after (strategy : σ) (maxPosition : α) (labels : List (Label α)) :
    (run S (init strategy maxPosition) labels).1.components.orderBook = .init α := by
  apply run_invariant' (I := fun c _ _ => c.orderBook = .init α)
  · intro c p tr event ok _ ih
    exact ih
  · intro c event p tr clock ops ih _ _
    rw [dispatch_orderBook, ih]
  · rfl

/-- In every reachable state the shared book is the one of the feed exactly when no tick has been
handled yet. -/
theorem seesFeed_iff [BEq α] (strategy : σ) (maxPosition : α) (labels : List (Label α)) :
    let final := run S (init strategy maxPosition) labels
    SeesFeed final.1.components.orderBook (ticksOf (popped final.2)) ↔
      ticksOf (popped final.2) = [] := by
  intro final
  have hbook : final.1.components.orderBook = .init α :=
    orderBook_after S strategy maxPosition labels
  rw [SeesFeed, hbook, eq_comm, OrderBook.applyTrades_eq_init_iff]
  constructor
  · exact fun h => h.1
  · intro hnone
    refine ⟨hnone,?_⟩
    rintro ⟨tick,htick,-⟩
    rw [hnone] at htick
    exact absurd htick List.not_mem_nil

/-- One trade of each side, handled. -/
def tradesOfBothSides : List (Label Double) :=
  [.ample (.feed ⟨btcusdt,100,1,0,true⟩),.ample (.feed ⟨btcusdt,101,1,0,false⟩)] ++
    Label.processes 6

theorem book_empty_after_trades :
    let final := run (StrategyEngine.api Double) (init (StrategyEngine.main Double) 100)
      tradesOfBothSides
    ticksOf (popped final.2) = [⟨btcusdt,100,1,0,true⟩,⟨btcusdt,101,1,0,false⟩] ∧
    final.1.components.orderBook.getTopBids 1 = [] ∧
    ¬SeesFeed final.1.components.orderBook (ticksOf (popped final.2)) := by
  intro final
  have hticks : ticksOf (popped final.2) =
      [⟨btcusdt,100,1,0,true⟩,⟨btcusdt,101,1,0,false⟩] := by decide +kernel
  have hbids : final.1.components.orderBook.getTopBids 1 = [] := by decide +kernel
  refine ⟨hticks,hbids,?_⟩
  rintro ⟨-,hboth⟩
  rw [hticks] at hboth
  exact (hboth ⟨_,List.mem_cons_self,rfl⟩ ⟨_,List.mem_cons_of_mem _ List.mem_cons_self,rfl⟩).1 hbids

end EventLoop
end HftEngine.Main
