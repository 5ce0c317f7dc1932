import HftEngine.Exchange.Conservation
import HftEngine.Exchange.Commutation

/-! Orders in the simulated exchange do not see each other: there is no depth that one of them could
use up. What is reported about a selection of the orders, trade ids apart, is what would be reported
if no other order had ever been sent. -/
namespace HftEngine.Exchange
open HftEngine.Core

variable (mine : ℕ → Bool)

/-- The calls that matter to the selected orders: those with their ids, and every price update. -/
def EngineCall.concerns : EngineCall → Bool
  | .processOrder order => mine order.orderId
  | .updateMarketPrice _ => true
  | .cancelOrder orderId => mine orderId

/-- The reports about the selected orders, without trade ids. -/
def reportsAbout (reports : List ExecutionReport) : List ExecutionReport :=
  (reports.map blankTradeId).filter (fun report => mine report.orderId)

theorem reportsAbout_append (xs ys : List ExecutionReport) :
    reportsAbout mine (xs ++ ys) = reportsAbout mine xs ++ reportsAbout mine ys := by
  simp [reportsAbout]

/-- Reports on one order are about the selection or they are not. -/
theorem reportsAbout_eq {reports : List ExecutionReport} {id : ℕ}
    (h : ∀ report ∈ reports, report.orderId = id) :
    reportsAbout mine reports = if mine id then reports.map blankTradeId else [] := by
  have hall : ∀ report ∈ reports.map blankTradeId, mine report.orderId = mine id := by
    intro report hreport
    obtain ⟨original,horiginal,rfl⟩ := List.mem_map.mp hreport
    exact congrArg mine (h original horiginal)
  cases hid : mine id with
  | true =>
    rw [if_pos rfl]
    exact List.filter_eq_self.mpr (fun report hreport => (hall report hreport).trans hid)
  | false =>
    rw [if_neg Bool.false_ne_true]
    exact List.filter_eq_nil_iff.mpr
      (fun report hreport => by rw [hall report hreport, hid]; exact Bool.false_ne_true)

/-- The same prices, and resting only the selected of the orders. -/
structure Restricts (e e' : MatchingEngine) : Prop where
  bid : e'.currentBestBid = e.currentBestBid
  ask : e'.currentBestAsk = e.currentBestAsk
  resting : e'.restingOrders = e.restingOrders.filter (fun order => mine order.orderId)

namespace MatchingEngine

/-- How an order fares on arrival depends on the best prices only. -/
theorem processOrder_of_prices {e e' : MatchingEngine} (order : OrderRequest)
    (hbid : e'.currentBestBid = e.currentBestBid) (hask : e'.currentBestAsk = e.currentBestAsk) :
    (e'.processOrder order).2.map blankTradeId = (e.processOrder order).2.map blankTradeId ∧
      ∃ rested, (rested = [] ∨ rested = [order]) ∧
        (e.processOrder order).1.restingOrders = e.restingOrders ++ rested ∧
        (e'.processOrder order).1.restingOrders = e'.restingOrders ++ rested := by
  have hmatch : e'.limitMatch order = e.limitMatch order := limitMatch_of_prices hbid hask
  cases htype : order.type with
  | market =>
    simp only [processOrder, htype, if_true, matchMarketOrder, hbid, hask]
    split_ifs <;> exact ⟨rfl,[],.inl rfl,by simp,by simp⟩
  | limit =>
    simp only [processOrder, htype, reduceCtorEq, if_false, matchLimitOrder, hmatch]
    cases e.limitMatch order with
    | some price => exact ⟨rfl,[],.inl rfl,by simp,by simp⟩
    | none => exact ⟨rfl,[order],.inr rfl,rfl,rfl⟩

theorem processOrder_orderId (e : MatchingEngine) {order : OrderRequest}
    {report : ExecutionReport} (h : report ∈ (e.processOrder order).2) :
    report.orderId = order.orderId := by
  rcases e.processOrder_mem h with ⟨price,hblank⟩ | hblank | hblank <;>
    exact congrArg ExecutionReport.orderId hblank

end MatchingEngine

section
variable {mine} {e e' : MatchingEngine}

/-- The sweep fills the selected orders as if they rested alone. -/
theorem Restricts.updateMarketPrice (h : Restricts mine e e') (md : MarketDataEvent) :
    Restricts mine (e.updateMarketPrice md).1 (e'.updateMarketPrice md).1 ∧
      reportsAbout mine (e.updateMarketPrice md).2 =
        (e'.updateMarketPrice md).2.map blankTradeId := by
  -- the sweep looks at the new prices only
  have hcrosses : (e'.priced md).crosses = (e.priced md).crosses := rfl
  have hfills : (e'.priced md).fillOf = (e.priced md).fillOf := rfl
  constructor
  · refine ⟨?_,?_,?_⟩
    · simp
    · simp
    · rw [e'.updateMarketPrice_restingOrders, e.updateMarketPrice_restingOrders, h.resting,
        hcrosses, List.filter_comm]
  · have habout : (fun report => mine report.orderId) ∘ (e.priced md).fillOf =
        fun order => mine order.orderId := rfl
    rw [reportsAbout, e.updateMarketPrice_reports, e'.updateMarketPrice_reports, h.resting,
      hcrosses, hfills, List.filter_map, habout, List.filter_comm]

/-- A selected order arrives as if no other order were there. -/
theorem Restricts.processOrder (h : Restricts mine e e') {order : OrderRequest}
    (hmine : mine order.orderId = true) :
    Restricts mine (e.processOrder order).1 (e'.processOrder order).1 ∧
      reportsAbout mine (e.processOrder order).2 = (e'.processOrder order).2.map blankTradeId := by
  obtain ⟨hreports,rested,hrested,hresting,hresting'⟩ :=
    MatchingEngine.processOrder_of_prices order h.bid h.ask
  obtain ⟨hbid,hask⟩ := processOrder_prices e order
  obtain ⟨hbid',hask'⟩ := processOrder_prices e' order
  refine ⟨⟨?_,?_,?_⟩,?_⟩
  · rw [hbid', hbid, h.bid]
  · rw [hask', hask, h.ask]
  · rw [hresting', hresting, h.resting, List.filter_append]
    rcases hrested with rfl | rfl
    · rfl
    · have hone : [order].filter (fun order => mine order.orderId) = [order] := by simp [hmine]
      rw [hone]
  · rw [reportsAbout_eq mine (fun report hreport => e.processOrder_orderId hreport), if_pos hmine,
      hreports]

/-- Another order leaves no trace among the selected ones. -/
theorem Restricts.processOrder_other (h : Restricts mine e e') {order : OrderRequest}
    (hmine : mine order.orderId = false) :
    Restricts mine (e.processOrder order).1 e' ∧
      reportsAbout mine (e.processOrder order).2 = [] := by
  have hbid_self : e.currentBestBid = e.currentBestBid := rfl
  obtain ⟨-,rested,hrested,hresting,-⟩ :=
    MatchingEngine.processOrder_of_prices order hbid_self rfl
  obtain ⟨hbid,hask⟩ := processOrder_prices e order
  refine ⟨⟨h.bid.trans hbid.symm,h.ask.trans hask.symm,?_⟩,?_⟩
  · rw [hresting, h.resting, List.filter_append]
    rcases hrested with rfl | rfl
    · rw [List.filter_nil, List.append_nil]
    · rw [List.filter_cons_of_neg (by simp [hmine]), List.filter_nil, List.append_nil]
  · rw [reportsAbout_eq mine (fun report hreport => e.processOrder_orderId hreport), hmine]
    rfl

/-- One call of the whole exchange is the same call of the restricted one, or none. -/
theorem Restricts.call (h : Restricts mine e e') (c : EngineCall) :
    Restricts mine (e.call c).1
        (MatchingEngine.machine.run e' (if c.concerns mine then [c] else [])).1 ∧
      reportsAbout mine (e.call c).2 =
        (MatchingEngine.machine.run e' (if c.concerns mine then [c] else [])).2.map
          blankTradeId := by
  have hone : MatchingEngine.machine.run e' [c] = e'.call c := by
    simp [MatchingEngine.machine]
  cases c with
  | updateMarketPrice md =>
    rw [EngineCall.concerns, if_pos rfl, hone]
    exact h.updateMarketPrice md
  | processOrder order =>
    cases hmine : mine order.orderId with
    | true =>
      rw [EngineCall.concerns, hmine, if_pos rfl, hone]
      exact h.processOrder hmine
    | false =>
      rw [EngineCall.concerns, hmine, if_neg Bool.false_ne_true]
      exact h.processOrder_other hmine
  | cancelOrder orderId =>
    have hid : ∀ report ∈ (e.cancelOrder orderId).2, report.orderId = orderId := by
      intro report hreport
      rw [List.mem_singleton.mp hreport]
      rfl
    have habout := reportsAbout_eq mine hid
    cases hmine : mine orderId with
    | true =>
      rw [EngineCall.concerns, hmine, if_pos rfl, hone]
      rw [hmine, if_pos rfl] at habout
      exact ⟨⟨h.bid,h.ask,h.resting⟩,habout⟩
    | false =>
      rw [EngineCall.concerns, hmine, if_neg Bool.false_ne_true]
      rw [hmine, if_neg Bool.false_ne_true] at habout
      exact ⟨⟨h.bid,h.ask,h.resting⟩,habout⟩

end

/-- No order sees the others: for any selection of order ids, the reports about the selected orders
and those of them still resting are, trade ids apart, what they are in the session in which only the
selected orders are sent and cancelled. -/
theorem orders_independent (calls : List EngineCall) :
    let whole := MatchingEngine.machine.run .init calls
    let alone := MatchingEngine.machine.run .init (calls.filter (EngineCall.concerns mine))
    reportsAbout mine whole.2 = alone.2.map blankTradeId ∧
      whole.1.restingOrders.filter (fun order => mine order.orderId) = alone.1.restingOrders := by
  have hcollect : MatchingEngine.machine.collect
      (fun _ c => if c.concerns mine then [c] else []) .init calls =
        calls.filter (EngineCall.concerns mine) := by
    generalize MatchingEngine.init = e
    induction calls generalizing e with
    | nil => rfl
    | cons c calls ih =>
      rw [Machine.collect_cons, ih, List.filter_cons]
      cases c.concerns mine <;> rfl
  have hrefines := MatchingEngine.machine.run_refines (R := Restricts mine)
    (f := fun _ c => if c.concerns mine then [c] else []) (v := reportsAbout mine)
    (w := List.map blankTradeId) rfl (reportsAbout_append mine) (fun _ _ => List.map_append)
    (fun _ _ c h => h.call c) (s := .init) (t := .init) ⟨rfl,rfl,rfl⟩ calls
  rw [hcollect] at hrefines
  exact ⟨hrefines.2,hrefines.1.resting.symm⟩

end HftEngine.Exchange
