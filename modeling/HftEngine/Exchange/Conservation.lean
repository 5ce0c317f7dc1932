import HftEngine.Exchange.Matching
import HftEngine.Foundation.Machine
import HftEngine.Foundation.Matched

/-! Runs of the exchange alone. Every order that it processes is filled, rejected or left
resting, and none is left resting that the current prices could match. -/
set_option linter.unusedSectionVars false

namespace HftEngine.Exchange
open HftEngine.Core
variable {α : Type}

/-- A call of the public interface. -/
inductive EngineCall (α : Type := ℚ)
  | processOrder (order : OrderRequest α)
  | updateMarketPrice (md : MarketDataEvent α)
  | cancelOrder (orderId : ℕ)

/-- The order that a call hands to the engine. -/
def EngineCall.order? : EngineCall α → Option (OrderRequest α)
  | .processOrder order => some order
  | _ => none

def processedOrders (calls : List (EngineCall α)) : List (OrderRequest α) :=
  calls.filterMap EngineCall.order?

theorem processedOrders_cons (c : EngineCall α) (calls : List (EngineCall α)) :
    processedOrders (c :: calls) = processedOrders [c] ++ processedOrders calls := by
  rw [← List.singleton_append, processedOrders, List.filterMap_append]
  rfl

/-- The reports with a status. -/
def reportsWith (status : OrderStatus) (reports : List (ExecutionReport α)) :
    List (ExecutionReport α) :=
  reports.filter (fun report => decide (report.status = status))

/-- The reports of one order with a status. -/
def reportsOf (status : OrderStatus) (order : OrderRequest α) (reports : List (ExecutionReport α)) :
    List (ExecutionReport α) :=
  (reportsWith status reports).filter (fun report => decide (report.orderId = order.orderId))

/-- The orders for whose id some report has the status. -/
def reportedOrders (status : OrderStatus) (orders : List (OrderRequest α))
    (reports : List (ExecutionReport α)) : List (OrderRequest α) :=
  orders.filter (fun order =>
    (reportsWith status reports).any (fun report => decide (report.orderId = order.orderId)))

variable [Add α] [Sub α] [Div α] [LT α] [DecidableLT α] [LE α] [DecidableLE α] [∀ n, OfNat α n]

/-- The report that a limit order rests. -/
def Rests (order : OrderRequest α) (report : ExecutionReport α) : Prop :=
  blankTradeId report = MatchingEngine.reportOf order order.price 0 .new

/-- The report that a market order found no price. -/
def Rejects (order : OrderRequest α) (report : ExecutionReport α) : Prop :=
  blankTradeId report = MatchingEngine.reportOf order 0 0 .rejected

namespace MatchingEngine
variable (e : MatchingEngine α)

def call : EngineCall α → MatchingEngine α × List (ExecutionReport α)
  | .processOrder order => e.processOrder order
  | .updateMarketPrice md => e.updateMarketPrice md
  | .cancelOrder orderId => e.cancelOrder orderId

def machine : Machine (MatchingEngine α) (EngineCall α) (ExecutionReport α) where
  step e c := e.call c

/-- Only limit orders come to rest. -/
theorem limit_of_rested {order : OrderRequest α}
    (h : (e.processOrder order).1.restingOrders = e.restingOrders ++ [order]) :
    order.type = .limit := by
  cases htype : order.type with
  | limit => rfl
  | market =>
    have hsame : (e.processOrder order).1.restingOrders = e.restingOrders := by
      simp only [processOrder, htype, if_true, matchMarketOrder]
      split_ifs <;> rfl
    rw [hsame] at h
    simp at h

/-- Only market orders are rejected, for want of a positive price on the other side. -/
theorem market_of_rejected {order : OrderRequest α} {report : ExecutionReport α}
    (hmem : report ∈ (e.processOrder order).2) (hstatus : report.status = .rejected) :
    order.type = .market ∧ e.oppositePrice order.side ≤ 0 := by
  cases htype : order.type with
  | limit =>
    exfalso
    simp only [processOrder, htype, reduceCtorEq, if_false, matchLimitOrder] at hmem
    cases hmatch : e.limitMatch order <;> simp only [hmatch, List.mem_singleton] at hmem <;>
      simp [hmem, emitExecution] at hstatus
  | market =>
    refine ⟨rfl,?_⟩
    by_contra hprice
    have hopposite : e.oppositePrice order.side =
        if order.side = .buy then e.currentBestAsk else e.currentBestBid := by
      cases order.side <;> rfl
    rw [hopposite] at hprice
    simp only [processOrder, htype, if_true, matchMarketOrder, if_neg hprice,
      List.mem_singleton] at hmem
    simp [hmem, emitExecution] at hstatus

end MatchingEngine

theorem reportsWith_append (status : OrderStatus) (reports reports' : List (ExecutionReport α)) :
    reportsWith status (reports ++ reports') =
      reportsWith status reports ++ reportsWith status reports' :=
  List.filter_append ..

section Batch
variable {β : Type*} {group : List β} {reports : List (ExecutionReport α)}
  {f : β → ExecutionReport α} {status : OrderStatus}

/-- Reports that all have one status. -/
theorem status_of_map_eq (h : reports.map blankTradeId = group.map f)
    (hstatus : ∀ a, (f a).status = status) : ∀ report ∈ reports, report.status = status := by
  intro report hreport
  have hmem : blankTradeId report ∈ group.map f := h ▸ List.mem_map_of_mem hreport
  obtain ⟨a,-,ha⟩ := List.mem_map.mp hmem
  rw [← hstatus a, ha]
  rfl

theorem reportsWith_batch (h : reports.map blankTradeId = group.map f)
    (hstatus : ∀ a, (f a).status = status) (other : OrderStatus) :
    reportsWith other reports = if status = other then reports else [] := by
  have hall := status_of_map_eq h hstatus
  split_ifs with heq
  · rw [reportsWith, List.filter_eq_self]
    intro report hreport
    simpa [hall report hreport] using heq
  · rw [reportsWith, List.filter_eq_nil_iff]
    intro report hreport
    simpa [hall report hreport] using heq

end Batch

/-- What one call does: the orders that it fills and rejects, and those that it accepts into the
resting list. -/
structure Outcome (e : MatchingEngine α) (c : EngineCall α)
    (filled rejected accepted : List (OrderRequest α)) : Prop where
  balance : (processedOrders [c] ++ e.restingOrders).Perm
    (filled ++ rejected ++ (e.call c).1.restingOrders)
  fills : List.Forall₂ Fills filled (reportsWith .filled (e.call c).2)
  rejections : List.Forall₂ Rejects rejected (reportsWith .rejected (e.call c).2)
  acceptances : List.Forall₂ Rests accepted (reportsWith .new (e.call c).2)
  resting : (e.call c).1.restingOrders.Sublist (e.restingOrders ++ accepted)
  arrived : accepted.Sublist (processedOrders [c])
  limit : ∀ order ∈ accepted, order.type = .limit
  market : ∀ order ∈ rejected, order.type = .market

namespace Outcome
variable (e : MatchingEngine α)

theorem updateMarketPrice (md : MarketDataEvent α) :
    Outcome e (.updateMarketPrice md) (e.restingOrders.filter (e.priced md).crosses) [] [] := by
  have hreports := e.updateMarketPrice_reports md
  have hwith := reportsWith_batch hreports (fun _ => rfl)
  have hcall : e.call (.updateMarketPrice md) = e.updateMarketPrice md := rfl
  refine ⟨?_,?_,?_,?_,?_,List.nil_sublist _,by simp,by simp⟩
  · rw [hcall, MatchingEngine.updateMarketPrice_restingOrders, List.append_nil]
    exact (List.filter_append_perm _ _).symm
  · rw [hcall, hwith]
    exact (Matched.forall₂_of_map_eq hreports).imp (fun _ _ h => fills_of_blank h)
  · rw [hcall, hwith]
    exact .nil
  · rw [hcall, hwith]
    exact .nil
  · rw [hcall, MatchingEngine.updateMarketPrice_restingOrders, List.append_nil]
    exact List.filter_sublist

theorem cancelOrder (orderId : ℕ) : Outcome e (.cancelOrder orderId) [] [] [] := by
  refine ⟨List.Perm.refl _,.nil,.nil,.nil,?_,List.nil_sublist _,by simp,by simp⟩
  rw [List.append_nil]
  exact List.Sublist.refl _

theorem filledOnArrival {order : OrderRequest α} {price : α}
    (hresting : (e.processOrder order).1.restingOrders = e.restingOrders)
    (hreports : (e.processOrder order).2.map blankTradeId =
      [MatchingEngine.reportOf order price order.quantity .filled]) :
    Outcome e (.processOrder order) [order] [] [] := by
  have hbatch : (e.processOrder order).2.map blankTradeId =
      [order].map (fun order => MatchingEngine.reportOf order price order.quantity .filled) :=
    hreports
  have hwith := reportsWith_batch hbatch (fun _ => rfl)
  have hcall : e.call (.processOrder order) = e.processOrder order := rfl
  refine ⟨?_,?_,?_,?_,?_,List.nil_sublist _,by simp,by simp⟩
  · rw [hcall, hresting]
    exact List.Perm.refl _
  · rw [hcall, hwith]
    exact (Matched.forall₂_of_map_eq hbatch).imp (fun _ _ h => fills_of_blank h)
  · rw [hcall, hwith]
    exact .nil
  · rw [hcall, hwith]
    exact .nil
  · rw [hcall, hresting, List.append_nil]

theorem rested {order : OrderRequest α}
    (hresting : (e.processOrder order).1.restingOrders = e.restingOrders ++ [order])
    (hreports : (e.processOrder order).2.map blankTradeId =
      [MatchingEngine.reportOf order order.price 0 .new]) :
    Outcome e (.processOrder order) [] [] [order] := by
  have hbatch : (e.processOrder order).2.map blankTradeId =
      [order].map (fun order => MatchingEngine.reportOf order order.price 0 .new) := hreports
  have hwith := reportsWith_batch hbatch (fun _ => rfl)
  have hcall : e.call (.processOrder order) = e.processOrder order := rfl
  refine ⟨?_,?_,?_,?_,?_,List.Sublist.refl _,?_,by simp⟩
  · rw [hcall, hresting]
    exact List.perm_append_comm
  · rw [hcall, hwith]
    exact .nil
  · rw [hcall, hwith]
    exact .nil
  · rw [hcall, hwith]
    exact Matched.forall₂_of_map_eq hbatch
  · rw [hcall, hresting]
  · intro order' horder'
    rw [List.mem_singleton.mp horder']
    exact e.limit_of_rested hresting

theorem rejectedOnArrival {order : OrderRequest α}
    (hresting : (e.processOrder order).1.restingOrders = e.restingOrders)
    (hreports : (e.processOrder order).2.map blankTradeId =
      [MatchingEngine.reportOf order 0 0 .rejected]) :
    Outcome e (.processOrder order) [] [order] [] := by
  have hbatch : (e.processOrder order).2.map blankTradeId =
      [order].map (fun order => MatchingEngine.reportOf order 0 0 .rejected) := hreports
  have hwith := reportsWith_batch hbatch (fun _ => rfl)
  have hcall : e.call (.processOrder order) = e.processOrder order := rfl
  refine ⟨?_,?_,?_,?_,?_,List.nil_sublist _,by simp,?_⟩
  · rw [hcall, hresting]
    exact List.Perm.refl _
  · rw [hcall, hwith]
    exact .nil
  · rw [hcall, hwith]
    exact Matched.forall₂_of_map_eq hbatch
  · rw [hcall, hwith]
    exact .nil
  · rw [hcall, hresting, List.append_nil]
  · intro order' horder'
    rw [List.mem_singleton.mp horder']
    obtain ⟨report,hsingle,hreport⟩ := List.map_eq_singleton_iff.mp hreports
    have hrejected : report.status = .rejected := congrArg ExecutionReport.status hreport
    exact (e.market_of_rejected (hsingle ▸ List.mem_singleton_self report) hrejected).1

theorem processOrder (order : OrderRequest α) :
    ∃ filled rejected accepted, Outcome e (.processOrder order) filled rejected accepted := by
  cases e.processOrder_arrival order with
  | filled price hprice hresting hreports => exact ⟨_,_,_,filledOnArrival e hresting hreports⟩
  | rested hresting hreports => exact ⟨_,_,_,rested e hresting hreports⟩
  | rejected hresting hreports => exact ⟨_,_,_,rejectedOnArrival e hresting hreports⟩

theorem exists_of_call (c : EngineCall α) :
    ∃ filled rejected accepted, Outcome e c filled rejected accepted := by
  cases c with
  | processOrder order => exact processOrder e order
  | updateMarketPrice md => exact ⟨_,_,_,updateMarketPrice e md⟩
  | cancelOrder orderId => exact ⟨_,_,_,cancelOrder e orderId⟩

end Outcome

/-- The books of a run: the orders that were filled, those that were rejected and those that were
accepted into the resting list, each matched with its report. -/
structure Ledger (orders : List (OrderRequest α)) (e : MatchingEngine α)
    (reports : List (ExecutionReport α))
    (filled rejected accepted : List (OrderRequest α)) : Prop where
  balance : orders.Perm (filled ++ rejected ++ e.restingOrders)
  fills : List.Forall₂ Fills filled (reportsWith .filled reports)
  rejections : List.Forall₂ Rejects rejected (reportsWith .rejected reports)
  acceptances : List.Forall₂ Rests accepted (reportsWith .new reports)
  resting : e.restingOrders.Sublist accepted
  arrived : accepted.Sublist orders
  limit : ∀ order ∈ accepted, order.type = .limit
  market : ∀ order ∈ rejected, order.type = .market

namespace Ledger
variable {orders filled rejected accepted : List (OrderRequest α)} {e : MatchingEngine α}
  {reports : List (ExecutionReport α)}

theorem init : Ledger [] (.init α) [] [] [] [] :=
  ⟨List.Perm.refl _,.nil,.nil,.nil,List.Sublist.refl _,List.Sublist.refl _,by simp,by simp⟩

theorem call (h : Ledger orders e reports filled rejected accepted) {c : EngineCall α}
    {filled' rejected' accepted' : List (OrderRequest α)}
    (hcall : Outcome e c filled' rejected' accepted') :
    Ledger (orders ++ processedOrders [c]) (e.call c).1 (reports ++ (e.call c).2)
      (filled ++ filled') (rejected ++ rejected') (accepted ++ accepted') where
  balance := by
    classical
    have hbefore := h.balance
    have hstep := hcall.balance
    rw [List.perm_iff_count] at hbefore hstep ⊢
    intro order
    have hb := hbefore order
    have hs := hstep order
    simp only [List.count_append] at hb hs ⊢
    omega
  fills := by
    rw [reportsWith_append]
    exact List.rel_append h.fills hcall.fills
  rejections := by
    rw [reportsWith_append]
    exact List.rel_append h.rejections hcall.rejections
  acceptances := by
    rw [reportsWith_append]
    exact List.rel_append h.acceptances hcall.acceptances
  resting := hcall.resting.trans (h.resting.append_right accepted')
  arrived := h.arrived.append hcall.arrived
  limit := by
    intro order horder
    cases List.mem_append.mp horder with
    | inl hold => exact h.limit order hold
    | inr hnew => exact hcall.limit order hnew
  market := by
    intro order horder
    cases List.mem_append.mp horder with
    | inl hold => exact h.market order hold
    | inr hnew => exact hcall.market order hnew

theorem run (h : Ledger orders e reports filled rejected accepted) (calls : List (EngineCall α)) :
    ∃ filled' rejected' accepted',
      Ledger (orders ++ processedOrders calls) (MatchingEngine.machine.run e calls).1
        (reports ++ (MatchingEngine.machine.run e calls).2) filled' rejected' accepted' := by
  induction calls generalizing orders e reports filled rejected accepted with
  | nil =>
    refine ⟨filled,rejected,accepted,?_⟩
    simpa [processedOrders] using h
  | cons c calls ih =>
    obtain ⟨filled',rejected',accepted',hcall⟩ := Outcome.exists_of_call e c
    have hrest := ih (h.call hcall)
    rw [processedOrders_cons]
    simpa only [Machine.run_cons, List.append_assoc, MatchingEngine.machine] using hrest

end Ledger

/-- Every processed order has exactly one of three outcomes, and the reports tell which. -/
structure Conserved (orders : List (OrderRequest α)) (e : MatchingEngine α)
    (reports : List (ExecutionReport α)) : Prop where
  balance : orders.Perm
    (reportedOrders .filled orders reports ++ reportedOrders .rejected orders reports ++
      e.restingOrders)
  filled : ∀ order ∈ reportedOrders .filled orders reports, ∃ report,
    reportsOf .filled order reports = [report] ∧ Fills order report
  rejected : ∀ order ∈ reportedOrders .rejected orders reports, order.type = .market ∧
    ∃ report, reportsOf .rejected order reports = [report] ∧ Rejects order report
  resting : ∀ order ∈ e.restingOrders, order.type = .limit ∧
    ∃ report, reportsOf .new order reports = [report] ∧ Rests order report
  arrivalOrder : e.restingOrders.Sublist orders

theorem Rejects.orderId {order : OrderRequest α} {report : ExecutionReport α}
    (h : Rejects order report) :
    report.orderId = order.orderId := congrArg ExecutionReport.orderId h

theorem Rests.orderId {order : OrderRequest α} {report : ExecutionReport α}
    (h : Rests order report) :
    report.orderId = order.orderId := congrArg ExecutionReport.orderId h

/-- With distinct ids the books can be read off the reports. -/
theorem Ledger.conserved {orders filled rejected accepted : List (OrderRequest α)}
    {e : MatchingEngine α} {reports : List (ExecutionReport α)}
    (h : Ledger orders e reports filled rejected accepted)
    (hids : (orders.map (·.orderId)).Nodup) : Conserved orders e reports := by
  have hnodup : (filled ++ rejected ++ e.restingOrders).Nodup :=
    h.balance.nodup_iff.mp (List.Nodup.of_map _ hids)
  have hids' : ((filled ++ rejected ++ e.restingOrders).map (·.orderId)).Nodup :=
    (h.balance.map _).nodup_iff.mp hids
  rw [List.map_append, List.map_append] at hids'
  have hsub : filled ++ rejected ++ e.restingOrders ⊆ orders := h.balance.symm.subset
  have hfilled : filled.Perm (reportedOrders .filled orders reports) :=
    Matched.perm_filter_any OrderRequest.orderId ExecutionReport.orderId
      (fun _ _ => Fills.orderId) h.fills hids (fun order horder => hsub (by simp [horder]))
      hnodup.of_append_left.of_append_left
  have hrejected : rejected.Perm (reportedOrders .rejected orders reports) :=
    Matched.perm_filter_any OrderRequest.orderId ExecutionReport.orderId
      (fun _ _ => Rejects.orderId) h.rejections hids (fun order horder => hsub (by simp [horder]))
      hnodup.of_append_left.of_append_right
  refine ⟨?_,?_,?_,?_,h.resting.trans h.arrived⟩
  · exact h.balance.trans ((hfilled.append hrejected).append_right _)
  · intro order horder
    exact Matched.filter_key_eq_singleton OrderRequest.orderId ExecutionReport.orderId
      (fun _ _ => Fills.orderId) h.fills hids'.of_append_left.of_append_left
      (hfilled.mem_iff.mpr horder)
  · intro order horder
    have hmem := hrejected.mem_iff.mpr horder
    exact ⟨h.market order hmem,Matched.filter_key_eq_singleton OrderRequest.orderId
      ExecutionReport.orderId (fun _ _ => Rejects.orderId) h.rejections
      hids'.of_append_left.of_append_right hmem⟩
  · intro order horder
    have hmem := h.resting.subset horder
    exact ⟨h.limit order hmem,Matched.filter_key_eq_singleton OrderRequest.orderId
      ExecutionReport.orderId (fun _ _ => Rests.orderId) h.acceptances
      ((h.arrived.map _).nodup hids) hmem⟩

/-- A call reports a rejection only of a market order that finds no positive price. -/
def RejectsOnlyUnpriced (e : MatchingEngine α) (c : EngineCall α) : Prop :=
  ∀ report ∈ (e.call c).2, report.status = .rejected → ∃ order, c = .processOrder order ∧
    Rejects order report ∧ order.type = .market ∧ e.oppositePrice order.side ≤ 0

theorem rejectsOnlyUnpriced (e : MatchingEngine α) (c : EngineCall α) :
    RejectsOnlyUnpriced e c := by
  intro report hreport hstatus
  cases c with
  | processOrder order =>
    refine ⟨order,rfl,?_,e.market_of_rejected hreport hstatus⟩
    have hblank : ∀ r, (e.processOrder order).2.map blankTradeId = [r] →
        blankTradeId report = r := by
      intro r hr
      exact List.mem_singleton.mp (hr ▸ List.mem_map_of_mem hreport)
    cases e.processOrder_arrival order with
    | filled price hprice hresting hreports =>
      have hfilled := congrArg ExecutionReport.status (hblank _ hreports)
      exact absurd (hstatus.symm.trans hfilled) OrderStatus.noConfusion
    | rested hresting hreports =>
      have hnew := congrArg ExecutionReport.status (hblank _ hreports)
      exact absurd (hstatus.symm.trans hnew) OrderStatus.noConfusion
    | rejected hresting hreports => exact hblank _ hreports
  | updateMarketPrice md =>
    have hfilled := status_of_map_eq (e.updateMarketPrice_reports md) (fun _ => rfl) report hreport
    rw [hstatus] at hfilled
    contradiction
  | cancelOrder orderId =>
    rw [List.mem_singleton.mp hreport] at hstatus
    contradiction

/-- Orders with distinct ids are neither lost nor duplicated by the exchange. -/
theorem conservation {calls : List (EngineCall α)}
    (hids : ((processedOrders calls).map (·.orderId)).Nodup) :
    Conserved (processedOrders calls) (MatchingEngine.machine.run (.init α) calls).1
        (MatchingEngine.machine.run (.init α) calls).2 ∧
      MatchingEngine.machine.Along RejectsOnlyUnpriced (.init α) calls := by
  constructor
  · obtain ⟨filled,rejected,accepted,h⟩ := Ledger.init.run calls
    exact h.conserved hids
  · exact MatchingEngine.machine.along_of_forall rejectsOnlyUnpriced _ _

/-- An order that rests and is filled by a price update, a market order before there are prices,
and an order that stays. -/
def session : List EngineCall :=
  [.processOrder ⟨1,0,['B'],.buy,.limit,100,1,0,0⟩,.processOrder ⟨2,0,['B'],.sell,.market,0,1,0,0⟩,
    .updateMarketPrice ⟨['B'],99,1,0,false⟩,.processOrder ⟨3,0,['B'],.buy,.limit,90,1,0,0⟩]

theorem conservation_session : Conserved (processedOrders session)
    (MatchingEngine.machine.run .init session).1 (MatchingEngine.machine.run .init session).2 :=
  (conservation (by decide)).1

section Marketability
variable (e : MatchingEngine α)

theorem limitMatch_of_not_crosses {order : OrderRequest α} (h : e.crosses order = false) :
    e.limitMatch order = none := by
  unfold MatchingEngine.crosses at h
  unfold MatchingEngine.limitMatch
  cases hside : order.side with
  | buy =>
    rw [hside] at h
    exact if_neg fun hmatch => of_decide_eq_false h hmatch.2
  | sell =>
    rw [hside] at h
    exact if_neg fun hmatch => of_decide_eq_false h hmatch.2

/-- Whether an order is matched on arrival depends on the best prices only. -/
theorem limitMatch_of_prices {e e' : MatchingEngine α} {order : OrderRequest α}
    (hbid : e'.currentBestBid = e.currentBestBid) (hask : e'.currentBestAsk = e.currentBestAsk) :
    e'.limitMatch order = e.limitMatch order := by
  unfold MatchingEngine.limitMatch
  rw [hbid, hask]

theorem processOrder_prices (order : OrderRequest α) :
    (e.processOrder order).1.currentBestBid = e.currentBestBid ∧
      (e.processOrder order).1.currentBestAsk = e.currentBestAsk := by
  cases htype : order.type with
  | market =>
    simp only [MatchingEngine.processOrder, htype, if_true, MatchingEngine.matchMarketOrder]
    split_ifs <;> exact ⟨rfl,rfl⟩
  | limit =>
    simp only [MatchingEngine.processOrder, htype, reduceCtorEq, if_false,
      MatchingEngine.matchLimitOrder]
    cases e.limitMatch order <;> exact ⟨rfl,rfl⟩

theorem limitMatch_of_rested {order : OrderRequest α}
    (h : (e.processOrder order).1.restingOrders = e.restingOrders ++ [order]) :
    e.limitMatch order = none := by
  have htype := e.limit_of_rested h
  cases hmatch : e.limitMatch order with
  | none => rfl
  | some price =>
    simp [MatchingEngine.processOrder, htype, MatchingEngine.matchLimitOrder, hmatch] at h

/-- One call leaves only orders resting that would not be matched if they arrived now. -/
theorem call_unmatched {e : MatchingEngine α}
    (h : ∀ order ∈ e.restingOrders, e.limitMatch order = none) (c : EngineCall α) :
    ∀ order ∈ (e.call c).1.restingOrders, (e.call c).1.limitMatch order = none := by
  intro order horder
  cases c with
  | updateMarketPrice md =>
    change order ∈ (e.updateMarketPrice md).1.restingOrders at horder
    rw [MatchingEngine.updateMarketPrice_restingOrders, List.mem_filter] at horder
    have hcrosses : (e.priced md).crosses order = false := by simpa using horder.2
    exact (limitMatch_of_prices (e.updateMarketPrice_bestBid md)
      (e.updateMarketPrice_bestAsk md)).trans (limitMatch_of_not_crosses _ hcrosses)
  | cancelOrder orderId => exact (limitMatch_of_prices rfl rfl).trans (h order horder)
  | processOrder new =>
    obtain ⟨hbid,hask⟩ := processOrder_prices e new
    change order ∈ (e.processOrder new).1.restingOrders at horder
    apply (limitMatch_of_prices hbid hask).trans
    cases e.processOrder_arrival new with
    | filled price hprice hresting hreports => exact h order (hresting ▸ horder)
    | rejected hresting hreports => exact h order (hresting ▸ horder)
    | rested hresting hreports =>
      rw [hresting] at horder
      cases List.mem_append.mp horder with
      | inl hold => exact h order hold
      | inr hnew =>
        rw [List.mem_singleton.mp hnew]
        exact limitMatch_of_rested e hresting

theorem run_unmatched {e : MatchingEngine α}
    (h : ∀ order ∈ e.restingOrders, e.limitMatch order = none) (calls : List (EngineCall α)) :
    ∀ order ∈ (MatchingEngine.machine.run e calls).1.restingOrders,
      (MatchingEngine.machine.run e calls).1.limitMatch order = none := by
  induction calls generalizing e with
  | nil => exact h
  | cons c calls ih => exact ih (call_unmatched h c)

end Marketability

end HftEngine.Exchange
