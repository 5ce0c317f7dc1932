import HftEngine.Exchange.ExecutionPrice
import Mathlib.Data.List.Nodup

/-! What the reports of the exchange say about the orders that they name. Reports of fills,
rejections and resting orders are built from the order itself; a cancel report is built from a
dummy request that only has the id. -/
set_option linter.unusedSectionVars false

namespace HftEngine.Exchange
open HftEngine.Core Number

section Generic
variable {α : Type} [Add α] [Sub α] [Div α] [LT α] [DecidableLT α] [LE α] [DecidableLE α]
  [∀ n, OfNat α n]

/-- The report is attributed as the order is, and accounts for its whole quantity. -/
structure Describes (order : OrderRequest α) (report : ExecutionReport α) : Prop where
  strategyId : report.strategyId = order.strategyId
  symbol : report.symbol = order.symbol
  side : report.side = order.side
  balance : report.cumulativeQty + report.leavesQty = order.quantity

/-- Just enough information to report a cancel: the id and zeroes. -/
def CancelNotice (report : ExecutionReport α) : Prop :=
  blankTradeId report = MatchingEngine.reportOf
    (MatchingEngine.dummyRequest report.orderId) 0 0 .cancelled

/-- The order that a report was built from. -/
structure BuiltFrom (order : OrderRequest α) (report : ExecutionReport α) : Prop where
  orderId : report.orderId = order.orderId
  status : report.status ≠ .cancelled
  describes : Describes order report

variable [Arithmetic α]

theorem builtFrom_of_blank {order : OrderRequest α} {report : ExecutionReport α}
    {price quantity : α} {status : OrderStatus}
    (h : blankTradeId report = MatchingEngine.reportOf order price quantity status)
    (hstatus : status ≠ .cancelled)
    (hquantity : quantity = if status = .filled then order.quantity else 0) :
    BuiltFrom order report := by
  have hcumulative : report.cumulativeQty = quantity := congrArg ExecutionReport.cumulativeQty h
  have hleaves : report.leavesQty = if status = .filled then 0 else order.quantity :=
    congrArg ExecutionReport.leavesQty h
  refine ⟨congrArg ExecutionReport.orderId h,?_,congrArg ExecutionReport.strategyId h,
    congrArg ExecutionReport.symbol h,congrArg ExecutionReport.side h,?_⟩
  · have hsame : report.status = status := congrArg ExecutionReport.status h
    rw [hsame]
    exact hstatus
  · rw [hcumulative, hleaves, hquantity]
    split_ifs
    · exact Arithmetic.add_zero _
    · exact Arithmetic.zero_add _

/-- Every report of a call is a cancel notice or built from an order that is resting or arrives. -/
theorem call_builtFrom (e : MatchingEngine α) (c : EngineCall α) {report : ExecutionReport α}
    (hreport : report ∈ (e.call c).2) : CancelNotice report ∨
      ∃ order ∈ e.restingOrders ++ processedOrders [c], BuiltFrom order report := by
  cases c with
  | cancelOrder orderId =>
    left
    rw [List.mem_singleton.mp hreport]
    rfl
  | updateMarketPrice md =>
    right
    obtain ⟨order,hresting,-,hblank⟩ := e.updateMarketPrice_mem hreport
    exact ⟨order,List.mem_append_left _ hresting,builtFrom_of_blank hblank (by simp) (by simp)⟩
  | processOrder order =>
    right
    refine ⟨order,List.mem_append_right _ (List.mem_singleton_self order),?_⟩
    rcases e.processOrder_mem hreport with ⟨price,hfilled⟩ | hrejected | hrested
    · exact builtFrom_of_blank hfilled (by simp) (by simp)
    · exact builtFrom_of_blank hrejected (by simp) (by simp)
    · exact builtFrom_of_blank hrested (by simp) (by simp)

/-- Every report of a run is a cancel notice or built from an order that was handed in. -/
theorem run_builtFrom (calls : List (EngineCall α)) : ∀ report ∈
    (MatchingEngine.machine.run (.init α) calls).2,
      CancelNotice report ∨ ∃ order ∈ processedOrders calls, BuiltFrom order report := by
  induction calls using List.reverseRecOn with
  | nil => simp
  | append_singleton calls c ih =>
    intro report hreport
    rw [processedOrders_concat]
    rw [Machine.run_append, List.mem_append] at hreport
    cases hreport with
    | inl hold =>
      cases ih report hold with
      | inl hcancel => exact .inl hcancel
      | inr hbuilt =>
        obtain ⟨order,horder,hbuilt⟩ := hbuilt
        exact .inr ⟨order,List.mem_append_left _ horder,hbuilt⟩
    | inr hnew =>
      rw [Machine.run_cons, Machine.run_nil, List.append_nil] at hnew
      cases call_builtFrom _ c hnew with
      | inl hcancel => exact .inl hcancel
      | inr hbuilt =>
        obtain ⟨order,horder,hbuilt⟩ := hbuilt
        cases List.mem_append.mp horder with
        | inl hresting =>
          exact .inr ⟨order,List.mem_append_left _ (resting_processed calls hresting),hbuilt⟩
        | inr harriving => exact .inr ⟨order,List.mem_append_right _ harriving,hbuilt⟩

/-- If the ids of the orders are distinct, every report for the id of an order describes that
order, unless it is a cancel report: that one has the id and nothing else. -/
theorem reports_describe {calls : List (EngineCall α)}
    (hids : ((processedOrders calls).map OrderRequest.orderId).Nodup) :
    ∀ report ∈ (MatchingEngine.machine.run (.init α) calls).2, ∀ order ∈ processedOrders calls,
      report.orderId = order.orderId →
        (report.status ≠ .cancelled → Describes order report) ∧
          (report.status = .cancelled → CancelNotice report) := by
  intro report hreport order horder hid
  cases run_builtFrom calls report hreport with
  | inl hcancel =>
    have hstatus : report.status = .cancelled := congrArg ExecutionReport.status hcancel
    exact ⟨fun hne => absurd hstatus hne,fun _ => hcancel⟩
  | inr hbuilt =>
    obtain ⟨order',horder',hbuilt⟩ := hbuilt
    have hsame : order' = order :=
      List.inj_on_of_nodup_map hids horder' horder (hbuilt.orderId.symm.trans hid)
    exact ⟨fun _ => hsame ▸ hbuilt.describes,fun hstatus => absurd hstatus hbuilt.status⟩

end Generic

/-- A sell of strategy 2 comes to rest, is cancelled and filled all the same. -/
def restCancelFill : List (EngineCall Double) :=
  [.processOrder ⟨1,2,['B'],.sell,.limit,100,3,0,0⟩,.cancelOrder 1,
    .updateMarketPrice ⟨['B'],101,1,0,false⟩]

theorem reports_describe_restCancelFill :
    Describes (α := Double) ⟨1,2,['B'],.sell,.limit,100,3,0,0⟩
        ⟨1,2,3,['B'],.sell,403/4,3,3,0,.filled,0,0⟩ ∧
      CancelNotice (α := Double) ⟨1,0,2,[],.buy,0,0,0,0,.cancelled,0,0⟩ :=
  ⟨(reports_describe (by decide : ((processedOrders restCancelFill).map
      OrderRequest.orderId).Nodup) _ (by decide +kernel)
      ⟨1,2,['B'],.sell,.limit,100,3,0,0⟩ (by decide +kernel) rfl).1 (by decide),
    (reports_describe (by decide : ((processedOrders restCancelFill).map
      OrderRequest.orderId).Nodup) _ (by decide +kernel)
      ⟨1,2,['B'],.sell,.limit,100,3,0,0⟩ (by decide +kernel) rfl).2 rfl⟩

/-- The cancel report is attributed to strategy 0 and accounts for no quantity. -/
theorem cancel_report_describes_nothing :
    ((processedOrders restCancelFill).map OrderRequest.orderId).Nodup ∧
      ∃ report ∈ (MatchingEngine.machine.run (.init Double) restCancelFill).2,
        ∃ order ∈ processedOrders restCancelFill, report.orderId = order.orderId ∧
          ¬Describes order report := by
  refine ⟨by decide,⟨1,0,2,[],.buy,0,0,0,0,.cancelled,0,0⟩,by decide +kernel,
    ⟨1,2,['B'],.sell,.limit,100,3,0,0⟩,by decide +kernel,rfl,?_⟩
  intro h
  exact absurd h.strategyId (by decide)

end HftEngine.Exchange
