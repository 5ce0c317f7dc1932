import HftEngine.Risk.RiskEngine
import Std.Data.TreeMap

/-! Order management (oms/order_manager.cpp): structural and risk validation, the table of
active orders, and the forwarded copy that carries the OMS timestamp. -/
namespace HftEngine.Oms
open HftEngine.Core Risk Number

structure OrderManager (α : Type := ℚ) where
  activeOrders : Std.TreeMap ℕ (OrderRequest α)

namespace OrderManager

section Code
variable {α : Type}

def init (α : Type := ℚ) : OrderManager α := ⟨{}⟩

def handleExecutionReport (om : OrderManager α) (report : ExecutionReport α) : OrderManager α :=
  if report.orderId ∈ om.activeOrders then
    if report.status = .filled ∨ report.status = .cancelled ∨ report.status = .rejected then
      ⟨om.activeOrders.erase report.orderId⟩
    else om
  else om

/-- The entries of the table, which the code reads in no particular order. -/
def getActiveOrders (om : OrderManager α) : List (OrderRequest α) :=
  om.activeOrders.toList.map (fun entry => entry.2)

variable [Add α] [Mul α] [Neg α] [LT α] [DecidableLT α] [LE α] [DecidableLE α] [∀ n, OfNat α n]

def validateOrder (risk : RiskEngine α) (request : OrderRequest α) : Bool :=
  if request.quantity ≤ 0 then false
  else if request.type = .limit ∧ request.price ≤ 0 then false
  else risk.checkOrder request

/-- The new table together with the events pushed to the queue. -/
def handleOrderRequest (om : OrderManager α) (risk : RiskEngine α) (clock : Clock)
    (request : OrderRequest α) : OrderManager α × List (Event α) :=
  if validateOrder risk request then
    (⟨om.activeOrders.insert request.orderId request⟩,
      [.validatedOrder { request with orderTs := clock 0 }])
  else (om,[])

theorem handleOrderRequest_accepted (om : OrderManager α) (clock : Clock) {risk : RiskEngine α}
    {request : OrderRequest α} (h : validateOrder risk request = true) :
    (om.handleOrderRequest risk clock request).2 =
      [.validatedOrder { request with orderTs := clock 0 }] := by
  simp [handleOrderRequest, h]

theorem handleOrderRequest_rejected (om : OrderManager α) (clock : Clock) {risk : RiskEngine α}
    {request : OrderRequest α} (h : validateOrder risk request = false) :
    om.handleOrderRequest risk clock request = (om,[]) := by
  simp [handleOrderRequest, h]

/-- What the comparisons ask of an accepted request; NaN fails none of them. -/
theorem validateOrder_passes (risk : RiskEngine α) (request : OrderRequest α) :
    validateOrder risk request = true ↔ ¬request.quantity ≤ 0 ∧
      (request.type = .limit → ¬request.price ≤ 0) ∧
      ¬risk.maxPosition < fabs (risk.currentPosition + request.signedQty) := by
  unfold validateOrder RiskEngine.checkOrder
  split_ifs with hquantity hprice hlimit
  · simp [hquantity]
  · simp [hprice.1, hprice.2]
  · exact iff_of_false (by simp) (fun h => h.2.2 hlimit)
  · exact iff_of_true rfl ⟨hquantity,fun htype hle => hprice ⟨htype,hle⟩,hlimit⟩

end Code

/-- What an accepted request satisfies: positive quantity, a positive price if it is a limit
order, and the risk check. -/
theorem validateOrder_iff (risk : RiskEngine) (request : OrderRequest) :
    validateOrder risk request = true ↔ 0 < request.quantity ∧
      (request.type = .limit → 0 < request.price) ∧ risk.checkOrder request = true := by
  unfold validateOrder
  split_ifs with hq hp
  · simp [hq]
  · simp [hp.1, hp.2]
  · have hq' := not_le.mp hq
    have hp' : request.type = .limit → 0 < request.price := by
      intro ht
      by_contra h
      exact hp ⟨ht,not_lt.mp h⟩
    exact ⟨fun h => ⟨hq',hp',h⟩,fun h => h.2.2⟩

theorem validateOrder_quantity {risk : RiskEngine} {request : OrderRequest}
    (h : validateOrder risk request = true) : 0 < request.quantity :=
  ((validateOrder_iff risk request).mp h).1

end OrderManager
end HftEngine.Oms
