import HftEngine.Core.Events
import HftEngine.Foundation.Number
import Mathlib.Tactic.Linarith
import Mathlib.Tactic.Ring

/-! Pre-trade position check (risk/risk_engine.cpp). -/
namespace HftEngine.Risk
open HftEngine.Core Number

structure RiskEngine (α : Type := ℚ) where
  currentPosition : α
  maxPosition : α
  deriving DecidableEq, Repr

namespace RiskEngine

section Code
variable {α : Type} [Add α] [Mul α] [Neg α] [LT α] [DecidableLT α] [∀ n, OfNat α n]

def init (maxPosition : α) : RiskEngine α := ⟨0,maxPosition⟩

/-- Compares the position after this order alone with the limit. -/
def checkOrder (risk : RiskEngine α) (order : OrderRequest α) : Bool :=
  if fabs (risk.currentPosition + order.quantity * order.side.sign α) > risk.maxPosition then
    false
  else true

def updatePosition (risk : RiskEngine α) (quantity : α) : RiskEngine α :=
  { risk with currentPosition := risk.currentPosition + quantity }

end Code

theorem checkOrder_iff (risk : RiskEngine) (order : OrderRequest) :
    risk.checkOrder order = true ↔
      |risk.currentPosition + order.signedQty| ≤ risk.maxPosition := by
  unfold checkOrder OrderRequest.signedQty
  rw [fabs_eq_abs]
  split_ifs with h
  · simpa using h
  · simpa using h

@[simp] theorem updatePosition_currentPosition (risk : RiskEngine) (q : ℚ) :
    (risk.updatePosition q).currentPosition = risk.currentPosition + q := rfl

@[simp] theorem updatePosition_maxPosition (risk : RiskEngine) (q : ℚ) :
    (risk.updatePosition q).maxPosition = risk.maxPosition := rfl

/-- The order alone would bring the position closer to zero. -/
def Reduces (risk : RiskEngine) (order : OrderRequest) : Prop :=
  0 < order.quantity ∧ |risk.currentPosition + order.signedQty| < |risk.currentPosition|

instance (risk : RiskEngine) (order : OrderRequest) : Decidable (risk.Reduces order) :=
  inferInstanceAs (Decidable
    (0 < order.quantity ∧ |risk.currentPosition + order.signedQty| < |risk.currentPosition|))

/-- A market order against the position. -/
def unwinding (risk : RiskEngine) (quantity : ℚ) : OrderRequest :=
  ⟨0,0,[],if 0 ≤ risk.currentPosition then .sell else .buy,.market,0,quantity,0,0⟩

theorem abs_unwinding (risk : RiskEngine) {quantity : ℚ}
    (hle : quantity ≤ |risk.currentPosition|) :
    |risk.currentPosition + (risk.unwinding quantity).signedQty| =
      |risk.currentPosition| - quantity := by
  by_cases hlong : 0 ≤ risk.currentPosition
  · have hsigned : (risk.unwinding quantity).signedQty = -quantity := by
      simp [unwinding, OrderRequest.signedQty, hlong]
    rw [abs_of_nonneg hlong] at hle ⊢
    rw [hsigned, abs_of_nonneg (by linarith)]
    ring
  · have hshort := not_le.mp hlong
    have hsigned : (risk.unwinding quantity).signedQty = quantity := by
      simp [unwinding, OrderRequest.signedQty, hlong]
    rw [abs_of_neg hshort] at hle ⊢
    rw [hsigned, abs_of_nonpos (by linarith)]
    ring

theorem reduces_unwinding (risk : RiskEngine) {quantity : ℚ} (hpos : 0 < quantity)
    (hle : quantity ≤ |risk.currentPosition|) : risk.Reduces (risk.unwinding quantity) := by
  refine ⟨hpos,?_⟩
  rw [risk.abs_unwinding hle]
  linarith

/-- Every order that reduces the position passes exactly if the position is within the limit. -/
theorem reducing_pass_iff {risk : RiskEngine} (hmax : 0 ≤ risk.maxPosition) :
    (∀ order, risk.Reduces order → risk.checkOrder order = true) ↔
      |risk.currentPosition| ≤ risk.maxPosition := by
  constructor
  · intro hpass
    by_contra hover
    have hover' := not_le.mp hover
    -- half of the excess leaves the position over the limit
    have hle : (|risk.currentPosition| - risk.maxPosition) / 2 ≤ |risk.currentPosition| := by
      linarith
    have hchecked := hpass _ (risk.reduces_unwinding (by linarith) hle)
    rw [checkOrder_iff, risk.abs_unwinding hle] at hchecked
    linarith
  · intro hwithin order hreduces
    rw [checkOrder_iff]
    exact hreduces.2.le.trans hwithin

/-- Any position can be closed by one order that passes. -/
theorem exists_reducing_pass {risk : RiskEngine} (hmax : 0 ≤ risk.maxPosition)
    (hopen : risk.currentPosition ≠ 0) :
    ∃ order, risk.Reduces order ∧ risk.checkOrder order = true := by
  refine ⟨risk.unwinding |risk.currentPosition|,
    risk.reduces_unwinding (abs_pos.mpr hopen) (le_refl _),?_⟩
  rw [checkOrder_iff, risk.abs_unwinding (le_refl _), sub_self]
  exact hmax

end RiskEngine
end HftEngine.Risk
