import HftEngine.Foundation.Double
import HftEngine.Pnl.Calls

/-! When the average price is divided by zero, in double precision. The averaging branch is also
taken below the flatness threshold, where a fill may close a position exactly; no other sum of
two doubles is rounded to zero. -/
namespace HftEngine.Pnl
open HftEngine.Core

/-- A fill at a positive price for a positive quantity. -/
def PnlCall.Positive : PnlCall Double → Prop
  | .onFill _ _ price quantity => 0 < price ∧ 0 < quantity
  | .updatePnl _ => True

/-- The fill closes exactly a position that counts as flat without being zero. -/
def ClosesResidue (net fillQty : Double) : Prop :=
  net ≠ 0 ∧ Number.fabs net < epsilon Double ∧ fillQty = -net

theorem signed_ne_zero {quantity : Double} (h : 0 < quantity) (side : OrderSide) :
    quantity * side.sign Double ≠ 0 := by
  cases side with
  | buy =>
    change quantity * 1 ≠ 0
    rw [Double.mul_one_right]
    rintro rfl
    exact Double.lt_irrefl 0 h
  | sell =>
    change quantity * -1 ≠ 0
    rw [Double.mul_neg_one_right]
    intro hzero
    have hneg := (Double.neg_neg_iff quantity).mpr h
    rw [hzero] at hneg
    exact Double.lt_irrefl 0 hneg

/-- What is below the threshold is finite. -/
theorem isFinite_of_flat {x : Double} (h : Number.fabs x < epsilon Double) :
    x.isFinite = true := by
  cases x with
  | finite q hq => rfl
  | infinity negative =>
    have hlarge : ¬Number.fabs (.infinity negative : Double) < epsilon Double := by
      cases negative <;> decide +kernel
    exact absurd h hlarge
  | nan =>
    have hlarge : ¬Number.fabs (.nan : Double) < epsilon Double := by decide +kernel
    exact absurd h hlarge

/-- The averaging branch divides by zero exactly when the fill closes a residue. -/
theorem StrategyStats.divides_iff (stats : StrategyStats Double) {fillQty : Double}
    (hq : fillQty ≠ 0) : (stats.Averages fillQty → stats.position + fillQty ≠ 0) ↔
      ¬ClosesResidue stats.position fillQty := by
  constructor
  · rintro hdivides ⟨-,hsmall,rfl⟩
    exact hdivides (.inr (.inr hsmall)) (Double.add_neg_of_isFinite (isFinite_of_flat hsmall))
  · intro hresidue haverages hzero
    have hclose : fillQty = -stats.position := Double.eq_neg_of_add_eq_zero hzero
    rcases haverages with ⟨hp,hs⟩ | ⟨hp,hs⟩ | hsmall
    · -- On the side of the position the sum is beyond it.
      rw [hclose] at hs
      exact Double.lt_asymm ((Double.neg_neg_iff _).mpr hp) hs
    · rw [hclose] at hs
      exact Double.lt_asymm ((Double.neg_pos_iff _).mpr hp) hs
    · refine hresidue ⟨?_,hsmall,hclose⟩
      intro hp
      rw [hp] at hclose
      exact hq (hclose.trans Double.neg_zero)

namespace PnlEngine

/-- Every execution of the averaging branch divides by a new position different from zero. -/
def NeverDividesByZero (calls : List (PnlCall Double)) : Prop :=
  ∀ before strategyId side price quantity rest,
    calls = before ++ .onFill strategyId side price quantity :: rest →
    ((after before).stats strategyId).Averages (quantity * side.sign Double) →
    ((after before).stats strategyId).position + quantity * side.sign Double ≠ 0

/-- No fill closes exactly a net quantity of its strategy that is not zero and below the
flatness threshold. -/
def ClosesNoResidue (calls : List (PnlCall Double)) : Prop :=
  ∀ before strategyId side price quantity rest,
    calls = before ++ .onFill strategyId side price quantity :: rest →
    ¬ClosesResidue (netOf strategyId before) (quantity * side.sign Double)

/-- For fills with positive prices and quantities the average is never divided by zero exactly
when no fill closes a residue. -/
theorem neverDividesByZero_iff {calls : List (PnlCall Double)}
    (h : ∀ call ∈ calls, call.Positive) : NeverDividesByZero calls ↔ ClosesNoResidue calls := by
  have hstep : ∀ before strategyId side price quantity rest,
      calls = before ++ .onFill strategyId side price quantity :: rest →
      ((((after before).stats strategyId).Averages (quantity * side.sign Double) →
        ((after before).stats strategyId).position + quantity * side.sign Double ≠ 0) ↔
      ¬ClosesResidue (netOf strategyId before) (quantity * side.sign Double)) := by
    rintro before strategyId side price quantity rest rfl
    have hpositive : 0 < price ∧ 0 < quantity :=
      h (.onFill strategyId side price quantity) (by simp)
    rw [← position_eq_netOf]
    exact StrategyStats.divides_iff _ (signed_ne_zero hpositive.2 side)
  constructor
  · intro hsafe before strategyId side price quantity rest hcalls
    exact (hstep _ _ _ _ _ _ hcalls).mp (hsafe _ _ _ _ _ _ hcalls)
  · intro hclear before strategyId side price quantity rest hcalls
    exact (hstep _ _ _ _ _ _ hcalls).mpr (hclear _ _ _ _ _ _ hcalls)

/-- A purchase of 1e-10 sold again. -/
def residue : List (PnlCall Double) :=
  [.onFill 1 .buy 100 (1/10000000000),.onFill 1 .sell 100 (1/10000000000)]

theorem residue_positive : ∀ call ∈ residue, call.Positive := by
  intro call hcall
  simp only [residue, List.mem_cons, List.not_mem_nil, or_false] at hcall
  rcases hcall with rfl | rfl <;> exact ⟨by decide +kernel,by decide +kernel⟩

theorem neverDividesByZero_iff_residue : NeverDividesByZero residue ↔ ClosesNoResidue residue :=
  neverDividesByZero_iff residue_positive

theorem residue_divides_by_zero :
    (∀ call ∈ residue, call.Positive) ∧ ¬NeverDividesByZero residue := by
  refine ⟨residue_positive,?_⟩
  intro hsafe
  apply hsafe [.onFill 1 .buy 100 (1/10000000000)] 1 .sell 100 (1/10000000000) [] rfl
  · exact .inr (.inr (by decide +kernel))
  · decide +kernel

/-- A purchase too small to move the position does not keep the sale from closing it. -/
example : netOf 1 [.onFill 1 .buy 100 (1/10000000000),
    .onFill 1 .buy 100 (1/1000000000000000000000000000000)] = (1/10000000000 : Double) := by
  decide +kernel

end PnlEngine
end HftEngine.Pnl
