import HftEngine.Main.Provenance

/-! Quantities in the event loop. Structural validation lets only positive quantities pass,
and the exchange keeps them: whatever rests, is on its way to the exchange or is reported as
filled has a positive quantity. -/
namespace HftEngine.Main
open HftEngine.Core Strategy Exchange Fifo

/-- Validated orders and Filled reports carry a positive quantity. -/
def PositiveQty : Event → Prop
  | .validatedOrder order => 0 < order.quantity
  | .executionReport report => report.status = .filled → 0 < report.lastQty
  | _ => True

theorem passes_positiveQty : Passes (fun order => 0 < order.quantity) PositiveQty where
  input event h := by
    cases event <;> trivial
  validated _ := Iff.rfl
  fill order report horder hfills := by
    intro _
    rw [hfills.lastQty]
    exact horder
  other _ hstatus hfilled := absurd hfilled hstatus

/-- Positive quantities on both sides of the exchange. -/
structure PositiveQtys {σ : Type} (c : Components σ) (p : List Event) : Prop where
  resting : ∀ order ∈ c.matchingEngine.restingOrders, 0 < order.quantity
  pending : ∀ event ∈ p, PositiveQty event

theorem PositiveQtys.passedOn {σ : Type} {c : Components σ} {p : List Event}
    (h : PositiveQtys c p) : PassedOn (fun order => 0 < order.quantity) PositiveQty c p :=
  ⟨h.resting,h.pending⟩

namespace Components
variable {σ : Type} {S : StrategyApi σ} {clock : Clock} {c : Components σ} {p : List Event}

/-- Handling any event keeps the resting quantities positive, and so are those of what is
left with the accepted pushes appended. -/
theorem dispatch_positiveQtys {event : Event} {acc : List Event}
    (h : PositiveQtys c (event :: p)) (hacc : acc.Sublist (c.dispatch S clock event).2) :
    PositiveQtys (c.dispatch S clock event).1 (p ++ acc) := by
  have hpassed := passes_positiveQty.handle h.passedOn
    (fun _ _ hv => Oms.OrderManager.validateOrder_quantity hv) hacc
  exact ⟨hpassed.resting,hpassed.pending⟩

end Components

theorem PositiveQtys.input {σ : Type} {c : Components σ} {p : List Event} {event : Event}
    (h : PositiveQtys c p) (hevent : IsInput event) (ok : Bool) :
    PositiveQtys c (p ++ accepted [.push event ok]) := by
  have hpassed := passes_positiveQty.push h.passedOn hevent ok
  exact ⟨hpassed.resting,hpassed.pending⟩

/-- Nothing is pending and nothing rests at the start. -/
theorem PositiveQtys.init {σ : Type} (strategy : σ) (maxPosition : ℚ) :
    PositiveQtys (Components.init strategy maxPosition) [] :=
  ⟨fun _ h => (List.not_mem_nil h).elim,fun _ h => (List.not_mem_nil h).elim⟩

/-- In every reachable state all these quantities are positive. -/
theorem EventLoop.positiveQtys {σ : Type} (S : StrategyApi σ) (strategy : σ) (maxPosition : ℚ)
    (labels : List Label) :
    PositiveQtys (run S (init strategy maxPosition) labels).1.components
      (run S (init strategy maxPosition) labels).1.pending := by
  apply run_invariant' (I := fun c p _ => PositiveQtys c p)
  · intro c p tr event ok hevent ih
    exact ih.input hevent ok
  · intro c event p tr clock ops ih hattempted _
    apply Components.dispatch_positiveQtys ih
    exact sublist_of_attempted hattempted
  · exact PositiveQtys.init strategy maxPosition

end HftEngine.Main
