import HftEngine.Exchange.ExecutionPrice

/-! In which order the sweep fills resting orders. The resting list is in order of arrival and the
sweep goes through it once, so the reports come in order of arrival, whatever the prices. -/
set_option linter.unusedSectionVars false

namespace HftEngine.Exchange
open HftEngine.Core

section Generic
variable {α : Type} [Add α] [Sub α] [Div α] [LT α] [DecidableLT α] [LE α] [DecidableLE α]
  [∀ n, OfNat α n]

/-- The limit price of the first order is strictly better than that of the second: higher for a
buy, lower for a sell. -/
def BetterPrice (order other : OrderRequest α) : Prop :=
  match order.side with
  | .buy => other.price < order.price
  | .sell => order.price < other.price

instance (order other : OrderRequest α) : Decidable (BetterPrice order other) :=
  match h : order.side with
  | .buy => decidable_of_iff (other.price < order.price) (by simp [BetterPrice, h])
  | .sell => decidable_of_iff (order.price < other.price) (by simp [BetterPrice, h])

/-- One report comes before another and has the smaller trade id. -/
structure ReportedBefore (reports : List (ExecutionReport α)) (first second : ExecutionReport α) :
    Prop where
  sublist : [first,second].Sublist reports
  tradeId : first.tradeId < second.tradeId

namespace MatchingEngine
variable (e : MatchingEngine α)

/-- What the sweep emits in the iteration for an order, after those for the orders before it. -/
def emittedAt (before : List (OrderRequest α)) (order : OrderRequest α) :
    List (ExecutionReport α) :=
  ((e.sweep before).1.sweep [order]).2.2

/-- Of any two resting orders of one side that a price update fills, the one with the better price
is reported first, at equal prices the one that arrived earlier. -/
def PriceTimePriority (md : MarketDataEvent α) : Prop :=
  ∀ before order between later after,
    e.restingOrders = before ++ order :: (between ++ later :: after) → order.side = later.side →
      ∀ report ∈ (e.priced md).emittedAt before order,
        ∀ report' ∈ (e.priced md).emittedAt (before ++ order :: between) later,
          if BetterPrice later order then ReportedBefore (e.updateMarketPrice md).2 report' report
          else ReportedBefore (e.updateMarketPrice md).2 report report'

/-- The sweep of a list is the sweep of its first part, then of the rest. -/
theorem sweep_append (before rest : List (OrderRequest α)) : (e.sweep (before ++ rest)).2.2 =
    (e.sweep before).2.2 ++ ((e.sweep before).1.sweep rest).2.2 := by
  induction before generalizing e with
  | nil => rfl
  | cons order before ih =>
    rw [List.cons_append, sweep_cons, sweep_cons]
    by_cases h : e.crosses order = true
    · simp only [if_pos h, ih, List.cons_append]
    · simp only [if_neg h, ih]

theorem sweep_singleton (order : OrderRequest α) : (e.sweep [order]).2.2 = if e.crosses order then
    [{ e.fillOf order with tradeId := e.nextTradeId }] else [] := by
  rw [sweep_cons]
  by_cases h : e.crosses order = true
  · rw [if_pos h, if_pos h]
    rfl
  · rw [if_neg h, if_neg h]
    rfl

/-- The iteration of an order that crosses reports its fill, with the next trade id. -/
theorem emittedAt_eq (before : List (OrderRequest α)) (order : OrderRequest α) :
    e.emittedAt before order = if e.crosses order then
      [{ e.fillOf order with tradeId := e.nextTradeId + (before.filter e.crosses).length }]
    else [] := by
  rw [emittedAt, sweep_engine, sweep_singleton]
  rfl

theorem emittedAt_of_crosses (before : List (OrderRequest α)) {order : OrderRequest α}
    (h : e.crosses order = true) : e.emittedAt before order =
      [{ e.fillOf order with tradeId := e.nextTradeId + (before.filter e.crosses).length }] := by
  rw [emittedAt_eq, if_pos h]

theorem crosses_of_emittedAt {before : List (OrderRequest α)} {order : OrderRequest α}
    {report : ExecutionReport α} (h : report ∈ e.emittedAt before order) :
    e.crosses order = true := by
  rw [emittedAt_eq] at h
  by_contra hcrosses
  rw [if_neg hcrosses] at h
  exact List.not_mem_nil h

/-- The reports of two iterations, in the order of the sweep. -/
theorem sweep_two (before : List (OrderRequest α)) (order : OrderRequest α)
    (between : List (OrderRequest α)) (later : OrderRequest α) (after : List (OrderRequest α)) :
    (e.emittedAt before order ++ e.emittedAt (before ++ order :: between) later).Sublist
      (e.sweep (before ++ order :: (between ++ later :: after))).2.2 := by
  have hlater : before ++ order :: (between ++ later :: after) =
      (before ++ order :: between) ++ [later] ++ after := by simp
  have horder : before ++ order :: between = before ++ [order] ++ between := by simp
  have hfirst : (e.emittedAt before order).Sublist (e.sweep (before ++ order :: between)).2.2 := by
    rw [horder, sweep_append, sweep_append]
    exact (List.sublist_append_right _ _).trans (List.sublist_append_left _ _)
  rw [hlater, sweep_append, sweep_append]
  exact (hfirst.append (List.Sublist.refl _)).trans (List.sublist_append_left _ _)

/-- Of two orders that both cross, the sweep reports the one that arrived earlier first. -/
theorem emittedAt_reportedBefore {md : MarketDataEvent α}
    {before between after : List (OrderRequest α)} {order later : OrderRequest α}
    (hsplit : e.restingOrders = before ++ order :: (between ++ later :: after))
    {report report' : ExecutionReport α} (hreport : report ∈ (e.priced md).emittedAt before order)
    (hreport' : report' ∈ (e.priced md).emittedAt (before ++ order :: between) later) :
    ReportedBefore (e.updateMarketPrice md).2 report report' := by
  have hcrosses := (e.priced md).crosses_of_emittedAt hreport
  have hcrosses' := (e.priced md).crosses_of_emittedAt hreport'
  have hsweep : (e.updateMarketPrice md).2 = ((e.priced md).sweep e.restingOrders).2.2 :=
    congrArg Prod.snd (e.updateMarketPrice_eq md)
  have htwo := (e.priced md).sweep_two before order between later after
  rw [emittedAt_of_crosses _ _ hcrosses, List.mem_singleton] at hreport
  rw [emittedAt_of_crosses _ _ hcrosses', List.mem_singleton] at hreport'
  rw [emittedAt_of_crosses _ _ hcrosses, emittedAt_of_crosses _ _ hcrosses', ← hreport,
    ← hreport'] at htwo
  refine ⟨?_,?_⟩
  · rw [hsweep, hsplit]
    exact htwo
  · rw [hreport, hreport', List.filter_append, List.length_append,
      List.filter_cons_of_pos hcrosses, List.length_cons]
    simp only
    omega

/-- A price update fills in price-time priority exactly if, of the resting orders that cross, none
has a better price than an earlier one of its side. -/
theorem priceTimePriority_iff (md : MarketDataEvent α) : e.PriceTimePriority md ↔
    (e.restingOrders.filter (e.priced md).crosses).Pairwise
      (fun order later => order.side = later.side → ¬BetterPrice later order) := by
  rw [List.pairwise_filter, Matched.pairwise_iff_forall_split]
  constructor
  · intro h before order between later after hsplit hcrosses hcrosses' hside hbetter
    have hreport := (e.priced md).emittedAt_of_crosses before hcrosses
    have hreport' := (e.priced md).emittedAt_of_crosses (before ++ order :: between)
      hcrosses'
    have hreported := h before order between later after hsplit hside _
      (hreport ▸ List.mem_singleton_self _) _ (hreport' ▸ List.mem_singleton_self _)
    rw [if_pos hbetter] at hreported
    -- the earlier order has the smaller trade id all the same
    have harrival := e.emittedAt_reportedBefore hsplit (hreport ▸ List.mem_singleton_self _)
      (hreport' ▸ List.mem_singleton_self _)
    exact absurd hreported.tradeId (Nat.lt_asymm harrival.tradeId)
  · intro h before order between later after hsplit hside report hreport report' hreport'
    have hbetter := h before order between later after hsplit
      ((e.priced md).crosses_of_emittedAt hreport) ((e.priced md).crosses_of_emittedAt hreport')
      hside
    rw [if_neg hbetter]
    exact e.emittedAt_reportedBefore hsplit hreport hreport'

end MatchingEngine

/-- In every run a price update fills in price-time priority exactly if, of the orders that it
fills, none has a better price than one of its side that arrived earlier. -/
theorem price_time_priority (calls : List (EngineCall α)) (md : MarketDataEvent α) :
    (MatchingEngine.machine.run (.init α) calls).1.restingOrders.Sublist (processedOrders calls) ∧
      ((MatchingEngine.machine.run (.init α) calls).1.PriceTimePriority md ↔
        ((MatchingEngine.machine.run (.init α) calls).1.restingOrders.filter
            ((MatchingEngine.machine.run (.init α) calls).1.priced md).crosses).Pairwise
          (fun order later => order.side = later.side → ¬BetterPrice later order)) :=
  ⟨resting_sublist calls,MatchingEngine.priceTimePriority_iff _ md⟩

end Generic

/-- Buys at 100 and 101 rest in this order; the update to 99 fills the one at 100 first. -/
theorem worse_price_filled_first : ¬(MatchingEngine.machine.run (.init Double)
    [.processOrder ⟨1,0,['B'],.buy,.limit,100,1,0,0⟩,
      .processOrder ⟨2,0,['B'],.buy,.limit,101,1,0,0⟩]).1.PriceTimePriority
    ⟨['B'],99,1,0,false⟩ := by
  intro h
  have hreported := h [] ⟨1,0,['B'],.buy,.limit,100,1,0,0⟩ [] ⟨2,0,['B'],.buy,.limit,101,1,0,0⟩ []
    (by decide +kernel) rfl ⟨1,0,3,['B'],.buy,397/4,1,1,0,.filled,0,0⟩ (by decide +kernel)
    ⟨2,0,4,['B'],.buy,397/4,1,1,0,.filled,0,0⟩ (by decide +kernel)
  rw [if_pos (by decide +kernel)] at hreported
  exact absurd hreported.tradeId (by decide)

end HftEngine.Exchange
