import HftEngine.Strategy.OrderIds

/-! What the strategies write into their requests. Both send limit orders only, stamped with the
clock, and each always in its own name and of its own size. -/
namespace HftEngine.Strategy
open HftEngine.Core Book

/-- The fields of a request that do not depend on the market. -/
structure Drafted (clock : Clock) (request : OrderRequest) : Prop where
  limit : request.type = .limit
  stamped : ∃ i, request.signalTs = clock i
  author : request.strategyId = 1 ∧ request.quantity = 1/10 ∨
    request.strategyId = 2 ∧ request.quantity = 1/2

theorem MarketMakerStrategy.drafted_submitOrder (s : MarketMakerStrategy) (clock : Clock) (i : ℕ)
    (side : OrderSide) (price : ℚ) {request : OrderRequest}
    (h : (s.submitOrder (clock i) side price).2 = .orderRequest request) :
    Drafted clock request := by
  obtain rfl := StrategyEvent.orderRequest.inj h
  exact ⟨rfl,⟨i,rfl⟩,.inl ⟨rfl,rfl⟩⟩

theorem MomentumStrategy.drafted_submitOrder (s : MomentumStrategy) (clock : Clock) (i : ℕ)
    (side : OrderSide) (price : ℚ) {request : OrderRequest}
    (h : (s.submitOrder (clock i) side price).2 = .orderRequest request) :
    Drafted clock request := by
  obtain rfl := StrategyEvent.orderRequest.inj h
  exact ⟨rfl,⟨i,rfl⟩,.inr ⟨rfl,rfl⟩⟩

/-- A quote round cancels, and submits on the sides with room. -/
theorem MarketMakerStrategy.mem_requote (s : MarketMakerStrategy) (clock : Clock)
    (targetBid targetAsk : ℚ) {signal : StrategyEvent}
    (h : signal ∈ (s.requote clock targetBid targetAsk).2) :
    (∃ orderId, signal = .cancelOrder orderId) ∨
    ∃ (s' : MarketMakerStrategy) (i : ℕ) (side : OrderSide) (price : ℚ),
      signal = (s'.submitOrder (clock i) side price).2 := by
  have hside : ∀ (room : Prop) [Decidable room] (x z : MarketMakerStrategy) (y : StrategyEvent),
      signal ∈ (if room then (x,[y]) else (z,[])).2 → signal = y := by
    intro room _ x z y hmem
    split at hmem
    · exact List.mem_singleton.mp hmem
    · exact absurd hmem List.not_mem_nil
  rcases List.mem_append.mp h with hfirst | hsold
  · cases List.mem_append.mp hfirst with
    | inl hcancel =>
      obtain ⟨orderId,-,rfl⟩ := List.mem_map.mp hcancel
      exact .inl ⟨orderId,rfl⟩
    | inr hbought => exact .inr ⟨_,1,.buy,targetBid,hside _ _ _ _ hbought⟩
  · exact .inr ⟨_,2,.sell,targetAsk,hside _ _ _ _ hsold⟩

theorem MarketMakerStrategy.onMarketData_drafted (s : MarketMakerStrategy) (book : OrderBook)
    (clock : Clock) (md : MarketDataEvent) {request : OrderRequest}
    (h : .orderRequest request ∈ (s.onMarketData book clock md).2) : Drafted clock request := by
  rw [s.onMarketData_eq book clock md] at h
  cases hquote : s.quote book clock with
  | none =>
    rw [hquote] at h
    exact absurd h List.not_mem_nil
  | some targets =>
    rw [hquote] at h
    rcases s.mem_requote clock targets.1 targets.2 h with
      ⟨orderId,hcancel⟩ | ⟨s',i,side,price,hsubmit⟩
    · contradiction
    · exact s'.drafted_submitOrder clock i side price hsubmit.symm

theorem MomentumStrategy.onMarketData_drafted (s : MomentumStrategy) (book : OrderBook)
    (clock : Clock) (md : MarketDataEvent) {request : OrderRequest}
    (h : .orderRequest request ∈ (s.onMarketData book clock md).2) : Drafted clock request := by
  unfold onMarketData at h
  dsimp only at h
  split_ifs at h
  · exact absurd h List.not_mem_nil
  · exact drafted_submitOrder _ clock 0 .buy _ (List.mem_singleton.mp h).symm
  · exact drafted_submitOrder _ clock 0 .sell _ (List.mem_singleton.mp h).symm
  · exact absurd h List.not_mem_nil

theorem StrategyVariant.onMarketData_drafted (s : StrategyVariant) (book : OrderBook)
    (clock : Clock) (md : MarketDataEvent) {request : OrderRequest}
    (h : .orderRequest request ∈ (s.onMarketData book clock md).2) : Drafted clock request := by
  cases s with
  | marketMaker s => exact s.onMarketData_drafted book clock md h
  | momentum s => exact s.onMarketData_drafted book clock md h

/-- All requests of the engine are drafted so. -/
theorem StrategyEngine.onMarketData_drafted (book : OrderBook) (clock : Clock)
    (md : MarketDataEvent) (engine : StrategyEngine) {request : OrderRequest}
    (h : .orderRequest request ∈ (onMarketData book clock md engine).2) :
    Drafted clock request := by
  induction engine generalizing clock with
  | nil => exact absurd h List.not_mem_nil
  | cons s rest ih =>
    cases List.mem_append.mp h with
    | inl hfirst => exact s.onMarketData_drafted book clock md hfirst
    | inr hrest =>
      obtain ⟨hlimit,⟨i,hi⟩,hauthor⟩ := ih (fun i => clock (i+3)) hrest
      exact ⟨hlimit,⟨i+3,hi⟩,hauthor⟩

end HftEngine.Strategy
