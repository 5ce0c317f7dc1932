import HftEngine.Foundation.Smoothing
import HftEngine.Strategy.WorkingOrders

/-! The averages of the momentum strategy and what scaling the prices does to it: both averages
scale along and the thresholds are relative, so the same ticks give the same signals. -/
namespace HftEngine.Strategy
open HftEngine.Core OrderStatistics Smoothing
open StrategyEngine (Tick)

/-- The trade prices of the ticks. -/
def tradePrices (ticks : List Tick) : List ℚ := ticks.map (fun tick => tick.event.price)

/-- The sides of the orders among pushed events. -/
def sidesOf (events : List StrategyEvent) : List OrderSide :=
  (requestsOf events).map OrderRequest.side

namespace MomentumStrategy
variable (s : MomentumStrategy)

def machine : Machine MomentumStrategy Tick StrategyEvent :=
  ⟨fun s tick => s.onMarketData tick.book tick.clock tick.event⟩

/-- For every tick the sides of the orders that it makes the strategy submit. -/
def sidesPerTick (ticks : List Tick) : List (List OrderSide) :=
  machine.collect (fun s tick => [sidesOf (machine.step s tick).2]) s ticks

/-- The averages start at the first price and are then moved by their weights. -/
theorem updateEma_averages (price : ℚ) :
    (s.updateEma price).shortEma =
        (if s.count = 0 then price else move (2/11) s.shortEma price) ∧
      (s.updateEma price).longEma =
        (if s.count = 0 then price else move (2/51) s.longEma price) := by
  have hshort : (2 : ℚ) / (10 + 1) = 2/11 := by norm_num
  have hlong : (2 : ℚ) / (50 + 1) = 2/51 := by norm_num
  simp only [updateEma, move, hshort, hlong]
  exact ⟨trivial,trivial⟩

/-- The side on which a price makes the strategy trade. -/
def signal (price : ℚ) : Option OrderSide :=
  let s := s.updateEma price
  if s.count < 50 then none
  else if s.bullish then some .buy
  else if s.bearish then some .sell
  else none

/-- What one tick does: the averages move, and a signal is traded and flips the position. -/
theorem step_spec (tick : Tick) :
    (machine.step s tick).1.shortEma = (s.updateEma tick.event.price).shortEma ∧
    (machine.step s tick).1.longEma = (s.updateEma tick.event.price).longEma ∧
    (machine.step s tick).1.count = s.count + 1 ∧
    (machine.step s tick).1.positionOpen =
      ((s.signal tick.event.price).map (fun side => decide (side = .buy))).getD s.positionOpen ∧
    sidesOf (machine.step s tick).2 = (s.signal tick.event.price).toList := by
  simp only [machine, onMarketData, signal]
  by_cases hwarm : (s.updateEma tick.event.price).count < 50
  · simp only [if_pos hwarm]
    exact ⟨trivial,trivial,rfl,rfl,rfl⟩
  · simp only [if_neg hwarm]
    cases hbull : (s.updateEma tick.event.price).bullish with
    | true => exact ⟨rfl,rfl,rfl,rfl,rfl⟩
    | false =>
      cases hbear : (s.updateEma tick.event.price).bearish with
      | true => exact ⟨rfl,rfl,rfl,rfl,rfl⟩
      | false => exact ⟨rfl,rfl,rfl,rfl,rfl⟩

/-- After the first tick every tick moves both averages. -/
theorem run_ema (hstarted : s.count ≠ 0) (ticks : List Tick) :
    (machine.run s ticks).1.shortEma = ema (2/11) s.shortEma (tradePrices ticks) ∧
      (machine.run s ticks).1.longEma = ema (2/51) s.longEma (tradePrices ticks) := by
  induction ticks generalizing s with
  | nil => exact ⟨rfl,rfl⟩
  | cons tick ticks ih =>
    obtain ⟨hshort,hlong,hcount,-,-⟩ := s.step_spec tick
    obtain ⟨hshort',hlong'⟩ := s.updateEma_averages tick.event.price
    rw [if_neg hstarted] at hshort' hlong'
    have hrest := ih (machine.step s tick).1 (by rw [hcount]; exact Nat.succ_ne_zero _)
    rw [hshort, hlong, hshort', hlong'] at hrest
    exact hrest

theorem run_init_ema (first : Tick) (rest : List Tick) :
    (machine.run .init (first :: rest)).1.shortEma =
        ema (2/11) first.event.price (tradePrices rest) ∧
      (machine.run .init (first :: rest)).1.longEma =
        ema (2/51) first.event.price (tradePrices rest) := by
  obtain ⟨hshort,hlong,hcount,-,-⟩ := step_spec .init first
  have hrest := run_ema (machine.step .init first).1
    (by rw [hcount]; exact Nat.succ_ne_zero _) rest
  rw [hshort, hlong] at hrest
  exact hrest

/-- The same strategy at prices that are `c` times as high. -/
structure Scaled (c : ℚ) (s t : MomentumStrategy) : Prop where
  shortEma : t.shortEma = c * s.shortEma
  longEma : t.longEma = c * s.longEma
  count : t.count = s.count
  positionOpen : t.positionOpen = s.positionOpen

namespace Scaled
variable {c : ℚ} {s t : MomentumStrategy}

theorem init (c : ℚ) : Scaled c .init .init :=
  ⟨(mul_zero c).symm,(mul_zero c).symm,rfl,rfl⟩

theorem updateEma (h : Scaled c s t) (price : ℚ) :
    Scaled c (s.updateEma price) (t.updateEma (c * price)) := by
  obtain ⟨hshort,hlong⟩ := s.updateEma_averages price
  obtain ⟨hshort',hlong'⟩ := t.updateEma_averages (c * price)
  refine ⟨?_,?_,congrArg (· + 1) h.count,h.positionOpen⟩
  · rw [hshort', hshort, h.count, h.shortEma, move_mul, mul_ite]
  · rw [hlong', hlong, h.count, h.longEma, move_mul, mul_ite]

theorem bullish (hc : 0 < c) (h : Scaled c s t) : t.bullish = s.bullish := by
  have hcross : t.shortEma > t.longEma * (10001/10000) ↔
      s.shortEma > s.longEma * (10001/10000) := by
    rw [h.shortEma, h.longEma, mul_assoc]
    exact mul_lt_mul_iff_right₀ hc
  simp only [MomentumStrategy.bullish, h.positionOpen, hcross]

theorem bearish (hc : 0 < c) (h : Scaled c s t) : t.bearish = s.bearish := by
  have hcross : t.shortEma < t.longEma * (9999/10000) ↔
      s.shortEma < s.longEma * (9999/10000) := by
    rw [h.shortEma, h.longEma, mul_assoc]
    exact mul_lt_mul_iff_right₀ hc
  simp only [MomentumStrategy.bearish, h.positionOpen, hcross]

theorem signal (hc : 0 < c) (h : Scaled c s t) (price : ℚ) :
    t.signal (c * price) = s.signal price := by
  have hmoved := h.updateEma price
  simp only [MomentumStrategy.signal, hmoved.count, hmoved.bullish hc, hmoved.bearish hc]

theorem step (hc : 0 < c) (h : Scaled c s t) {tick tick' : Tick}
    (hprice : tick'.event.price = c * tick.event.price) :
    Scaled c (machine.step s tick).1 (machine.step t tick').1 ∧
      sidesOf (machine.step t tick').2 = sidesOf (machine.step s tick).2 := by
  obtain ⟨hshort,hlong,hcount,hopen,hsides⟩ := s.step_spec tick
  obtain ⟨hshort',hlong',hcount',hopen',hsides'⟩ := t.step_spec tick'
  have hmoved := h.updateEma tick.event.price
  have hsignal := h.signal hc tick.event.price
  rw [hprice] at hshort' hlong' hopen' hsides'
  refine ⟨⟨?_,?_,?_,?_⟩,?_⟩
  · rw [hshort', hshort, hmoved.shortEma]
  · rw [hlong', hlong, hmoved.longEma]
  · rw [hcount', hcount, h.count]
  · rw [hopen', hopen, hsignal, h.positionOpen]
  · rw [hsides', hsides, hsignal]

/-- Scaled prices give the same signals all along. -/
theorem run (hc : 0 < c) (h : Scaled c s t) {ticks ticks' : List Tick}
    (hprices : tradePrices ticks' = (tradePrices ticks).map (c * ·)) :
    t.sidesPerTick ticks' = s.sidesPerTick ticks := by
  induction ticks generalizing s t ticks' with
  | nil =>
    obtain rfl : ticks' = [] := List.map_eq_nil_iff.mp hprices
    rfl
  | cons tick ticks ih =>
    obtain ⟨tick',rest',rfl,hprice,hrest⟩ := List.map_eq_cons_iff.mp hprices
    have hprice' : tick'.event.price = c * tick.event.price := hprice
    obtain ⟨hstep,hsides⟩ := h.step hc hprice'
    have hlater := ih hstep hrest
    simp only [sidesPerTick, Machine.collect_cons] at hlater ⊢
    rw [hsides, hlater]

end Scaled

/-- After a non-empty sequence of ticks both averages are the geometrically weighted sums of the
prices and lie between them, and scaled prices make the strategy trade on the same ticks and the
same sides. -/
theorem ema_closed_form (first : Tick) (rest : List Tick) :
    let final := (machine.run .init (first :: rest)).1
    final.shortEma = weightedSum (2/11) first.event.price (tradePrices rest) ∧
      final.longEma = weightedSum (2/51) first.event.price (tradePrices rest) ∧
      Between (tradePrices (first :: rest)) final.shortEma ∧
      Between (tradePrices (first :: rest)) final.longEma ∧
      ∀ c > 0, ∀ scaled, tradePrices scaled = (tradePrices (first :: rest)).map (c * ·) →
        init.sidesPerTick scaled = init.sidesPerTick (first :: rest) := by
  intro final
  obtain ⟨hshort,hlong⟩ := run_init_ema first rest
  have hbetween : ∀ a : ℚ, 0 ≤ a → a ≤ 1 →
      Between (tradePrices (first :: rest)) (ema a first.event.price (tradePrices rest)) :=
    fun a ha ha' => ema_between ha ha' first.event.price (tradePrices rest)
  refine ⟨?_,?_,?_,?_,?_⟩
  · exact hshort.trans (ema_eq_weightedSum _ _ _)
  · exact hlong.trans (ema_eq_weightedSum _ _ _)
  · rw [hshort]
    exact hbetween (2/11) (by norm_num) (by norm_num)
  · rw [hlong]
    exact hbetween (2/51) (by norm_num) (by norm_num)
  · intro c hc scaled hscaled
    exact (Scaled.init c).run hc hscaled

/-- Forty-nine equal prices and a price twice as high. -/
def doubling (price : ℚ) : List Tick :=
  (List.replicate 49 price ++ [2 * price]).map
    (fun price => ⟨0,.init,fun _ => 0,⟨btcusdt,price,1,0,false⟩⟩)

theorem ema_closed_form_doubling :
    init.sidesPerTick (doubling 100) = List.replicate 49 [] ++ [[.buy]] ∧
      init.sidesPerTick (doubling 300) = init.sidesPerTick (doubling 100) :=
  ⟨by decide +kernel,(ema_closed_form _ _).2.2.2.2 3 (by norm_num) _ (by decide +kernel)⟩

end MomentumStrategy
end HftEngine.Strategy
