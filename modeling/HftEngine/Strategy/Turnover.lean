import HftEngine.Foundation.Variation
import HftEngine.Strategy.Momentum

/-! How often the momentum strategy trades. Between two orders its averages have to change places by
more than the two thresholds together, so prices that hardly move cannot make it trade often. -/
namespace HftEngine.Strategy
open HftEngine.Core Smoothing Variation
open StrategyEngine (Tick)

namespace MomentumStrategy
variable (s : MomentumStrategy)

/-- How far the short average is above the long one. -/
def spread : ℚ := s.shortEma - s.longEma

/-- The spread after every tick. -/
def spreadsPerTick (ticks : List Tick) : List ℚ :=
  machine.collect (fun s tick => [(machine.step s tick).1.spread]) s ticks

/-- The spread after every tick on which an order is submitted. -/
def spreadsAtOrders (ticks : List Tick) : List ℚ :=
  machine.collect (fun s tick => (sidesOf (machine.step s tick).2).map
    (fun _ => (machine.step s tick).1.spread)) s ticks

/-- A purchase opens the position, with the short average above the band. -/
theorem signal_buy {price : ℚ} (h : s.signal price = some .buy) : s.positionOpen = false ∧
    (s.updateEma price).longEma / 10000 < (s.updateEma price).spread := by
  simp only [signal] at h
  split_ifs at h with hcold hbull hbear
  · simp only [bullish, Bool.and_eq_true, decide_eq_true_eq, Bool.not_eq_true'] at hbull
    refine ⟨hbull.2,?_⟩
    have hcross := hbull.1
    unfold spread
    linarith
  · contradiction

/-- A sale closes it, with the short average below the band. -/
theorem signal_sell {price : ℚ} (h : s.signal price = some .sell) : s.positionOpen = true ∧
    (s.updateEma price).spread < -((s.updateEma price).longEma / 10000) := by
  simp only [signal] at h
  split_ifs at h with hcold hbull hbear
  · contradiction
  · simp only [bearish, Bool.and_eq_true, decide_eq_true_eq] at hbear
    refine ⟨hbear.2,?_⟩
    have hcross := hbear.1
    unfold spread
    linarith

theorem step_spread (tick : Tick) :
    (machine.step s tick).1.spread = (s.updateEma tick.event.price).spread := by
  obtain ⟨hshort,hlong,-,-,-⟩ := s.step_spec tick
  rw [spread, hshort, hlong, spread]

/-- A tick submits one order at the most. -/
theorem spreadsAtOrders_sublist (ticks : List Tick) :
    (s.spreadsAtOrders ticks).Sublist (s.spreadsPerTick ticks) := by
  refine machine.collect_sublist ?_ s ticks
  intro s tick
  obtain ⟨-,-,-,-,hsides⟩ := s.step_spec tick
  rw [hsides]
  cases s.signal tick.event.price with
  | none => exact List.nil_sublist _
  | some side => exact List.Sublist.refl _

theorem spreadsAtOrders_length (ticks : List Tick) :
    (s.spreadsAtOrders ticks).length = (requestsOf (machine.run s ticks).2).length := by
  induction ticks generalizing s with
  | nil => rfl
  | cons tick ticks ih =>
    have hrest := ih (machine.step s tick).1
    have hsplit : requestsOf ((machine.step s tick).2 ++
        (machine.run (machine.step s tick).1 ticks).2) = requestsOf (machine.step s tick).2 ++
        requestsOf (machine.run (machine.step s tick).1 ticks).2 := List.filterMap_append
    rw [spreadsAtOrders] at hrest
    rw [spreadsAtOrders, Machine.collect_cons, Machine.run_cons, hsplit, List.length_append, hrest,
      List.length_append, List.length_map, sidesOf, List.length_map]

/-- After the first tick the spreads are those of the two averages. -/
theorem spreadsPerTick_eq (hstarted : s.count ≠ 0) (ticks : List Tick) :
    s.spreadsPerTick ticks =
      spreads (2/11) (2/51) s.shortEma s.longEma (tradePrices ticks) := by
  induction ticks generalizing s with
  | nil => rfl
  | cons tick ticks ih =>
    obtain ⟨hshort,hlong,hcount,-,-⟩ := s.step_spec tick
    obtain ⟨hshort',hlong'⟩ := s.updateEma_averages tick.event.price
    rw [if_neg hstarted] at hshort' hlong'
    have hrest := ih (machine.step s tick).1 (by rw [hcount]; exact Nat.succ_ne_zero _)
    rw [hshort, hlong, hshort', hlong'] at hrest
    rw [spreadsPerTick] at hrest
    rw [spreadsPerTick, Machine.collect_cons, hrest, step_spread, spread, hshort', hlong']
    rfl

/-- The spreads vary at most twice as much as the prices. -/
theorem variation_spreadsPerTick (ticks : List Tick) :
    variation (init.spreadsPerTick ticks) ≤ 2 * variation (tradePrices ticks) := by
  cases ticks with
  | nil => exact (mul_zero (2 : ℚ)).ge
  | cons first rest =>
    obtain ⟨hshort,hlong,hcount,-,-⟩ := step_spec .init first
    obtain ⟨hshort',hlong'⟩ := init.updateEma_averages first.event.price
    have hstarted : (machine.step .init first).1.count ≠ 0 := by
      rw [hcount]
      exact Nat.succ_ne_zero _
    have hzero : init.count = 0 := rfl
    rw [if_pos hzero] at hshort' hlong'
    have hrest := spreadsPerTick_eq _ hstarted rest
    rw [hshort, hlong, hshort', hlong', spreadsPerTick] at hrest
    have hspread : (machine.step .init first).1.spread =
        first.event.price - first.event.price := by
      rw [step_spread, spread, hshort', hlong']
    have hvaries := variationFrom_spreads (a := (2 : ℚ)/11) (b := 2/51) (by norm_num) (by norm_num)
      (by norm_num) (by norm_num) first.event.price first.event.price first.event.price
      (tradePrices rest)
    rw [spreadsPerTick, Machine.collect_cons, hrest, hspread]
    rw [sub_self, abs_zero, zero_add, zero_add] at hvaries
    rw [sub_self]
    exact hvaries

/-- From order to order the spread swings from one side of the band to the other. -/
theorem swings {m : ℚ} (hlong : s.count ≠ 0 → m ≤ s.longEma) {ticks : List Tick}
    (hprices : ∀ price ∈ tradePrices ticks, m ≤ price) :
    Swings (m/10000) s.positionOpen (s.spreadsAtOrders ticks) := by
  induction ticks generalizing s with
  | nil => cases s.positionOpen <;> trivial
  | cons tick ticks ih =>
    obtain ⟨hprice,hlater⟩ := List.forall_mem_cons.mp hprices
    obtain ⟨-,hlong',hcount,hopen,hsides⟩ := s.step_spec tick
    have hmoved : m ≤ (s.updateEma tick.event.price).longEma := by
      rw [(s.updateEma_averages tick.event.price).2]
      split
      · exact hprice
      · exact le_move (by norm_num) (by norm_num) (hlong ‹_›) hprice
    have hrest := ih (machine.step s tick).1 (fun _ => hlong'.symm ▸ hmoved) hlater
    rw [spreadsAtOrders] at hrest
    rw [spreadsAtOrders, Machine.collect_cons, hsides]
    cases hsignal : s.signal tick.event.price with
    | none =>
      rw [hopen, hsignal] at hrest
      exact hrest
    | some side =>
      rw [hopen, hsignal] at hrest
      have hspread := s.step_spread tick
      cases side with
      | buy =>
        obtain ⟨hclosed,habove⟩ := s.signal_buy hsignal
        rw [hclosed]
        refine ⟨?_,hrest⟩
        rw [hspread]
        linarith
      | sell =>
        obtain ⟨hopened,hbelow⟩ := s.signal_sell hsignal
        rw [hopened]
        refine ⟨?_,hrest⟩
        rw [hspread]
        linarith

/-- At prices of at least `m` every order after the first one takes price movements of `m` in ten
thousand. -/
theorem requests_bounded {m : ℚ} (hm : 0 ≤ m) {ticks : List Tick}
    (hprices : ∀ price ∈ tradePrices ticks, m ≤ price) :
    ((requestsOf (machine.run .init ticks).2).length : ℚ) * m ≤
      m + 10000 * variation (tradePrices ticks) := by
  have hswings := swings init (fun h => absurd rfl h) hprices
  have hcost := hswings.variation_ge (by linarith)
  have hfewer := variation_le_of_sublist (init.spreadsAtOrders_sublist ticks)
  have hvaries := variation_spreadsPerTick ticks
  rw [spreadsAtOrders_length] at hcost
  linarith

end MomentumStrategy
end HftEngine.Strategy
