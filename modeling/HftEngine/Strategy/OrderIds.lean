import HftEngine.Foundation.Double
import HftEngine.Foundation.Machine
import HftEngine.Strategy.Strategies
import Mathlib.Tactic.Linarith
import Mathlib.Tactic.NormNum
import Mathlib.Tactic.Ring

/-! Order ids of the two strategies of main.cpp. Each counts up from its own offset, so the
ids pushed in a run are two ranges of 64-bit numbers, and they are distinct as long as the
counts of the strategies keep these ranges apart. -/
namespace HftEngine.Strategy
open HftEngine.Core Book Number
variable {α : Type}

/-- Number of values of a `uint64_t`. -/
def wordSize : ℕ := 2 ^ 64

/-- The `order_id` of a pushed request. The counters are unbounded here; what the event
carries is their value modulo the word size. -/
def requestedId : StrategyEvent α → Option ℕ
  | .orderRequest request => some (request.orderId % wordSize)
  | .cancelOrder _ => none

def requestedIds (events : List (StrategyEvent α)) : List ℕ := events.filterMap requestedId

/-- The ids of `n` orders counted from an offset. -/
def idRange (offset n : ℕ) : List ℕ := (List.range n).map (fun i => (offset + i) % wordSize)

/-- No id of `a` orders counted from 1000000 is one of `b` orders counted from 2000000, and
neither range meets itself. -/
def Apart (a b : ℕ) : Prop :=
  a ≤ wordSize ∧ b ≤ wordSize ∧ (a ≤ 1000000 ∨ b = 0) ∧ (b ≤ wordSize - 1000000 ∨ a = 0)

instance (a b : ℕ) : Decidable (Apart a b) := inferInstanceAs (Decidable (_ ∧ _ ∧ _ ∧ _))

theorem Apart.mono {a b a' b' : ℕ} (h : Apart a' b') (ha : a ≤ a') (hb : b ≤ b') : Apart a b := by
  obtain ⟨hwordA,hwordB,hfirst,hsecond⟩ := h
  refine ⟨ha.trans hwordA,hb.trans hwordB,?_,?_⟩ <;> omega

@[simp] theorem requestedIds_append (xs ys : List (StrategyEvent α)) :
    requestedIds (xs ++ ys) = requestedIds xs ++ requestedIds ys := by simp [requestedIds]

theorem idRange_add (offset n k : ℕ) :
    idRange offset (n + k) = idRange offset n ++ idRange (offset + n) k := by
  simp only [idRange, List.range_add, List.map_append, List.map_map]
  congr 2
  funext i
  simp only [Function.comp, Nat.add_assoc]

theorem mem_idRange {offset n id : ℕ} :
    id ∈ idRange offset n ↔ ∃ i < n, (offset + i) % wordSize = id := by
  simp [idRange, List.mem_map]

theorem idRange_nodup_iff (offset n : ℕ) : (idRange offset n).Nodup ↔ n ≤ wordSize := by
  constructor
  · intro h
    by_contra hlong
    have hne := List.inj_on_of_nodup_map h (x := 0) (y := wordSize)
      (List.mem_range.mpr (by omega)) (List.mem_range.mpr (by omega)) (by simp)
    exact absurd hne (by decide)
  · intro h
    apply List.Nodup.map_on _ List.nodup_range
    intro i hi j hj heq
    have hi' := List.mem_range.mp hi
    have hj' := List.mem_range.mp hj
    unfold wordSize at *
    omega

/-- The two ranges are duplicate free together exactly when they are apart. -/
theorem idRanges_nodup_iff (a b : ℕ) :
    (idRange 1000000 a ++ idRange 2000000 b).Nodup ↔ Apart a b := by
  rw [List.nodup_append, idRange_nodup_iff, idRange_nodup_iff, Apart]
  refine and_congr_right fun ha => and_congr_right fun hb => ?_
  constructor
  · intro h
    have hdiffer : ∀ i < a, ∀ j < b, (1000000 + i) % wordSize ≠ (2000000 + j) % wordSize := by
      intro i hi j hj
      exact h _ (mem_idRange.mpr ⟨i,hi,rfl⟩) _ (mem_idRange.mpr ⟨j,hj,rfl⟩)
    constructor
    · by_contra hclash
      exact hdiffer 1000000 (by omega) 0 (by omega) rfl
    · by_contra hclash
      exact hdiffer 0 (by omega) (wordSize - 1000000) (by omega) (by decide)
  · rintro ⟨hfirst,hsecond⟩ x hx y hy
    obtain ⟨i,hi,rfl⟩ := mem_idRange.mp hx
    obtain ⟨j,hj,rfl⟩ := mem_idRange.mp hy
    unfold wordSize at *
    omega

namespace MarketMakerStrategy
variable [Div α] [Neg α] [LT α] [DecidableLT α] [∀ n, OfNat α n] (s : MarketMakerStrategy α)

/-- A quote round submits its orders with consecutive ids. -/
theorem requote_ids (clock : Clock) (targetBid targetAsk : α) :
    ∃ k, k = (if s.currentPosition < s.maxPosition then 1 else 0) +
        (if s.currentPosition > -s.maxPosition then 1 else 0) ∧
      (s.requote clock targetBid targetAsk).1.nextOrderId = s.nextOrderId + k ∧
      requestedIds (s.requote clock targetBid targetAsk).2 = idRange s.nextOrderId k := by
  refine ⟨_,rfl,?_⟩
  have hcancels : ∀ ids : List ℕ, 
      (ids.map (StrategyEvent.cancelOrder (α := α))).filterMap requestedId = [] := by
    intro ids
    simp [List.filterMap_eq_nil_iff, requestedId]
  simp only [requote, cancelAll, requestedIds, List.filterMap_append, hcancels]
  by_cases hbuy : s.currentPosition < s.maxPosition <;>
    by_cases hsell : s.currentPosition > -s.maxPosition <;>
      simp [hbuy, hsell, submitOrder, requestedId, idRange, List.range_succ]

/-- What else a quote round does to the market maker. -/
theorem requote_frame (clock : Clock) (targetBid targetAsk : α) :
    (s.requote clock targetBid targetAsk).1.maxPosition = s.maxPosition ∧
    (s.requote clock targetBid targetAsk).1.alpha = s.alpha ∧
    (s.requote clock targetBid targetAsk).1.beta = s.beta ∧
    (s.requote clock targetBid targetAsk).1.targetSpread = s.targetSpread ∧
    (s.requote clock targetBid targetAsk).1.lastOrderTime = clock 0 ∧
    (s.requote clock targetBid targetAsk).1.lastBidPrice = targetBid := by
  simp only [requote, cancelAll]
  by_cases hbuy : s.currentPosition < s.maxPosition <;>
    by_cases hsell : s.currentPosition > -s.maxPosition <;> simp [hbuy, hsell, submitOrder]

variable [Add α] [Sub α] [Mul α] [Min α] [Max α] [Integral α]

/-- The prices the market maker is about to quote, if it quotes: both sides of the book have a
level, 50 ms have passed since the last quote, and one of the prices has moved. -/
def quote (book : OrderBook α) (clock : Clock) : Option (α × α) :=
  match book.getTopBids 1, book.getTopAsks 1 with
  | bid :: _, ask :: _ =>
    if ((clock 0 : ℤ) - s.lastOrderTime).tdiv 1000000 < 50 then none
    else
      let midPrice := (bid.price + ask.price) / 2
      let imbalance := (bid.quantity - ask.quantity) / (bid.quantity + ask.quantity)
      let skewedBid := midPrice - s.targetSpread / 2 + imbalance * s.beta -
        s.currentPosition * s.alpha
      let skewedAsk := midPrice + s.targetSpread / 2 + imbalance * s.beta -
        s.currentPosition * s.alpha
      let targetBid := floor (min skewedBid bid.price / 1) * 1
      let targetAsk := ceil (max skewedAsk ask.price / 1) * 1
      if fabs (targetBid - s.lastBidPrice) > 1/100 ∨
          fabs (targetAsk - s.lastAskPrice) > 1/100 then
        some (targetBid,targetAsk)
      else none
  | _, _ => none

/-- How many orders the market maker is about to submit. -/
def submissions (book : OrderBook α) (clock : Clock) : ℕ :=
  if (s.quote book clock).isSome then
    (if s.currentPosition < s.maxPosition then 1 else 0) +
      if s.currentPosition > -s.maxPosition then 1 else 0
  else 0

theorem onMarketData_eq (book : OrderBook α) (clock : Clock) (event : MarketDataEvent α) :
    s.onMarketData book clock event = match s.quote book clock with
      | some (targetBid,targetAsk) => s.requote clock targetBid targetAsk
      | none => (s,[]) := by
  unfold onMarketData quote
  cases book.getTopBids 1 with
  | nil => rfl
  | cons bid bids =>
    cases book.getTopAsks 1 with
    | nil => rfl
    | cons ask asks =>
      dsimp only
      split_ifs <;> rfl

theorem onMarketData_ids (book : OrderBook α) (clock : Clock) (event : MarketDataEvent α) :
    (s.onMarketData book clock event).1.nextOrderId =
        s.nextOrderId + s.submissions book clock ∧
      requestedIds (s.onMarketData book clock event).2 =
        idRange s.nextOrderId (s.submissions book clock) := by
  rw [onMarketData_eq, submissions]
  cases s.quote book clock with
  | none => exact ⟨rfl,rfl⟩
  | some targets =>
    obtain ⟨k,hk,hnext,hids⟩ := s.requote_ids clock targets.1 targets.2
    simp only [Option.isSome_some, if_true, ← hk]
    exact ⟨hnext,hids⟩

end MarketMakerStrategy

namespace MomentumStrategy
variable [Add α] [Sub α] [Mul α] [Div α] [LT α] [DecidableLT α] [∀ n, OfNat α n]
  (s : MomentumStrategy α)

/-- How many orders the momentum strategy is about to submit. -/
def submissions (price : α) : ℕ :=
  let s := s.updateEma price
  if s.count < 50 then 0 else if s.bullish || s.bearish then 1 else 0

theorem onMarketData_ids (book : OrderBook α) (clock : Clock) (event : MarketDataEvent α) :
    (s.onMarketData book clock event).1.nextOrderId =
        s.nextOrderId + s.submissions event.price ∧
      requestedIds (s.onMarketData book clock event).2 =
        idRange s.nextOrderId (s.submissions event.price) := by
  unfold onMarketData submissions
  have hnext : (s.updateEma event.price).nextOrderId = s.nextOrderId := rfl
  by_cases hwarm : (s.updateEma event.price).count < 50
  · simp only [if_pos hwarm]
    exact ⟨hnext,rfl⟩
  · simp only [if_neg hwarm]
    cases hbull : (s.updateEma event.price).bullish with
    | true => simp [submitOrder, hnext, requestedIds, requestedId, idRange]
    | false =>
      cases hbear : (s.updateEma event.price).bearish with
      | true => simp [submitOrder, hnext, requestedIds, requestedId, idRange]
      | false => simp [hnext, requestedIds, idRange]

end MomentumStrategy

namespace StrategyEngine

section Session
variable [Add α] [Sub α] [Mul α] [Div α] [Neg α] [LT α] [DecidableLT α] [Min α] [Max α]
  [∀ n, OfNat α n] [Integral α]

/-- One market data event together with everything else the strategies read. -/
structure Tick (α : Type := ℚ) where
  position : α
  book : OrderBook α
  clock : Clock
  event : MarketDataEvent α

/-- The strategies over a session: each event is handled after the position has been set. -/
def machine : Machine (StrategyEngine α) (Tick α) (StrategyEvent α) :=
  ⟨fun engine tick =>
    (engine.updatePosition tick.position).onMarketData tick.book tick.clock tick.event⟩

/-- With the orders that this tick makes the two strategies submit, the ids they have used
remain apart. -/
def StaysApart : StrategyEngine α → Tick α → Prop
  | [.marketMaker mm,.momentum mo], tick =>
    Apart (mm.nextOrderId - 1000000 +
        (mm.updatePosition tick.position).submissions tick.book tick.clock)
      (mo.nextOrderId - 2000000 + mo.submissions tick.event.price)
  | _, _ => True

/-- One tick: both strategies move their counters by the orders they submit. -/
theorem step_ids (mm : MarketMakerStrategy α) (mo : MomentumStrategy α) (tick : Tick α) :
    ∃ mm' mo', (machine.step [.marketMaker mm,.momentum mo] tick).1 =
        [.marketMaker mm',.momentum mo'] ∧
      mm'.nextOrderId = mm.nextOrderId +
        (mm.updatePosition tick.position).submissions tick.book tick.clock ∧
      mo'.nextOrderId = mo.nextOrderId + mo.submissions tick.event.price ∧
      requestedIds (machine.step [.marketMaker mm,.momentum mo] tick).2 =
        idRange mm.nextOrderId
          ((mm.updatePosition tick.position).submissions tick.book tick.clock) ++
        idRange mo.nextOrderId (mo.submissions tick.event.price) := by
  obtain ⟨hnext,hids⟩ :=
    (mm.updatePosition tick.position).onMarketData_ids tick.book tick.clock tick.event
  obtain ⟨hnext',hids'⟩ :=
    mo.onMarketData_ids tick.book (fun i => tick.clock (i+3)) tick.event
  refine ⟨_,_,rfl,hnext,hnext',?_⟩
  have hevents : (machine.step [.marketMaker mm,.momentum mo] tick).2 =
      ((mm.updatePosition tick.position).onMarketData tick.book tick.clock tick.event).2 ++
        (mo.onMarketData tick.book (fun i => tick.clock (i+3)) tick.event).2 :=
    congrArg (_ ++ ·) (List.append_nil _)
  rw [hevents, requestedIds_append, hids, hids']
  rfl

/-- From any state of the two strategies: what was requested before and what the ticks make
them request is duplicate free together exactly when the ids stay apart all along. -/
theorem nodup_iff_along {mm : MarketMakerStrategy α} {mo : MomentumStrategy α} {a b : ℕ}
    (hmm : mm.nextOrderId = 1000000 + a) (hmo : mo.nextOrderId = 2000000 + b)
    (ticks : List (Tick α)) :
    (idRange 1000000 a ++ idRange 2000000 b ++
      requestedIds (machine.run [.marketMaker mm,.momentum mo] ticks).2).Nodup ↔
    Apart a b ∧ machine.Along StaysApart [.marketMaker mm,.momentum mo] ticks := by
  induction ticks generalizing mm mo a b with
  | nil =>
    have hnone : requestedIds ([] : List (StrategyEvent α)) = [] := rfl
    rw [Machine.run_nil, hnone, List.append_nil, idRanges_nodup_iff]
    simp
  | cons tick ticks ih =>
    obtain ⟨mm',mo',hstate,hnext,hnext',hids⟩ := step_ids mm mo tick
    rw [hmm, Nat.add_assoc] at hnext
    rw [hmo, Nat.add_assoc] at hnext'
    have hafter := ih hnext hnext'
    have happart : StaysApart [.marketMaker mm,.momentum mo] tick ↔
        Apart (a + (mm.updatePosition tick.position).submissions tick.book tick.clock)
          (b + mo.submissions tick.event.price) := by
      rw [StaysApart, hmm, hmo, Nat.add_sub_cancel_left, Nat.add_sub_cancel_left]
    rw [Machine.run_cons, Machine.along_cons, requestedIds_append, hids, hstate, happart]
    -- the ids of this tick go to the ends of the two ranges
    have hperm : ∀ rest : List ℕ, (idRange 1000000 a ++ idRange 2000000 b ++
        (idRange mm.nextOrderId
            ((mm.updatePosition tick.position).submissions tick.book tick.clock) ++
          idRange mo.nextOrderId (mo.submissions tick.event.price) ++ rest)).Perm
        (idRange 1000000
            (a + (mm.updatePosition tick.position).submissions tick.book tick.clock) ++
          idRange 2000000 (b + mo.submissions tick.event.price) ++ rest) := by
      intro rest
      rw [idRange_add, idRange_add, hmm, hmo]
      simp only [List.append_assoc]
      refine List.Perm.append_left _ ?_
      rw [← List.append_assoc, ← List.append_assoc (idRange (1000000 + a) _)]
      exact List.perm_append_comm.append_right _
    rw [(hperm _).nodup_iff, hafter]
    constructor
    · rintro ⟨hnow,hlater⟩
      exact ⟨hnow.mono (Nat.le_add_right _ _) (Nat.le_add_right _ _),hnow,hlater⟩
    · rintro ⟨-,hnow,hlater⟩
      exact ⟨hnow,hlater⟩

/-- The order ids pushed in a session of the strategies that main.cpp adds are pairwise
distinct exactly when, tick by tick, the orders submitted keep the two ranges apart. -/
theorem order_ids_nodup_iff (ticks : List (Tick α)) :
    (requestedIds (machine.run (main α) ticks).2).Nodup ↔
      machine.Along StaysApart (main α) ticks := by
  have hsession : Apart 0 0 := by decide
  have hmm : (MarketMakerStrategy.init α).nextOrderId = 1000000 + 0 := rfl
  have hmo : (MomentumStrategy.init α).nextOrderId = 2000000 + 0 := rfl
  have hiff := nodup_iff_along hmm hmo ticks
  have hstart : idRange 1000000 0 ++ idRange 2000000 0 = [] := rfl
  rw [hstart, List.nil_append] at hiff
  rw [main, hiff]
  exact and_iff_right hsession

end Session

/-- The quantity at the ask alternates, and with it the imbalance and the price that the market
maker quotes, once every 50 ms. The trade price stays the same. All numbers are doubles. -/
def quietTick (n : ℕ) : Tick Double where
  position := 0
  book := { OrderBook.init Double with
    bidLevels := [⟨101,1⟩]
    askLevels := [⟨101,if n % 2 = 0 then 1 else 3⟩] }
  clock _ := 50000000 * (n + 1)
  event := ⟨btcusdt,100,1,0,false⟩

def quietTicks (n : ℕ) : List (Tick Double) := (List.range n).map quietTick

/-- A jump of the price, on which the momentum strategy buys. -/
def jumpTick : Tick Double := ⟨0,.init Double,fun _ => 0,⟨btcusdt,200,1,0,false⟩⟩

/-- The market maker after `n` quiet ticks. -/
structure Quoting (n : ℕ) (mm : MarketMakerStrategy Double) : Prop where
  nextOrderId : mm.nextOrderId = 1000000 + 2 * n
  maxPosition : mm.maxPosition = 10
  alpha : mm.alpha = 1/100
  beta : mm.beta = 1
  targetSpread : mm.targetSpread = 2
  lastOrderTime : mm.lastOrderTime = 50000000 * n
  lastBidPrice : if n % 2 = 0 then mm.lastBidPrice = 0 ∨ mm.lastBidPrice = 99
    else mm.lastBidPrice = 100

/-- The momentum strategy after `n` quiet ticks. -/
structure Waiting (n : ℕ) (mo : MomentumStrategy Double) : Prop where
  count : mo.count = n
  positionOpen : mo.positionOpen = false
  nextOrderId : mo.nextOrderId = 2000000
  averages : n = 0 ∨ mo.shortEma = 100 ∧ mo.longEma = 100

/-- Every quiet tick makes the market maker move its bid between 100 and 99. -/
theorem Quoting.quote {n : ℕ} {mm : MarketMakerStrategy Double} (h : Quoting n mm) :
    ((mm.updatePosition 0).quote (quietTick n).book (quietTick n).clock).map Prod.fst =
      some (if n % 2 = 0 then 100 else 99) := by
  have helapsed : ¬ (((50000000 * (n + 1) : ℕ) : ℤ) - 50000000 * n).tdiv 1000000 < 50 := by
    have htime : ((50000000 * (n + 1) : ℕ) : ℤ) - 50000000 * n = 50000000 := by
      push_cast
      ring
    rw [htime]
    decide
  have hlast := h.lastBidPrice
  by_cases heven : n % 2 = 0
  · have hfloor : floor (min (((101 : Double) + 101) / 2 - 2 / 2 + (1 - 1) / (1 + 1) * 1 -
        0 * (1/100)) 101 / 1) * 1 = 100 := by decide +kernel
    rw [if_pos heven] at hlast ⊢
    have hmoved : fabs (100 - mm.lastBidPrice) > 1/100 := by
      rcases hlast with hlast | hlast
      · rw [hlast]
        decide +kernel
      · rw [hlast]
        decide +kernel
    simp only [MarketMakerStrategy.quote, OrderBook.getTopBids, OrderBook.getTopAsks, quietTick,
      MarketMakerStrategy.updatePosition, List.take_succ_cons, List.take_zero, if_pos heven,
      h.lastOrderTime, h.alpha, h.beta, h.targetSpread, if_neg helapsed, hfloor]
    rw [if_pos (.inl hmoved)]
    rfl
  · have hfloor : floor (min (((101 : Double) + 101) / 2 - 2 / 2 + (1 - 3) / (1 + 3) * 1 -
        0 * (1/100)) 101 / 1) * 1 = 99 := by decide +kernel
    rw [if_neg heven] at hlast ⊢
    have hmoved : fabs (99 - mm.lastBidPrice) > 1/100 := by
      rw [hlast]
      decide +kernel
    simp only [MarketMakerStrategy.quote, OrderBook.getTopBids, OrderBook.getTopAsks, quietTick,
      MarketMakerStrategy.updatePosition, List.take_succ_cons, List.take_zero, if_neg heven,
      h.lastOrderTime, h.alpha, h.beta, h.targetSpread, if_neg helapsed, hfloor]
    rw [if_pos (.inl hmoved)]
    rfl

theorem Quoting.tick {n : ℕ} {mm : MarketMakerStrategy Double} (h : Quoting n mm) :
    Quoting (n+1) ((mm.updatePosition 0).onMarketData (quietTick n).book (quietTick n).clock
      (quietTick n).event).1 := by
  obtain ⟨⟨targetBid,targetAsk⟩,hquote,hbid⟩ := Option.map_eq_some_iff.mp h.quote
  have hbid' : targetBid = if n % 2 = 0 then 100 else 99 := hbid
  rw [MarketMakerStrategy.onMarketData_eq, hquote]
  obtain ⟨k,hk,hnext,-⟩ :=
    (mm.updatePosition 0).requote_ids (quietTick n).clock targetBid targetAsk
  obtain ⟨hmax,halpha,hbeta,hspread,htime,hlast⟩ :=
    (mm.updatePosition 0).requote_frame (quietTick n).clock targetBid targetAsk
  have hmm : mm.nextOrderId = 1000000 + 2 * n := h.nextOrderId
  have hroom : (0 : Double) < 10 ∧ (0 : Double) > -10 := by decide +kernel
  have hk' : k = 2 := by
    rw [hk, MarketMakerStrategy.updatePosition, h.maxPosition, if_pos hroom.1, if_pos hroom.2]
  refine ⟨?_,hmax.trans h.maxPosition,halpha.trans h.alpha,hbeta.trans h.beta,
    hspread.trans h.targetSpread,?_,?_⟩
  · rw [hnext, hk', MarketMakerStrategy.updatePosition, hmm]
    ring
  · rw [htime, quietTick]
    push_cast
    ring
  · rw [hlast, hbid']
    by_cases heven : n % 2 = 0
    · rw [if_neg (by omega), if_pos heven]
    · rw [if_pos (by omega), if_neg heven]
      exact .inr rfl

/-- At a constant price of 100 both averages are exactly that price and give no signal. -/
theorem Waiting.tick {n : ℕ} {mo : MomentumStrategy Double} (h : Waiting n mo) (clock : Clock) :
    Waiting (n+1) (mo.onMarketData (quietTick n).book clock (quietTick n).event).1 := by
  have haverages : (mo.updateEma 100).shortEma = 100 ∧ (mo.updateEma 100).longEma = 100 := by
    have hshort : (100 : Double) * (2 / (10 + 1)) + 100 * (1 - 2 / (10 + 1)) = 100 := by
      decide +kernel
    have hlong : (100 : Double) * (2 / (50 + 1)) + 100 * (1 - 2 / (50 + 1)) = 100 := by
      decide +kernel
    simp only [MomentumStrategy.updateEma, h.count]
    rcases h.averages with rfl | haverages
    · exact ⟨rfl,rfl⟩
    · rw [haverages.1, haverages.2, hshort, hlong]
      split_ifs <;> exact ⟨rfl,rfl⟩
  have hcount : (mo.updateEma 100).count = n + 1 := congrArg (· + 1) h.count
  have hclosed : (mo.updateEma 100).positionOpen = false := h.positionOpen
  have hbull : (mo.updateEma 100).bullish = false := by
    have hquiet : ¬(100 : Double) > 100 * (10001/10000) := by decide +kernel
    rw [MomentumStrategy.bullish, haverages.1, haverages.2, decide_eq_false hquiet,
      Bool.false_and]
  have hbear : (mo.updateEma 100).bearish = false := by
    rw [MomentumStrategy.bearish, hclosed, Bool.and_false]
  have hstate : (mo.onMarketData (quietTick n).book clock (quietTick n).event).1 =
      mo.updateEma 100 := by
    simp only [MomentumStrategy.onMarketData, quietTick, hbull, hbear, Bool.false_eq_true,
      if_false]
    split_ifs <;> rfl
  rw [hstate]
  exact ⟨hcount,hclosed,h.nextOrderId,.inr haverages⟩

theorem run_quietTicks (n : ℕ) : ∃ mm mo, (machine.run (main Double) (quietTicks n)).1 =
    [.marketMaker mm,.momentum mo] ∧ Quoting n mm ∧ Waiting n mo := by
  induction n with
  | zero =>
    exact ⟨.init Double,.init Double,rfl,⟨rfl,rfl,rfl,rfl,rfl,rfl,.inl rfl⟩,
      ⟨rfl,rfl,rfl,.inl rfl⟩⟩
  | succ n ih =>
    obtain ⟨mm,mo,hstate,hmm,hmo⟩ := ih
    have hticks : quietTicks (n+1) = quietTicks n ++ [quietTick n] := by
      simp [quietTicks, List.range_succ]
    rw [hticks, Machine.run_append, hstate]
    exact ⟨_,_,rfl,hmm.tick,hmo.tick _⟩

/-- After more than 500000 quotes of both sides the market maker has used the id 2000000, and so
has the momentum strategy once it buys. -/
theorem not_nodup_after_quotes {n : ℕ} (hn : 500000 < n) :
    ¬ (requestedIds (machine.run (main Double) (quietTicks n ++ [jumpTick])).2).Nodup := by
  intro h
  have hfirst : (MarketMakerStrategy.init Double).nextOrderId = 1000000 + 0 := rfl
  have hsecond : (MomentumStrategy.init Double).nextOrderId = 2000000 + 0 := rfl
  have hiff := nodup_iff_along hfirst hsecond (quietTicks n ++ [jumpTick])
  have hstart : idRange 1000000 0 ++ idRange 2000000 0 = [] := rfl
  have hmain : ([.marketMaker (.init Double),.momentum (.init Double)] : StrategyEngine Double) =
      main Double := rfl
  rw [hstart, List.nil_append, hmain] at hiff
  obtain ⟨mm,mo,hstate,hmm,hmo⟩ := run_quietTicks n
  have hlast := ((machine.along_append _ _ _).mp (hiff.mp h).2).2
  rw [hstate, Machine.along_cons, StaysApart, hmm.nextOrderId, hmo.nextOrderId] at hlast
  obtain ⟨hshort,hlong⟩ : mo.shortEma = 100 ∧ mo.longEma = 100 := by
    rcases hmo.averages with hzero | haverages
    · omega
    · exact haverages
  have hbuys : mo.submissions jumpTick.event.price = 1 := by
    have hprice : jumpTick.event.price = 200 := rfl
    have hcount : mo.count ≠ 0 := by
      rw [hmo.count]
      omega
    have hjump : (200 : Double) * (2 / (10 + 1)) + 100 * (1 - 2 / (10 + 1)) >
        (200 * (2 / (50 + 1)) + 100 * (1 - 2 / (50 + 1))) * (10001/10000) := by decide +kernel
    have hbull : (mo.updateEma 200).bullish = true := by
      simp only [MomentumStrategy.bullish, MomentumStrategy.updateEma, if_neg hcount, hshort,
        hlong, hmo.positionOpen, decide_eq_true hjump]
      rfl
    have hwarm : ¬ (mo.updateEma 200).count < 50 := by
      simp only [MomentumStrategy.updateEma, hmo.count]
      omega
    simp only [MomentumStrategy.submissions, hprice, if_neg hwarm, hbull]
    rfl
  rw [hbuys] at hlast
  obtain ⟨⟨-,-,hclash,-⟩,-⟩ := hlast
  omega

theorem order_ids_collide : ¬ (requestedIds (machine.run (main Double)
    (quietTicks 500001 ++ [jumpTick])).2).Nodup :=
  not_nodup_after_quotes (by decide)

end StrategyEngine
end HftEngine.Strategy
