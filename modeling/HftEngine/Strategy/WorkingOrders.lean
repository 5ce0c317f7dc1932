import HftEngine.Foundation.Fifo
import HftEngine.Strategy.OrderIds
import Mathlib.Data.List.Range

/-! The working orders of the market maker. A quote round cancels everything that is active and
then submits at most one order of each side, so what was requested is what was cancelled followed
by what is active. -/
set_option linter.unusedSectionVars false

namespace HftEngine.Strategy
open HftEngine.Core Book Fifo Number
variable {α : Type}

def request? : StrategyEvent α → Option (OrderRequest α)
  | .orderRequest request => some request
  | .cancelOrder _ => none

def cancelId? : StrategyEvent α → Option ℕ
  | .orderRequest _ => none
  | .cancelOrder orderId => some orderId

/-- The requests among pushed events, in order. -/
def requestsOf (events : List (StrategyEvent α)) : List (OrderRequest α) :=
  events.filterMap request?

def requestIds (events : List (StrategyEvent α)) : List ℕ :=
  (requestsOf events).map OrderRequest.orderId

def cancelIds (events : List (StrategyEvent α)) : List ℕ := events.filterMap cancelId?

/-- The event requests an order with this id. -/
def requestsId (id : ℕ) (event : StrategyEvent α) : Bool :=
  (request? event).any (fun request => decide (request.orderId = id))

def cancelsId (id : ℕ) (event : StrategyEvent α) : Bool := decide (cancelId? event = some id)

@[simp] theorem requestsOf_nil : requestsOf ([] : List (StrategyEvent α)) = [] := rfl
@[simp] theorem cancelIds_nil : cancelIds ([] : List (StrategyEvent α)) = [] := rfl

@[simp] theorem requestsOf_orderRequest (request : OrderRequest α)
    (events : List (StrategyEvent α)) :
    requestsOf (.orderRequest request :: events) = request :: requestsOf events := rfl

@[simp] theorem cancelIds_orderRequest (request : OrderRequest α)
    (events : List (StrategyEvent α)) :
    cancelIds (.orderRequest request :: events) = cancelIds events := rfl

@[simp] theorem requestsOf_cancels (ids : List ℕ) :
    requestsOf (ids.map (StrategyEvent.cancelOrder (α := α))) = [] := by
  rw [requestsOf, List.filterMap_map, List.filterMap_eq_nil_iff]
  exact fun _ _ => rfl

@[simp] theorem cancelIds_cancels (ids : List ℕ) :
    cancelIds (ids.map (StrategyEvent.cancelOrder (α := α))) = ids := by
  rw [cancelIds, List.filterMap_map]
  exact List.filterMap_some

@[simp] theorem requestsOf_append (xs ys : List (StrategyEvent α)) :
    requestsOf (xs ++ ys) = requestsOf xs ++ requestsOf ys := List.filterMap_append ..

@[simp] theorem requestIds_append (xs ys : List (StrategyEvent α)) :
    requestIds (xs ++ ys) = requestIds xs ++ requestIds ys := by simp [requestIds]

@[simp] theorem cancelIds_append (xs ys : List (StrategyEvent α)) :
    cancelIds (xs ++ ys) = cancelIds xs ++ cancelIds ys := List.filterMap_append ..

/-- The ids as the events carry them are the counter values modulo the word size. -/
theorem requestedIds_eq (events : List (StrategyEvent α)) :
    requestedIds events = (requestIds events).map (· % wordSize) := by
  rw [requestedIds, requestIds, requestsOf, List.map_map, List.map_filterMap]
  apply List.filterMap_congr
  intro event _
  cases event <;> rfl

theorem exists_requestsId {events : List (StrategyEvent α)} {id : ℕ}
    (h : id ∈ requestIds events) : ∃ event ∈ events, requestsId id event = true := by
  obtain ⟨request,hrequest,rfl⟩ := List.mem_map.mp h
  obtain ⟨event,hevent,hsome⟩ := List.mem_filterMap.mp hrequest
  refine ⟨event,hevent,?_⟩
  simp [requestsId, hsome]

theorem not_cancelsId {events : List (StrategyEvent α)} {id : ℕ} (h : id ∉ cancelIds events) :
    ∀ event ∈ events, cancelsId id event = false := by
  intro event hevent
  rw [cancelsId, decide_eq_false_iff_not]
  intro hcancels
  exact h (List.mem_filterMap.mpr ⟨event,hevent,hcancels⟩)

namespace MarketMakerStrategy
open StrategyEngine (Tick)
variable [Add α] [Sub α] [Mul α] [Div α] [Neg α] [LT α] [DecidableLT α] [Min α] [Max α]
  [∀ n, OfNat α n] [Integral α]

/-- The market maker over a session: each event is handled after the position has been set. -/
def machine : Machine (MarketMakerStrategy α) (Tick α) (StrategyEvent α) :=
  ⟨fun s tick => (s.updatePosition tick.position).onMarketData tick.book tick.clock tick.event⟩

/-- The requests of a quote round, if the tick starts one. -/
def round (s : MarketMakerStrategy α) (tick : Tick α) : List (List (OrderRequest α)) :=
  if ((s.updatePosition tick.position).quote tick.book tick.clock).isSome
  then [requestsOf (machine.step s tick).2] else []

/-- The requests of the quote rounds of a session. -/
def rounds (s : MarketMakerStrategy α) (ticks : List (Tick α)) : List (List (OrderRequest α)) :=
  machine.collect round s ticks

/-- What a quote round does to the working orders. -/
structure Requotes (s s' : MarketMakerStrategy α) (events : List (StrategyEvent α)) : Prop where
  cancels : cancelIds events = s.activeOrders
  active : s'.activeOrders = requestIds events
  ids : requestIds events = List.range' s.nextOrderId (requestIds events).length
  next : s'.nextOrderId = s.nextOrderId + (requestIds events).length
  sides : ((requestsOf events).map OrderRequest.side).Sublist [.buy,.sell]

theorem requote_requotes (s : MarketMakerStrategy α) (clock : Clock) (targetBid targetAsk : α) :
    Requotes s (s.requote clock targetBid targetAsk).1 (s.requote clock targetBid targetAsk).2 := by
  -- which sides are submitted depends on the position alone
  by_cases hbuy : s.currentPosition < s.maxPosition <;>
    by_cases hsell : s.currentPosition > -s.maxPosition <;> constructor <;>
      simp [requote, cancelAll, hbuy, hsell, submitOrder, requestIds, List.range'_succ]

/-- What one tick does: a quote round, or nothing. -/
theorem step_cases (s : MarketMakerStrategy α) (tick : Tick α) :
    (round s tick = [requestsOf (machine.step s tick).2] ∧
      Requotes s (machine.step s tick).1 (machine.step s tick).2) ∨
    (round s tick = [] ∧ (machine.step s tick).2 = [] ∧
      (machine.step s tick).1.activeOrders = s.activeOrders ∧
      (machine.step s tick).1.nextOrderId = s.nextOrderId) := by
  have hstep : machine.step s tick = _ :=
    (s.updatePosition tick.position).onMarketData_eq tick.book tick.clock tick.event
  cases hquote : (s.updatePosition tick.position).quote tick.book tick.clock with
  | none =>
    right
    rw [hquote] at hstep
    rw [round, hquote, hstep]
    exact ⟨rfl,rfl,rfl,rfl⟩
  | some targets =>
    left
    rw [hquote] at hstep
    have hrequotes := (s.updatePosition tick.position).requote_requotes tick.clock
      targets.1 targets.2
    rw [round, hquote, hstep]
    exact ⟨rfl,⟨hrequotes.cancels,hrequotes.active,hrequotes.ids,hrequotes.next,hrequotes.sides⟩⟩

/-- From any state: what was active or is requested is what is cancelled or remains active. -/
theorem run_partition (s : MarketMakerStrategy α) (ticks : List (Tick α)) :
    s.activeOrders ++ requestIds (machine.run s ticks).2 =
      cancelIds (machine.run s ticks).2 ++ (machine.run s ticks).1.activeOrders := by
  induction ticks generalizing s with
  | nil => simp [requestIds]
  | cons tick ticks ih =>
    have hrest := ih (machine.step s tick).1
    rw [Machine.run_cons, requestIds_append, cancelIds_append, List.append_assoc, ← hrest]
    rcases step_cases s tick with ⟨-,hrequotes⟩ | ⟨-,hevents,hactive,-⟩
    · rw [hrequotes.cancels, hrequotes.active]
    · rw [hevents, hactive]
      rfl

/-- The ids that are requested count up from the next one. -/
theorem run_ids (s : MarketMakerStrategy α) (ticks : List (Tick α)) :
    requestIds (machine.run s ticks).2 =
      List.range' s.nextOrderId (requestIds (machine.run s ticks).2).length := by
  induction ticks generalizing s with
  | nil => rfl
  | cons tick ticks ih =>
    have hrest := ih (machine.step s tick).1
    rw [Machine.run_cons, requestIds_append, List.length_append]
    rcases step_cases s tick with ⟨-,hrequotes⟩ | ⟨-,hevents,-,hnext⟩
    · rw [hrequotes.next] at hrest
      rw [← List.range'_append_1, ← hrest, ← hrequotes.ids]
    · rw [hnext] at hrest
      rw [hevents]
      simpa [requestIds] using hrest

/-- The orders of the last quote round are the active ones. -/
theorem run_lastRound (s : MarketMakerStrategy α) (ticks : List (Tick α)) :
    (machine.run s ticks).1.activeOrders = match (rounds s ticks).getLast? with
      | some requests => requests.map OrderRequest.orderId
      | none => s.activeOrders := by
  induction ticks generalizing s with
  | nil => rfl
  | cons tick ticks ih =>
    have hrest := ih (machine.step s tick).1
    rw [Machine.run_cons, rounds, Machine.collect_cons, List.getLast?_append]
    change (machine.run (machine.step s tick).1 ticks).1.activeOrders = _
    rw [hrest, rounds]
    cases (machine.collect round (machine.step s tick).1 ticks).getLast? with
    | some requests => rfl
    | none =>
      rcases step_cases s tick with ⟨hround,hrequotes⟩ | ⟨hround,-,hactive,-⟩
      · rw [hround]
        exact hrequotes.active
      · rw [hround]
        exact hactive

/-- A quote round submits at most one order of each side. -/
theorem rounds_sides (s : MarketMakerStrategy α) (ticks : List (Tick α)) :
    ∀ requests ∈ rounds s ticks, (requests.map OrderRequest.side).Sublist [.buy,.sell] := by
  induction ticks generalizing s with
  | nil => exact fun requests h => absurd h List.not_mem_nil
  | cons tick ticks ih =>
    rw [rounds, Machine.collect_cons, List.forall_mem_append]
    refine ⟨?_,ih (machine.step s tick).1⟩
    rcases step_cases s tick with ⟨hround,hrequotes⟩ | ⟨hround,-⟩
    · rw [hround, List.forall_mem_singleton]
      exact hrequotes.sides
    · rw [hround]
      exact fun requests h => absurd h List.not_mem_nil

/-- The active orders have been requested, and no id is cancelled before it is requested. -/
structure CancelsRequested (s : MarketMakerStrategy α) (events : List (StrategyEvent α)) :
    Prop where
  requested : ∀ id ∈ s.activeOrders, ∃ event ∈ events, requestsId id event = true
  preceded : ∀ id, PrecededBy (requestsId id) (cancelsId id) events

theorem CancelsRequested.step {s : MarketMakerStrategy α} {events : List (StrategyEvent α)}
    (h : CancelsRequested s events) (tick : Tick α) :
    CancelsRequested (machine.step s tick).1 (events ++ (machine.step s tick).2) := by
  rcases step_cases s tick with ⟨-,hrequotes⟩ | ⟨-,hevents,hactive,-⟩
  · constructor
    · intro id hid
      rw [hrequotes.active] at hid
      obtain ⟨event,hevent,hrequests⟩ := exists_requestsId hid
      exact ⟨event,List.mem_append_right _ hevent,hrequests⟩
    · intro id
      by_cases hid : id ∈ s.activeOrders
      · exact (h.preceded id).append_of_exists (h.requested id hid)
      · rw [← hrequotes.cancels] at hid
        exact (h.preceded id).append_of_none (not_cancelsId hid)
  · rw [hevents, List.append_nil]
    refine ⟨?_,h.preceded⟩
    rw [hactive]
    exact h.requested

theorem run_cancelsRequested (ticks : List (Tick α)) :
    CancelsRequested (machine.run (init α) ticks).1 (machine.run (init α) ticks).2 := by
  have hinit : CancelsRequested (init α) [] := by
    refine ⟨fun id hid => absurd hid List.not_mem_nil,fun id l event r hsplit => ?_⟩
    simp at hsplit
  exact machine.run_invariant (P := fun _ _ => True) (I := CancelsRequested)
    (fun _ _ tick hs _ => hs.step tick) hinit (machine.along_of_forall (fun _ _ => trivial) _ _)

/-- The bookkeeping of the market maker, against what it has pushed and its quote rounds. -/
structure TracksOrders (s : MarketMakerStrategy α) (events : List (StrategyEvent α))
    (rounds : List (List (OrderRequest α))) : Prop where
  partition : requestIds events = cancelIds events ++ s.activeOrders
  distinct : (requestIds events).Nodup
  distinctWords : (requestedIds events).Nodup ↔ (requestIds events).length ≤ wordSize
  preceded : ∀ id, PrecededBy (requestsId id) (cancelsId id) events
  lastRound : s.activeOrders = (rounds.getLast?.getD []).map OrderRequest.orderId
  sides : ((rounds.getLast?.getD []).map OrderRequest.side).Sublist [.buy,.sell]

/-- In every session the market maker's requests are its cancels followed by its active orders,
which are those of the last quote round, at most one of each side; no id is requested or cancelled
twice, as long as the 64-bit counter does not come round, or cancelled before it is requested. -/
theorem working_orders (ticks : List (Tick α)) :
    TracksOrders (machine.run (init α) ticks).1 (machine.run (init α) ticks).2
      (rounds (init α) ticks) := by
  have hids := run_ids (init α) ticks
  have hlast := run_lastRound (init α) ticks
  refine ⟨run_partition (init α) ticks,?_,?_,(run_cancelsRequested ticks).preceded,?_,?_⟩
  · rw [hids]
    exact List.nodup_range'
  · rw [requestedIds_eq, hids, List.length_range', List.range'_eq_map_range, List.map_map]
    exact idRange_nodup_iff (init α).nextOrderId _
  · rw [hlast]
    cases (rounds (init α) ticks).getLast? <;> rfl
  · cases hround : (rounds (init α) ticks).getLast? with
    | none => exact List.nil_sublist _
    | some requests => exact rounds_sides (init α) ticks requests (List.mem_of_getLast? hround)

end MarketMakerStrategy
end HftEngine.Strategy
