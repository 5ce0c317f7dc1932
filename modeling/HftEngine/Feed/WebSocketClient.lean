import HftEngine.Core.Events
import HftEngine.Foundation.Machine
import HftEngine.Strategy.Strategies
import Mathlib.Algebra.BigOperators.Intervals
import Mathlib.Tactic.Linarith

/-! The live feed without Boost (feed/websocket_client.cpp), which simulates the market by a random
walk. `dis` are the numbers that the distribution draws from the generator, two for each tick. -/
namespace HftEngine.Feed
open HftEngine.Core

/-- Where the thread that executes `run` is, with its local price and the numbers drawn so far. -/
inductive WebSocketPc
  | starting
  | testing (price : ℚ) (drawn : ℕ)
  | pushing (md : MarketDataEvent) (price : ℚ) (drawn : ℕ)
  | returned
  deriving DecidableEq

structure WebSocketClient where
  running : Bool
  pc : WebSocketPc
  deriving DecidableEq

/-- A step of the thread that executes `run`, with its clock, or a call of `stop` by another one. -/
inductive WebSocketStep
  | run (now : ℕ)
  | stop

namespace WebSocketClient

def init : WebSocketClient := ⟨false,.starting⟩

def connect (c : WebSocketClient) : WebSocketClient := { c with running := true }

def stop (c : WebSocketClient) : WebSocketClient := { c with running := false }

def isReturned (c : WebSocketClient) : Bool :=
  match c.pc with
  | .returned => true
  | _ => false

/-- The tick of one iteration. -/
def tick (dis : ℕ → ℚ) (now : ℕ) (price : ℚ) (drawn : ℕ) : MarketDataEvent where
  symbol := Strategy.btcusdt
  price := price + dis drawn
  quantity := 1/100
  exchangeTs := (now : ℤ) - 1000000
  isBuyerMaker := dis (drawn + 1) > 0

/-- The next step of `run`. The push itself is a step of the queue. -/
def runStep (dis : ℕ → ℚ) (now : ℕ) (c : WebSocketClient) : WebSocketClient :=
  match c.pc with
  | .starting => { c with pc := .testing 50000 0 }
  | .testing price drawn =>
    if c.running then
      { c with pc := .pushing (tick dis now price drawn) (price + dis drawn) (drawn + 2) }
    else { c with pc := .returned }
  | .pushing _ price drawn => { c with pc := .testing price drawn }
  | .returned => c

/-- The tick that is about to be pushed. -/
def inFlight (c : WebSocketClient) : List MarketDataEvent :=
  match c.pc with
  | .pushing md _ _ => [md]
  | _ => []

def machine (dis : ℕ → ℚ) : Machine WebSocketClient WebSocketStep MarketDataEvent where
  step c
    | .run now => (c.runStep dis now,c.inFlight)
    | .stop => (c.stop,[])

/-- The price after `n` ticks. -/
def walk (dis : ℕ → ℚ) (n : ℕ) : ℚ := 50000 + ∑ i ∈ Finset.range n, dis (2 * i)

@[simp] theorem walk_zero (dis : ℕ → ℚ) : walk dis 0 = 50000 := by simp [walk]

theorem walk_succ (dis : ℕ → ℚ) (n : ℕ) : walk dis (n+1) = walk dis n + dis (2 * n) := by
  rw [walk, Finset.sum_range_succ, walk, add_assoc]

/-- The walk falls by a half at most on every tick. -/
theorem walk_ge {dis : ℕ → ℚ} (hdis : ∀ n, |dis n| ≤ 1/2) (n : ℕ) :
    50000 - (n : ℚ) / 2 ≤ walk dis n := by
  induction n with
  | zero => simp
  | succ n ih =>
    have hstep := (abs_le.mp (hdis (2 * n))).1
    rw [walk_succ]
    push_cast
    linarith

/-- The local variables of `run` are those of the walk after the ticks that were pushed. -/
structure Walks (dis : ℕ → ℚ) (c : WebSocketClient) (pushed : List MarketDataEvent) : Prop where
  prices : pushed.map MarketDataEvent.price =
    (List.range pushed.length).map (fun k => walk dis (k+1))
  starting : c.pc = .starting → pushed = []
  testing : ∀ price drawn, c.pc = .testing price drawn →
    price = walk dis pushed.length ∧ drawn = 2 * pushed.length
  pushing : ∀ md price drawn, c.pc = .pushing md price drawn →
    md.price = price ∧ price = walk dis (pushed.length + 1) ∧ drawn = 2 * (pushed.length + 1)

theorem walks_connect (dis : ℕ → ℚ) : Walks dis init.connect [] where
  prices := rfl
  starting _ := rfl
  testing _ _ h := by contradiction
  pushing _ _ _ h := by contradiction

theorem Walks.step {dis : ℕ → ℚ} {c : WebSocketClient} {pushed : List MarketDataEvent}
    (h : Walks dis c pushed) (l : WebSocketStep) :
    Walks dis ((machine dis).step c l).1 (pushed ++ ((machine dis).step c l).2) := by
  cases l with
  | stop =>
    change Walks dis c.stop (pushed ++ [])
    rw [List.append_nil]
    exact ⟨h.prices,h.starting,h.testing,h.pushing⟩
  | run now =>
    obtain ⟨running,pc⟩ := c
    cases pc with
    | starting =>
      obtain rfl : pushed = [] := h.starting rfl
      refine ⟨rfl,fun hpc => by contradiction,?_,fun _ _ _ hpc => by contradiction⟩
      rintro price drawn hpc
      obtain ⟨rfl,rfl⟩ := WebSocketPc.testing.inj hpc
      exact ⟨(walk_zero dis).symm,rfl⟩
    | testing price drawn =>
      obtain ⟨rfl,rfl⟩ := h.testing price drawn rfl
      change Walks dis (runStep dis now
        ⟨running,.testing (walk dis pushed.length) (2 * pushed.length)⟩) (pushed ++ [])
      rw [List.append_nil]
      cases running with
      | false =>
        exact ⟨h.prices,fun hpc => by contradiction,fun _ _ hpc => by contradiction,
          fun _ _ _ hpc => by contradiction⟩
      | true =>
        refine ⟨h.prices,fun hpc => by contradiction,fun _ _ hpc => by contradiction,?_⟩
        rintro md price drawn hpc
        obtain ⟨rfl,rfl,rfl⟩ := WebSocketPc.pushing.inj hpc
        exact ⟨rfl,(walk_succ dis _).symm,rfl⟩
    | pushing md price drawn =>
      obtain ⟨hmd,rfl,rfl⟩ := h.pushing md price drawn rfl
      change Walks dis ⟨running,.testing _ _⟩ (pushed ++ [md])
      refine ⟨?_,fun hpc => by contradiction,?_,fun _ _ _ hpc => by contradiction⟩
      · rw [List.map_append, h.prices, List.length_append, List.length_singleton,
          List.range_succ, List.map_append, List.map_singleton, hmd, List.map_singleton]
      · rintro price drawn hpc
        obtain ⟨rfl,rfl⟩ := WebSocketPc.testing.inj hpc
        rw [List.length_append, List.length_singleton]
        exact ⟨rfl,rfl⟩
    | returned =>
      change Walks dis ⟨running,.returned⟩ (pushed ++ [])
      rw [List.append_nil]
      exact h

theorem run_walks (dis : ℕ → ℚ) (steps : List WebSocketStep) :
    Walks dis ((machine dis).run init.connect steps).1 ((machine dis).run init.connect steps).2 :=
  (machine dis).run_invariant (P := fun _ _ => True) (fun _ _ l h _ => h.step l)
    (walks_connect dis) ((machine dis).along_of_forall (fun _ _ => trivial) _ steps)

/-- A stopped client pushes what is in flight and nothing more. -/
theorem run_stopped (dis : ℕ → ℚ) {c : WebSocketClient} (hstopped : c.running = false)
    (steps : List WebSocketStep) : ((machine dis).run c steps).2.length ≤ 1 := by
  have hpotential := (machine dis).run_potential (I := fun c => c.running = false)
    (U := fun c => c.inFlight.length) (v := List.length) (w := fun _ => 0) rfl
    (fun _ _ => List.length_append) ?_ ?_ hstopped steps
  · have hflight : c.inFlight.length ≤ 1 := by
      obtain ⟨running,pc⟩ := c
      cases pc <;> simp [inFlight]
    have hnothing : (steps.map (fun _ => 0)).sum = 0 := by simp
    omega
  · intro c l hc
    obtain ⟨running,pc⟩ := c
    obtain rfl : running = false := hc
    cases l <;> cases pc <;> rfl
  · intro c l hc
    obtain ⟨running,pc⟩ := c
    obtain rfl : running = false := hc
    cases l <;> cases pc <;> simp [machine, runStep, stop, inFlight]

/-- Whatever the distribution draws and whenever `stop` is called, the live feed pushes the prices
of its walk in order, the first 99999 of them positive, and one tick at the most after `stop`. -/
theorem simulated_market {dis : ℕ → ℚ} (hdis : ∀ n, |dis n| ≤ 1/2)
    (before after : List WebSocketStep) :
    let live := (machine dis).run init.connect before
    live.2.map MarketDataEvent.price =
        (List.range live.2.length).map (fun k => walk dis (k+1)) ∧
      (∀ md ∈ live.2.take 99999, 0 < md.price) ∧
      ((machine dis).run live.1.stop after).2.length ≤ 1 := by
  intro live
  have hprices := (run_walks dis before).prices
  refine ⟨hprices,?_,run_stopped dis rfl after⟩
  intro md hmd
  have hprice : md.price ∈
      ((List.range live.2.length).map (fun k => walk dis (k+1))).take 99999 := by
    rw [← hprices, ← List.map_take]
    exact List.mem_map_of_mem hmd
  rw [← List.map_take, List.take_range] at hprice
  obtain ⟨k,hk,hwalk⟩ := List.mem_map.mp hprice
  have hindex : (k : ℚ) + 1 ≤ 99999 := by
    have hlt := List.mem_range.mp hk
    have hle : k + 1 ≤ 99999 := by omega
    exact_mod_cast hle
  have hbound := walk_ge hdis (k+1)
  rw [← hwalk]
  push_cast at hbound
  linarith

/-- A market that falls by a half all the time. -/
theorem simulated_market_falling :
    let live := (machine (fun _ => -1/2)).run init.connect [.run 5,.run 6,.run 7,.run 8]
    live.2.map MarketDataEvent.price =
        (List.range live.2.length).map (fun k => walk (fun _ => -1/2) (k+1)) ∧
      (∀ md ∈ live.2.take 99999, 0 < md.price) ∧
      ((machine (fun _ => -1/2)).run live.1.stop [.run 9,.run 10]).2.length ≤ 1 :=
  simulated_market (fun _ => by norm_num) _ _

end WebSocketClient
end HftEngine.Feed
