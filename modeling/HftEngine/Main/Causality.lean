import HftEngine.Main.FillIntegrity
import HftEngine.Main.Orders

/-! Timestamps under a clock that does not run backwards. A request is stamped when it is signalled
and again when the OMS forwards it, and a fill is handled later still, so the recorded latencies
add up. -/
namespace HftEngine.Main
open HftEngine.Core Strategy Exchange Analytics Fifo

/-- The order was signalled, then forwarded, and both is in the past. -/
def StampedOrder (past : ℕ → Prop) (order : OrderRequest) : Prop :=
  0 < order.signalTs ∧ order.signalTs ≤ order.orderTs ∧ past order.orderTs

/-- All orders at the exchange, on their way there or reported as filled were stamped in the past,
and so were the pending requests. -/
structure Timely {σ : Type} (past : ℕ → Prop) (c : Components σ) (p : List Event) : Prop where
  carried : Carried (StampedOrder past) c p
  requests : ∀ request, Event.orderRequest request ∈ p →
    0 < request.signalTs ∧ past request.signalTs

namespace Timely
variable {past past' : ℕ → Prop} {c : Components StrategyEngine} {event : Event} {p : List Event}
  {clock : Clock}

theorem mono {σ : Type} {c : Components σ} (h : Timely past c p) (hlater : ∀ t, past t → past' t) :
    Timely past' c p where
  carried := h.carried.mono (fun _ horder => ⟨horder.1,horder.2.1,hlater _ horder.2.2⟩)
  requests request hrequest :=
    ⟨(h.requests request hrequest).1,hlater _ (h.requests request hrequest).2⟩

/-- A tick of the feed carries no stamp of its own. -/
theorem feed (h : Timely past c p) (md : MarketDataEvent) (ok : Bool) :
    Timely past c (p ++ accepted [.push (.marketData md) ok]) := by
  have hinput : IsInput (.marketData md) := trivial
  refine ⟨h.carried.input hinput ok,?_⟩
  intro request hrequest
  cases List.mem_append.mp hrequest with
  | inl hold => exact h.requests request hold
  | inr hnew =>
    have hmem := (accepted_sublist [Op.push (Event.marketData md) ok]).subset hnew
    simp at hmem

/-- Handling an event with a clock that has got past every stamp. -/
theorem handle (h : Timely past c (event :: p)) (hlater : ∀ t, past t → past' t)
    (hnow : ∀ t, past t → ∀ i, t ≤ clock i) (hread : ∀ i, 0 < clock i ∧ past' (clock i))
    {acc : List Event} (hacc : acc.Sublist (c.dispatch StrategyEngine.api clock event).2) :
    Timely past' (c.dispatch StrategyEngine.api clock event).1 (p ++ acc) := by
  constructor
  · refine (h.mono hlater).carried.handle ?_ hacc
    rintro request rfl -
    obtain ⟨hpositive,hpast⟩ := h.requests request List.mem_cons_self
    exact ⟨hpositive,hnow _ hpast 0,(hread 0).2⟩
  · intro request hrequest
    cases List.mem_append.mp hrequest with
    | inl hold =>
      obtain ⟨hpositive,hpast⟩ := h.requests request (List.mem_cons_of_mem _ hold)
      exact ⟨hpositive,hlater _ hpast⟩
    | inr hnew =>
      obtain ⟨i,hi⟩ := (c.dispatch_drafted (hacc.subset hnew)).stamped
      rw [hi]
      exact hread i

end Timely

/-- A Filled report that is handled with this clock was signalled, forwarded and handled in turn. -/
def InTime (clock : Clock) (report : ExecutionReport) : Prop :=
  report.status = .filled →
    0 < report.signalTs ∧ report.signalTs ≤ report.orderTs ∧ ∀ i, report.orderTs ≤ clock i

/-- No latency is recorded that the total does not contain. -/
def AddsUp (m : LatencyMonitor) : Prop :=
  m.signalToOrderSamples.sum + m.orderToFillSamples.sum ≤ m.totalSamples.sum

theorem sum_recordSample {samples : List ℕ} {start stop : ℕ} (hstart : 0 < start)
    (h : start ≤ stop) :
    (LatencyMonitor.recordSample samples start stop).sum = samples.sum + (stop - start) := by
  unfold LatencyMonitor.recordSample
  split_ifs with hkeep
  · rw [List.sum_append, List.sum_singleton]
  · have hequal : start = stop := by omega
    rw [hequal, Nat.sub_self, Nat.add_zero]

theorem dispatch_addsUp {c : Components StrategyEngine} {clock : Clock} {event : Event}
    (h : AddsUp c.latencyMonitor) (hclock : Monotone clock)
    (hreport : ∀ report, event = .executionReport report → InTime clock report) :
    AddsUp (c.dispatch StrategyEngine.api clock event).1.latencyMonitor := by
  cases event with
  | executionReport report =>
    by_cases hfilled : report.status = .filled
    · obtain ⟨hpositive,hsignal,horder⟩ := hreport report rfl hfilled
      have hfirst := horder 0
      have hsecond : clock 0 ≤ clock 1 := hclock (Nat.zero_le 1)
      have hmonitor :
          (c.dispatch StrategyEngine.api clock (.executionReport report)).1.latencyMonitor =
          ((c.latencyMonitor.recordSignalToOrder report.signalTs report.orderTs).recordOrderToFill
            report.orderTs (clock 0)).recordTotalLatency report.signalTs (clock 1) := by
        simp [Components.dispatch, Components.onExecutionReport, hfilled, Components.recordFill,
          Components.recordHistory]
      rw [hmonitor]
      unfold AddsUp at h ⊢
      simp only [LatencyMonitor.recordSignalToOrder, LatencyMonitor.recordOrderToFill,
        LatencyMonitor.recordTotalLatency]
      rw [sum_recordSample hpositive hsignal, sum_recordSample (by omega) hfirst,
        sum_recordSample hpositive (by omega)]
      omega
    · have hmonitor : (c.dispatch StrategyEngine.api clock
          (.executionReport report)).1.latencyMonitor = c.latencyMonitor := by
        simp [Components.dispatch, Components.onExecutionReport, hfilled]
      rw [hmonitor]
      exact h
  | _ => exact h

/-- No reading that is still to come lies before `t`. -/
def Upcoming (labels : List Label) (t : ℕ) : Prop :=
  ∀ l ∈ labels, ∀ clock, l.action = .process clock → ∀ i, t ≤ clock i

/-- The clock is set, and it runs backwards neither within a handler nor from one to the next. A
handler takes finitely many readings, and the rest of its sequence may repeat the last one. -/
structure Causal (labels : List Label) : Prop where
  set : ∀ l ∈ labels, ∀ clock, l.action = .process clock → 0 < clock 0
  forward : ∀ l ∈ labels, ∀ clock, l.action = .process clock → Monotone clock
  later : labels.Pairwise (fun l l' => ∀ clock clock', l.action = .process clock →
    l'.action = .process clock' → ∀ i j, clock i ≤ clock' j)

namespace Causal
variable {l : Label} {labels : List Label} {clock : Clock}

theorem tail (h : Causal (l :: labels)) : Causal labels where
  set l' hl' := h.set l' (List.mem_cons_of_mem _ hl')
  forward l' hl' := h.forward l' (List.mem_cons_of_mem _ hl')
  later := (List.pairwise_cons.mp h.later).2

theorem head_forward (h : Causal (l :: labels)) (hprocess : l.action = .process clock) :
    Monotone clock :=
  h.forward l List.mem_cons_self clock hprocess

/-- Every reading of the first step is set and lies before those of the others. -/
theorem head_reading (h : Causal (l :: labels)) (hprocess : l.action = .process clock) (i : ℕ) :
    0 < clock i ∧ Upcoming labels (clock i) := by
  constructor
  · calc
      0 < clock 0 := h.set l List.mem_cons_self clock hprocess
      _ ≤ clock i := h.head_forward hprocess (Nat.zero_le i)
  · intro l' hl' clock' hprocess' j
    exact (List.pairwise_cons.mp h.later).1 l' hl' clock clock' hprocess hprocess' i j

end Causal

theorem Upcoming.tail {l : Label} {labels : List Label} {t : ℕ} (h : Upcoming (l :: labels) t) :
    Upcoming labels t := fun l' hl' => h l' (List.mem_cons_of_mem _ hl')

namespace EventLoop

/-- The step handles Filled reports in time only. -/
def HandlesInTime (s : EventLoop StrategyEngine) (l : Label) : Prop :=
  ∀ clock report, l.action = .process clock → Handles s l (.executionReport report) →
    InTime clock report

/-- What one step keeps: everything pending was stamped before the readings to come, and the
samples add up. -/
theorem step_timely {s : EventLoop StrategyEngine} {l : Label} {labels : List Label}
    (hclock : Causal (l :: labels)) (hwired : l.action.isSubmit = false)
    (h : Timely (Upcoming (l :: labels)) s.components s.pending)
    (hmonitor : AddsUp s.components.latencyMonitor) :
    HandlesInTime s l ∧
      Timely (Upcoming labels) (step StrategyEngine.api s l).1.components
        (step StrategyEngine.api s l).1.pending ∧
      AddsUp (step StrategyEngine.api s l).1.components.latencyMonitor := by
  have hintime : HandlesInTime s l := by
    intro clock report hprocess hhandles hfilled
    obtain ⟨order,⟨hset,hsignal,hpast⟩,hfills⟩ := h.carried.pending _ hhandles.mem_pending hfilled
    rw [hfills.signalTs, hfills.orderTs]
    exact ⟨hset,hsignal,hpast l List.mem_cons_self clock hprocess⟩
  refine ⟨hintime,?_⟩
  cases step_cases StrategyEngine.api s l with
  | input event ok hpush _ _ hpending hcomponents =>
    rw [hpending, hcomponents]
    refine ⟨?_,hmonitor⟩
    cases haction : l.action with
    | process clock => simp [haction, Action.input] at hpush
    | submit event => simp [haction, Action.isSubmit] at hwired
    | feed md =>
      obtain rfl : Event.marketData md = event := by simpa [haction, Action.input] using hpush
      exact (h.mono (fun _ => Upcoming.tail)).feed md ok
  | idle _ _ hpending hcomponents =>
    rw [hpending, hcomponents]
    exact ⟨h.mono (fun _ => Upcoming.tail),hmonitor⟩
  | handle clock event rest ops hnext hprocess hhead hfront _ hattempted _ hpending hcomponents =>
    rw [hpending, hcomponents]
    rw [hfront] at h
    constructor
    · exact h.handle (fun _ => Upcoming.tail)
        (fun t ht => ht l List.mem_cons_self clock hprocess) (hclock.head_reading hprocess)
        (sublist_of_attempted hattempted)
    · refine dispatch_addsUp hmonitor (hclock.head_forward hprocess) ?_
      rintro report rfl
      exact hintime clock report hprocess ⟨hnext.1,hnext.2.1,hhead⟩

theorem run_timely {s : EventLoop StrategyEngine} {labels : List Label} (hclock : Causal labels)
    (hwired : ∀ l ∈ labels, l.action.isSubmit = false)
    (h : Timely (Upcoming labels) s.components s.pending)
    (hmonitor : AddsUp s.components.latencyMonitor) :
    (machine StrategyEngine.api).Along HandlesInTime s labels ∧
      AddsUp (run StrategyEngine.api s labels).1.components.latencyMonitor := by
  induction labels generalizing s with
  | nil => exact ⟨trivial,hmonitor⟩
  | cons l labels ih =>
    obtain ⟨hintime,htimely,haddsUp⟩ := step_timely hclock (hwired l List.mem_cons_self) h hmonitor
    obtain ⟨hrest,hfinal⟩ := ih hclock.tail
      (fun l' hl' => hwired l' (List.mem_cons_of_mem _ hl')) htimely haddsUp
    exact ⟨⟨hintime,hrest⟩,hfinal⟩

/-- Under a clock that does not run backwards, every Filled report that is handled was signalled
first and forwarded next, and at every time the recorded signal to order and order to fill
latencies sum up to no more than the recorded total latencies. -/
theorem latency_causal (engine : StrategyEngine) (maxPosition : ℚ) (labels : List Label)
    (hwired : ∀ l ∈ labels, l.action.isSubmit = false) (hclock : Causal labels) :
    (∀ before l after clock report, labels = before ++ l :: after → l.action = .process clock →
      Handles (run StrategyEngine.api (init engine maxPosition) before).1 l
        (.executionReport report) → report.status = .filled →
      0 < report.signalTs ∧ report.signalTs ≤ report.orderTs ∧ ∀ i, report.orderTs ≤ clock i) ∧
    AddsUp
      (run StrategyEngine.api (init engine maxPosition) labels).1.components.latencyMonitor := by
  have hinit : Timely (Upcoming labels) (Components.init engine maxPosition) [] :=
    ⟨Carried.init engine maxPosition,fun _ h => absurd h List.not_mem_nil⟩
  obtain ⟨halong,hfinal⟩ := run_timely (s := init engine maxPosition) hclock hwired hinit
    (Nat.le_refl 0)
  refine ⟨?_,hfinal⟩
  rintro before l after clock report rfl hprocess hhandles hfilled
  have hstep := ((machine StrategyEngine.api).along_append _ before (l :: after)).mp halong
  exact hstep.2.1 clock report hprocess hhandles hfilled

/-- Steps of the processor thread, a nanosecond after one another. -/
def nanoseconds (n : ℕ) : List Label :=
  (List.range' 1 n).map (fun t => .ample (.process (fun _ => t)))

theorem causal_nanoseconds (n : ℕ) (md : MarketDataEvent) :
    Causal (.ample (.feed md) :: nanoseconds n) := by
  have hreading : ∀ l ∈ .ample (.feed md) :: nanoseconds n, ∀ clock, l.action = .process clock →
      ∃ t ∈ List.range' 1 n, clock = fun _ => t := by
    intro l hl clock hprocess
    cases List.mem_cons.mp hl with
    | inl hfeed => simp [hfeed, Label.ample] at hprocess
    | inr hstep =>
      obtain ⟨t,ht,rfl⟩ := List.mem_map.mp hstep
      exact ⟨t,ht,(Action.process.inj hprocess).symm⟩
  constructor
  · intro l hl clock hprocess
    obtain ⟨t,ht,rfl⟩ := hreading l hl clock hprocess
    exact (List.mem_range'_1.mp ht).1
  · intro l hl clock hprocess
    obtain ⟨t,-,rfl⟩ := hreading l hl clock hprocess
    exact monotone_const
  · refine List.pairwise_cons.mpr ⟨?_,?_⟩
    · intro l' _ clock clock' hprocess
      simp [Label.ample] at hprocess
    · refine List.pairwise_map.mpr ((List.pairwise_le_range' (s := 1)).imp ?_)
      intro t t' hle clock clock' hprocess hprocess' i j
      rw [← Action.process.inj hprocess, ← Action.process.inj hprocess']
      exact hle

/-- A tick on which a warm momentum strategy buys, and the steps up to the fill. -/
theorem latency_causal_nanoseconds :
    (∀ before l after clock report, .tick 100 :: nanoseconds 12 = before ++ l :: after →
      l.action = .process clock →
      Handles (run StrategyEngine.api (init [.momentum ⟨102,100,50,false,2000000⟩] 100) before).1 l
        (.executionReport report) → report.status = .filled →
      0 < report.signalTs ∧ report.signalTs ≤ report.orderTs ∧ ∀ i, report.orderTs ≤ clock i) ∧
    AddsUp (run StrategyEngine.api (init [.momentum ⟨102,100,50,false,2000000⟩] 100)
      (.tick 100 :: nanoseconds 12)).1.components.latencyMonitor :=
  latency_causal [.momentum ⟨102,100,50,false,2000000⟩] 100 (.tick 100 :: nanoseconds 12)
    (by decide) (causal_nanoseconds 12 _)

end EventLoop
end HftEngine.Main
