import HftEngine.Analytics.LatencyMonitor
import HftEngine.Foundation.Machine
import HftEngine.Foundation.OrderStatistics
import Mathlib.Algebra.Order.BigOperators.Group.List

/-! What a latency query reports. Queries sort the samples in place while recordings go on
appending, so only the multiset of samples survives; the statistics depend on nothing else. -/
namespace HftEngine.Analytics
open OrderStatistics

/-- The intervals of which samples are kept. -/
inductive Interval
  | signalToOrder
  | orderToFill
  | total
  deriving DecidableEq, Repr

/-- A recording or a query of one interval. -/
inductive LatencyCall
  | record (interval : Interval) (start stop : ℕ)
  | stats (interval : Interval)
  deriving DecidableEq, Repr

namespace LatencyMonitor

def samples (m : LatencyMonitor) : Interval → List ℕ
  | .signalToOrder => m.signalToOrderSamples
  | .orderToFill => m.orderToFillSamples
  | .total => m.totalSamples

def record (m : LatencyMonitor) (start stop : ℕ) : Interval → LatencyMonitor
  | .signalToOrder => m.recordSignalToOrder start stop
  | .orderToFill => m.recordOrderToFill start stop
  | .total => m.recordTotalLatency start stop

def getStats (m : LatencyMonitor) : Interval → LatencyMonitor × Stats
  | .signalToOrder => m.getSignalToOrderStats
  | .orderToFill => m.getOrderToFillStats
  | .total => m.getTotalLatencyStats

/-- The monitor under any calls; observed are the statistics that the queries return. -/
def machine : Machine LatencyMonitor LatencyCall Stats where
  step m
    | .record interval start stop => (m.record start stop interval,[])
    | .stats interval => ((m.getStats interval).1,[(m.getStats interval).2])

/-- The sample that a call adds to an interval. -/
def acceptedSample (interval : Interval) : LatencyCall → Option ℕ
  | .record recorded start stop =>
    if recorded = interval ∧ start > 0 ∧ stop > start then some (stop - start) else none
  | .stats _ => none

/-- The accepted samples of an interval, in the order of recording. -/
def accepted (interval : Interval) (calls : List LatencyCall) : List ℕ :=
  calls.filterMap (acceptedSample interval)

theorem computeStats_perm (samples : List ℕ) : (computeStats samples).1.Perm samples := by
  unfold computeStats
  split_ifs
  · exact List.Perm.refl _
  · exact List.mergeSort_perm _ _

/-- A query sees its samples as a multiset. -/
theorem computeStats_eq_of_perm {samples samples' : List ℕ} (h : samples.Perm samples') :
    (computeStats samples).2 = (computeStats samples').2 := by
  unfold computeStats
  by_cases hempty : samples = []
  · have hempty' : samples' = [] := by
      rw [hempty] at h
      exact h.nil_eq.symm
    rw [if_pos hempty, if_pos hempty']
  · have hempty' : samples' ≠ [] := fun hnil => hempty (by rw [hnil] at h; exact h.eq_nil)
    rw [if_neg hempty, if_neg hempty', mergeSort_eq_of_perm h]

theorem samples_record (m : LatencyMonitor) (start stop : ℕ) (recorded interval : Interval) :
    (m.record start stop recorded).samples interval =
      m.samples interval ++ (acceptedSample interval (.record recorded start stop)).toList := by
  by_cases hkept : start > 0 ∧ stop > start <;> cases recorded <;> cases interval <;>
    simp [record, samples, recordSignalToOrder, recordOrderToFill, recordTotalLatency,
      recordSample, acceptedSample, hkept]

theorem samples_getStats (m : LatencyMonitor) (queried interval : Interval) :
    ((m.getStats queried).1.samples interval).Perm (m.samples interval) := by
  cases queried <;> cases interval <;>
    first | exact computeStats_perm _ | exact List.Perm.refl _

/-- A call adds its sample to the multiset of an interval. -/
theorem samples_step (m : LatencyMonitor) (c : LatencyCall) (interval : Interval) :
    ((machine.step m c).1.samples interval).Perm
      (m.samples interval ++ (acceptedSample interval c).toList) := by
  cases c with
  | record recorded start stop =>
    rw [← samples_record]
    exact List.Perm.refl _
  | stats queried =>
    rw [acceptedSample, Option.toList_none, List.append_nil]
    exact m.samples_getStats queried interval

theorem samples_run (m : LatencyMonitor) (calls : List LatencyCall) (interval : Interval) :
    ((machine.run m calls).1.samples interval).Perm
      (m.samples interval ++ accepted interval calls) := by
  induction calls generalizing m with
  | nil => simp [accepted]
  | cons c calls ih =>
    have hstep := (m.samples_step c interval).append_right (accepted interval calls)
    have haccepted : accepted interval (c :: calls) =
        (acceptedSample interval c).toList ++ accepted interval calls := by
      rw [accepted, List.filterMap_cons]
      cases acceptedSample interval c <;> rfl
    rw [haccepted, ← List.append_assoc]
    exact (ih (machine.step m c).1).trans hstep

/-- Whatever came before, a query reports what the accepted samples determine. -/
theorem query_eq (calls : List LatencyCall) (interval : Interval) :
    (machine.step (machine.run .init calls).1 (.stats interval)).2 =
      [(computeStats (accepted interval calls)).2] := by
  have hstart : (init.samples interval) = [] := by cases interval <;> rfl
  have hsamples := samples_run .init calls interval
  rw [hstart, List.nil_append] at hsamples
  have hstats : ((machine.run .init calls).1.getStats interval).2 =
      (computeStats ((machine.run .init calls).1.samples interval)).2 := by
    cases interval <;> rfl
  rw [← computeStats_eq_of_perm hsamples, ← hstats]
  rfl

theorem foldl_mod (samples : List ℕ) (start : ℕ) :
    samples.foldl (fun sum s => (sum + s) % 2 ^ 64) (start % 2 ^ 64) =
      (start + samples.sum) % 2 ^ 64 := by
  induction samples generalizing start with
  | nil => simp
  | cons s samples ih =>
    rw [List.foldl_cons, Nat.mod_add_mod, ih, List.sum_cons, Nat.add_assoc]

/-- The average of natural numbers, rounded down, is not below the smallest one. -/
theorem average_between {samples : List ℕ} (h : samples ≠ []) :
    Between samples (samples.sum / samples.length) := by
  have hlength := List.length_pos_of_ne_nil h
  apply between_of_bounds h
  · intro lo hlo
    rw [Nat.le_div_iff_mul_le hlength, Nat.mul_comm]
    exact List.card_nsmul_le_sum samples lo hlo
  · intro hi hhi
    apply Nat.div_le_of_le_mul
    exact List.sum_le_card_nsmul samples hi hhi

/-- The statistics of the samples: the percentiles as order statistics, read at indices in range,
and the average, unless the sum overflows. -/
structure Describes (samples : List ℕ) (stats : Stats) : Prop where
  count : stats.count = samples.length
  index_lt : ∀ q ∈ [1/2,9/10,99/100], percentileIndex samples.length q < samples.length
  p50 : IsQuantile (1/2) samples stats.p50Ns
  p90 : IsQuantile (9/10) samples stats.p90Ns
  p99 : IsQuantile (99/100) samples stats.p99Ns
  p50_le_p90 : stats.p50Ns ≤ stats.p90Ns
  p90_le_p99 : stats.p90Ns ≤ stats.p99Ns
  average : samples.sum < 2 ^ 64 → Between samples stats.avgNs

section Describes
variable {samples : List ℕ}

theorem percentileIndex_lt (h : samples ≠ []) {q : ℚ} (hq : 0 ≤ q) (hq' : q < 1) :
    percentileIndex samples.length q < samples.length := by
  rw [percentileIndex, mul_comm]
  exact floor_mul_lt hq hq' (List.length_pos_of_ne_nil h)

theorem percentileIndex_mono (count : ℕ) {q q' : ℚ} (h : q ≤ q') :
    percentileIndex count q ≤ percentileIndex count q' :=
  Nat.floor_le_floor (mul_le_mul_of_nonneg_left h (Nat.cast_nonneg _))

/-- The entry of the sorted samples that a percentile is read from. -/
theorem sorted_getElem? (h : samples ≠ []) {q : ℚ} (hq : 0 ≤ q) (hq' : q < 1) :
    (samples.mergeSort (· ≤ ·))[percentileIndex samples.length q]? =
      some ((samples.mergeSort (· ≤ ·)).getD (percentileIndex samples.length q) 0) := by
  have hlt : percentileIndex samples.length q < (samples.mergeSort (· ≤ ·)).length := by
    rw [List.length_mergeSort]
    exact percentileIndex_lt h hq hq'
  rw [List.getD_eq_getElem?_getD, List.getElem?_eq_getElem hlt, Option.getD_some]

theorem percentile_isQuantile (h : samples ≠ []) {q : ℚ} (hq : 0 ≤ q) (hq' : q < 1) :
    IsQuantile q samples
      ((samples.mergeSort (· ≤ ·)).getD (percentileIndex samples.length q) 0) := by
  have hentry := sorted_getElem? h hq hq'
  have hindex : percentileIndex samples.length q =
      ⌊q * (samples.mergeSort (· ≤ ·)).length⌋₊ := by
    rw [percentileIndex, mul_comm, List.length_mergeSort]
  nth_rewrite 1 [hindex] at hentry
  exact (isQuantile_of_pairwise (List.pairwise_mergeSort' (· ≤ ·) samples) hentry).of_perm
    (List.mergeSort_perm _ _)

theorem percentile_mono (h : samples ≠ []) {q q' : ℚ} (hq : 0 ≤ q) (hqq' : q ≤ q') (hq' : q' < 1) :
    (samples.mergeSort (· ≤ ·)).getD (percentileIndex samples.length q) 0 ≤
      (samples.mergeSort (· ≤ ·)).getD (percentileIndex samples.length q') 0 :=
  getElem_le_getElem (List.pairwise_mergeSort' (· ≤ ·) samples) (percentileIndex_mono _ hqq')
    (sorted_getElem? h hq (hqq'.trans_lt hq')) (sorted_getElem? h (hq.trans hqq') hq')

theorem computeStats_describes (h : samples ≠ []) : Describes samples (computeStats samples).2 := by
  have hsum : (samples.mergeSort (· ≤ ·)).foldl (fun sum s => (sum + s) % 2 ^ 64) 0 =
      samples.sum % 2 ^ 64 := by
    have hfold := foldl_mod (samples.mergeSort (· ≤ ·)) 0
    rw [Nat.zero_mod, Nat.zero_add, (List.mergeSort_perm _ _).sum_eq] at hfold
    exact hfold
  unfold computeStats
  rw [if_neg h]
  simp only [hsum, List.length_mergeSort]
  refine ⟨rfl,?_,?_,?_,?_,?_,?_,?_⟩
  · intro q hq
    simp only [List.mem_cons, List.not_mem_nil, or_false] at hq
    rcases hq with rfl | rfl | rfl <;> exact percentileIndex_lt h (by norm_num) (by norm_num)
  · exact percentile_isQuantile h (by norm_num) (by norm_num)
  · exact percentile_isQuantile h (by norm_num) (by norm_num)
  · exact percentile_isQuantile h (by norm_num) (by norm_num)
  · exact percentile_mono h (by norm_num) (by norm_num) (by norm_num)
  · exact percentile_mono h (by norm_num) (by norm_num) (by norm_num)
  · intro hword
    rw [Nat.mod_eq_of_lt hword]
    exact average_between h

end Describes

/-- After any recordings and queries, a query returns statistics that only the multiset of the
accepted samples determines: order statistics of them, and zeros if there are none. -/
theorem stats_order_statistics (calls : List LatencyCall) (interval : Interval) :
    ∃ stats, (machine.step (machine.run .init calls).1 (.stats interval)).2 = [stats] ∧
      (∀ calls', (accepted interval calls').Perm (accepted interval calls) →
        (machine.step (machine.run .init calls').1 (.stats interval)).2 = [stats]) ∧
      (accepted interval calls = [] → stats = ⟨0,0,0,0,0⟩) ∧
      (accepted interval calls ≠ [] → Describes (accepted interval calls) stats) := by
  refine ⟨(computeStats (accepted interval calls)).2,query_eq calls interval,?_,?_,?_⟩
  · intro calls' hperm
    rw [query_eq, computeStats_eq_of_perm hperm]
  · intro hempty
    rw [hempty]
    rfl
  · exact computeStats_describes

/-- Without a sample the reported percentiles are no recorded samples. -/
theorem stats_without_samples : ¬∃ stats,
    (machine.step (machine.run .init []).1 (.stats .total)).2 = [stats] ∧
      Describes (accepted .total []) stats := by
  rintro ⟨stats,-,hdescribes⟩
  exact List.not_mem_nil hdescribes.p50.mem

end LatencyMonitor
end HftEngine.Analytics
