import HftEngine.Core.Events
import Mathlib.Data.Rat.Floor

/-! Latency samples (analytics/latency_monitor.hpp). A query sorts the samples in place. -/
namespace HftEngine.Analytics

structure LatencyMonitor where
  signalToOrderSamples : List ℕ
  orderToFillSamples : List ℕ
  totalSamples : List ℕ
  deriving DecidableEq, Repr

structure Stats where
  p50Ns : ℕ
  p90Ns : ℕ
  p99Ns : ℕ
  avgNs : ℕ
  count : ℕ
  deriving DecidableEq, Repr

namespace LatencyMonitor

def init : LatencyMonitor := ⟨[],[],[]⟩

/-- A sample is kept if the interval starts at a set timestamp and has positive length. -/
def recordSample (samples : List ℕ) (start stop : ℕ) : List ℕ :=
  if start > 0 ∧ stop > start then samples ++ [stop - start] else samples

def recordSignalToOrder (m : LatencyMonitor) (signalTs orderTs : ℕ) : LatencyMonitor :=
  { m with signalToOrderSamples := recordSample m.signalToOrderSamples signalTs orderTs }

def recordOrderToFill (m : LatencyMonitor) (orderTs fillTs : ℕ) : LatencyMonitor :=
  { m with orderToFillSamples := recordSample m.orderToFillSamples orderTs fillTs }

def recordTotalLatency (m : LatencyMonitor) (signalTs fillTs : ℕ) : LatencyMonitor :=
  { m with totalSamples := recordSample m.totalSamples signalTs fillTs }

/-- `s.count * q` as an index. -/
def percentileIndex (count : ℕ) (q : ℚ) : ℕ := ⌊(count : ℚ) * q⌋₊

/-- The sum is a `uint64_t`. -/
def computeStats (samples : List ℕ) : List ℕ × Stats :=
  if samples = [] then (samples,⟨0,0,0,0,0⟩)
  else
    let samples := samples.mergeSort (· ≤ ·)
    let sum := samples.foldl (fun sum s => (sum + s) % 2 ^ 64) 0
    let count := samples.length
    (samples,
      { p50Ns := samples.getD (percentileIndex count (1/2)) 0
        p90Ns := samples.getD (percentileIndex count (9/10)) 0
        p99Ns := samples.getD (percentileIndex count (99/100)) 0
        avgNs := sum / count
        count := count })

def getSignalToOrderStats (m : LatencyMonitor) : LatencyMonitor × Stats :=
  let computed := computeStats m.signalToOrderSamples
  ({ m with signalToOrderSamples := computed.1 },computed.2)

def getOrderToFillStats (m : LatencyMonitor) : LatencyMonitor × Stats :=
  let computed := computeStats m.orderToFillSamples
  ({ m with orderToFillSamples := computed.1 },computed.2)

def getTotalLatencyStats (m : LatencyMonitor) : LatencyMonitor × Stats :=
  let computed := computeStats m.totalSamples
  ({ m with totalSamples := computed.1 },computed.2)

end LatencyMonitor
end HftEngine.Analytics
