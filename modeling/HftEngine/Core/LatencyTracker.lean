import HftEngine.Foundation.Machine
import Mathlib.Algebra.Order.Field.Rat
import Mathlib.Data.List.Dedup
import Mathlib.Data.List.Perm.Basic
import Mathlib.Logic.Function.Basic

/-! The lock-free metrics of core/latency_tracker.hpp under any number of threads. A record adds to
two counters and then raises the maximum with a compare-and-swap loop; each atomic access is a step
of its own. The three variables are only related by the calls that write them, so nothing here
depends on how relaxed accesses to different ones are ordered. -/
namespace HftEngine.Core

/-- How far a thread is in its call of `record`: what it does next, with its local variables. The
call begins by adding to `total_ns`. -/
inductive RecordPc
  | idle
  | counting (ns : ℕ)
  | loading (ns : ℕ)
  | comparing (ns currentMax : ℕ)
  deriving DecidableEq, Repr

/-- The sample of the call that is in progress. -/
def RecordPc.sample : RecordPc → Option ℕ
  | .idle => none
  | .counting ns => some ns
  | .loading ns => some ns
  | .comparing ns _ => some ns

/-- The sample that is added to the total and not to the count yet. -/
def RecordPc.uncounted : RecordPc → List ℕ
  | .counting ns => [ns]
  | _ => []

/-- The sample of the call that is not over. -/
def RecordPc.unfinished (pc : RecordPc) : List ℕ := pc.sample.toList

/-- The latest call of a thread has loaded nothing before its loop, and in the loop it compares with
what it has loaded last. -/
def RecordPc.Loaded (calls : List (List ℕ)) : RecordPc → Prop
  | .idle => True
  | .counting _ => calls.head? = some []
  | .loading _ => calls.head? = some []
  | .comparing _ currentMax => ∃ earlier, calls.head? = some (currentMax :: earlier)

structure Metric (τ : Type) where
  totalNs : ℕ
  maxNs : ℕ
  count : ℕ
  pc : τ → RecordPc

/-- What happens next: a thread calls `record`, or makes the next step of its call. A weak
compare-and-swap may fail spuriously. -/
inductive MetricCall (τ : Type)
  | record (t : τ) (ns : ℕ)
  | step (t : τ) (spurious : Bool)
  deriving DecidableEq, Repr

/-- What a step does, with its thread: a call begins, is counted, loads the maximum, loads it again
since another thread has raised it, or is over. -/
inductive MetricOp (τ : Type)
  | began (t : τ) (ns : ℕ)
  | counted (t : τ) (ns : ℕ)
  | loaded (t : τ) (currentMax : ℕ)
  | overtaken (t : τ) (currentMax : ℕ)
  | finished (t : τ) (ns : ℕ)
  deriving DecidableEq, Repr

namespace Metric
variable {τ : Type}

/-- Samples of the calls that have begun, with their threads. -/
def begun (ops : List (MetricOp τ)) : List (τ × ℕ) :=
  ops.filterMap fun
    | .began t ns => some (t,ns)
    | _ => none

def counted (ops : List (MetricOp τ)) : List (τ × ℕ) :=
  ops.filterMap fun
    | .counted t ns => some (t,ns)
    | _ => none

def finished (ops : List (MetricOp τ)) : List (τ × ℕ) :=
  ops.filterMap fun
    | .finished t ns => some (t,ns)
    | _ => none

def samples (ops : List (MetricOp τ)) : List ℕ := (begun ops).map Prod.snd

@[simp] theorem begun_append (xs ys : List (MetricOp τ)) :
    begun (xs ++ ys) = begun xs ++ begun ys := List.filterMap_append

@[simp] theorem counted_append (xs ys : List (MetricOp τ)) :
    counted (xs ++ ys) = counted xs ++ counted ys := List.filterMap_append

@[simp] theorem finished_append (xs ys : List (MetricOp τ)) :
    finished (xs ++ ys) = finished xs ++ finished ys := List.filterMap_append

@[simp] theorem samples_append (xs ys : List (MetricOp τ)) :
    samples (xs ++ ys) = samples xs ++ samples ys := by simp [samples]

variable [DecidableEq τ]

def init : Metric τ := ⟨0,0,0,fun _ => .idle⟩

def setPc (s : Metric τ) (t : τ) (pc : RecordPc) : Metric τ :=
  { s with pc := Function.update s.pc t pc }

/-- The next step of a call; the loop tests `ns > current_max` before each attempt. -/
def advance (s : Metric τ) (t : τ) (spurious : Bool) : Metric τ × List (MetricOp τ) :=
  match s.pc t with
  | .idle => (s,[])
  | .counting ns =>
    ({ s with count := (s.count + 1) % 2 ^ 64 }.setPc t (.loading ns),[.counted t ns])
  | .loading ns => (s.setPc t (.comparing ns s.maxNs),[.loaded t s.maxNs])
  | .comparing ns currentMax =>
    if ns ≤ currentMax then (s.setPc t .idle,[.finished t ns])
    else if s.maxNs = currentMax then
      if spurious then (s,[]) else ({ s with maxNs := ns }.setPc t .idle,[.finished t ns])
    else (s.setPc t (.comparing ns s.maxNs),[.overtaken t s.maxNs])

/-- Calls begin only on an idle thread. -/
def next (s : Metric τ) : MetricCall τ → Metric τ × List (MetricOp τ)
  | .record t ns =>
    if s.pc t = .idle then
      ({ s with totalNs := (s.totalNs + ns) % 2 ^ 64 }.setPc t (.counting ns),[.began t ns])
    else (s,[])
  | .step t spurious => s.advance t spurious

def machine : Machine (Metric τ) (MetricCall τ) (MetricOp τ) := ⟨next⟩

def run (s : Metric τ) (calls : List (MetricCall τ)) : Metric τ × List (MetricOp τ) :=
  machine.run s calls

/-- No call is in progress. -/
def Quiet (s : Metric τ) : Prop := ∀ t, s.pc t = .idle

/-- `get_stats`, with an exact quotient, once no thread records any more. -/
structure Stats where
  avgNs : ℚ
  maxNs : ℕ
  count : ℕ
  deriving DecidableEq, Repr

def getStats (s : Metric τ) : Stats :=
  if s.count = 0 then ⟨0,0,0⟩ else ⟨(s.totalNs : ℚ) / s.count,s.maxNs,s.count⟩

/-- What an operation adds to the maxima loaded by each call of a thread, latest call and latest
maximum first. -/
def load (t : τ) (calls : List (List ℕ)) : MetricOp τ → List (List ℕ)
  | .began u _ => if u = t then [] :: calls else calls
  | .loaded u m => if u = t then calls.modifyHead (m :: ·) else calls
  | .overtaken u m => if u = t then calls.modifyHead (m :: ·) else calls
  | _ => calls

/-- The maxima that each call of a thread has loaded: one to begin with, and one more whenever its
exchange fails because another thread has raised the maximum. -/
def loads (t : τ) (ops : List (MetricOp τ)) : List (List ℕ) := ops.foldl (load t) []

theorem loads_snoc (t : τ) (ops : List (MetricOp τ)) (op : MetricOp τ) :
    loads t (ops ++ [op]) = load t (loads t ops) op := by
  rw [loads, List.foldl_append]
  rfl

@[simp] theorem setPc_pc_self (s : Metric τ) (t : τ) (pc : RecordPc) :
    (s.setPc t pc).pc t = pc := by
  simp [setPc]

theorem setPc_pc_of_ne (s : Metric τ) {t u : τ} (pc : RecordPc) (h : u ≠ t) :
    (s.setPc t pc).pc u = s.pc u := by
  simp [setPc, h]

/-- All that a step can do. -/
inductive Step (s : Metric τ) : Metric τ → List (MetricOp τ) → Prop
  | rest : Step s s []
  | began (t : τ) (ns : ℕ) (hpc : s.pc t = .idle) :
    Step s ({ s with totalNs := (s.totalNs + ns) % 2 ^ 64 }.setPc t (.counting ns)) [.began t ns]
  | counted (t : τ) (ns : ℕ) (hpc : s.pc t = .counting ns) :
    Step s ({ s with count := (s.count + 1) % 2 ^ 64 }.setPc t (.loading ns)) [.counted t ns]
  | loaded (t : τ) (ns : ℕ) (hpc : s.pc t = .loading ns) :
    Step s (s.setPc t (.comparing ns s.maxNs)) [.loaded t s.maxNs]
  | finished (t : τ) (ns currentMax : ℕ) (hpc : s.pc t = .comparing ns currentMax)
    (hle : ns ≤ currentMax) : Step s (s.setPc t .idle) [.finished t ns]
  | raised (t : τ) (ns : ℕ) (hpc : s.pc t = .comparing ns s.maxNs) (hlt : s.maxNs < ns) :
    Step s ({ s with maxNs := ns }.setPc t .idle) [.finished t ns]
  | overtaken (t : τ) (ns currentMax : ℕ) (hpc : s.pc t = .comparing ns currentMax)
    (hother : s.maxNs ≠ currentMax) :
    Step s (s.setPc t (.comparing ns s.maxNs)) [.overtaken t s.maxNs]

theorem step_cases (s : Metric τ) (call : MetricCall τ) :
    Step s (machine.step s call).1 (machine.step s call).2 := by
  change Step s (next s call).1 (next s call).2
  cases call with
  | record t ns =>
    by_cases hpc : s.pc t = .idle
    · rw [next, if_pos hpc]
      exact .began t ns hpc
    · rw [next, if_neg hpc]
      exact .rest
  | step t spurious =>
    change Step s (s.advance t spurious).1 (s.advance t spurious).2
    unfold advance
    cases hpc : s.pc t with
    | idle => exact .rest
    | counting ns => exact .counted t ns hpc
    | loading ns => exact .loaded t ns hpc
    | comparing ns currentMax =>
      dsimp only
      split_ifs with hle hsame hfails
      · exact .finished t ns currentMax hpc hle
      · exact .rest
      · exact .raised t ns (hsame ▸ hpc) (by omega)
      · exact .overtaken t ns currentMax hpc hsame

/-- The run rule: what every step keeps holds after every run from the initial state. -/
theorem run_invariant {I : Metric τ → List (MetricOp τ) → Prop} (hinit : I init [])
    (hstep : ∀ s tr s' ops, I s tr → Step s s' ops → I s' (tr ++ ops))
    (calls : List (MetricCall τ)) : I (run init calls).1 (run init calls).2 := by
  have hrun := machine.run_invariant (P := fun _ _ => True)
    (fun s tr call h _ => hstep s tr _ _ h (step_cases s call)) hinit
    (machine.along_of_forall (fun _ _ => trivial) init calls)
  rw [List.nil_append] at hrun
  exact hrun

/-- Samples of one thread. -/
def ofThread (t : τ) (calls : List (τ × ℕ)) : List ℕ :=
  (calls.filter (fun call => call.1 = t)).map Prod.snd

@[simp] theorem ofThread_append (t : τ) (xs ys : List (τ × ℕ)) :
    ofThread t (xs ++ ys) = ofThread t xs ++ ofThread t ys := by simp [ofThread]

/-- Thread by thread, the calls that `mark` reads off the trace are those that have begun, but for
what the call in progress has still `pending`. -/
def Follows (mark : List (MetricOp τ) → List (τ × ℕ)) (pending : RecordPc → List ℕ) (s : Metric τ)
    (tr : List (MetricOp τ)) : Prop :=
  ∀ t, ofThread t (begun tr) = ofThread t (mark tr) ++ pending (s.pc t)

/-- A step of one thread only moves what this thread has pending. -/
theorem Follows.of_frame {mark : List (MetricOp τ) → List (τ × ℕ)} {pending : RecordPc → List ℕ}
    {s s' : Metric τ} {tr ops : List (MetricOp τ)} (h : Follows mark pending s tr) {t : τ}
    (happend : mark (tr ++ ops) = mark tr ++ mark ops)
    (hself : pending (s.pc t) ++ ofThread t (begun ops) =
      ofThread t (mark ops) ++ pending (s'.pc t))
    (hother : ∀ u, u ≠ t → s'.pc u = s.pc u ∧ ofThread u (begun ops) = ofThread u (mark ops) ∧
      ofThread u (mark ops) = []) : Follows mark pending s' (tr ++ ops) := by
  intro u
  rw [begun_append, happend, ofThread_append, ofThread_append, h u]
  by_cases hu : u = t
  · rw [hu, List.append_assoc, List.append_assoc, hself]
  · obtain ⟨hpc,hbegun,hmark⟩ := hother u hu
    rw [hpc, hbegun, hmark, List.append_nil, List.append_nil]

/-- Total and count are those of the calls. -/
structure Sums (s : Metric τ) (tr : List (MetricOp τ)) : Prop where
  total : s.totalNs = (samples tr).sum % 2 ^ 64
  count : s.count = (counted tr).length % 2 ^ 64
  threads : Follows counted RecordPc.uncounted s tr

/-- A step after the call has been counted. -/
theorem Sums.of_frame {s s' : Metric τ} {tr ops : List (MetricOp τ)} (h : Sums s tr)
    (htotal : s'.totalNs = s.totalNs) (hcount : s'.count = s.count) (hbegun : begun ops = [])
    (hcounted : counted ops = []) (hthreads : Follows counted RecordPc.uncounted s' (tr ++ ops)) :
    Sums s' (tr ++ ops) := by
  refine ⟨?_,?_,hthreads⟩
  · rw [htotal, h.total, samples_append, samples, samples, hbegun, List.map_nil, List.append_nil]
  · rw [hcount, h.count, counted_append, hcounted, List.append_nil]

theorem Sums.step {s s' : Metric τ} {tr ops : List (MetricOp τ)} (h : Sums s tr)
    (hstep : Step s s' ops) : Sums s' (tr ++ ops) := by
  cases hstep with
  | rest =>
    rw [List.append_nil]
    exact h
  | began t ns hpc =>
    refine ⟨?_,?_,h.threads.of_frame (t := t) (counted_append _ _) ?_ ?_⟩
    · change (s.totalNs + ns) % 2 ^ 64 = _
      rw [h.total, samples_append, List.sum_append, Nat.mod_add_mod]
      rfl
    · rw [counted_append]
      exact h.count.trans (by simp [counted])
    · rw [hpc, setPc_pc_self]
      simp [RecordPc.uncounted, ofThread, begun, counted]
    · intro u hu
      exact ⟨setPc_pc_of_ne _ _ hu,by simp [ofThread, begun, counted, hu.symm],rfl⟩
  | counted t ns hpc =>
    refine ⟨?_,?_,h.threads.of_frame (t := t) (counted_append _ _) ?_ ?_⟩
    · rw [samples_append]
      exact h.total.trans (by simp [samples, begun])
    · change (s.count + 1) % 2 ^ 64 = _
      rw [h.count, counted_append, List.length_append, Nat.mod_add_mod]
      rfl
    · rw [hpc, setPc_pc_self]
      simp [RecordPc.uncounted, ofThread, begun, counted]
    · intro u hu
      refine ⟨setPc_pc_of_ne _ _ hu,?_,?_⟩ <;> simp [ofThread, begun, counted, hu.symm]
  | loaded t ns hpc =>
    refine h.of_frame rfl rfl rfl rfl (h.threads.of_frame (t := t) (counted_append _ _) ?_
      (fun u hu => ⟨setPc_pc_of_ne _ _ hu,rfl,rfl⟩))
    rw [hpc, setPc_pc_self]
    rfl
  | finished t ns currentMax hpc hle =>
    refine h.of_frame rfl rfl rfl rfl (h.threads.of_frame (t := t) (counted_append _ _) ?_
      (fun u hu => ⟨setPc_pc_of_ne _ _ hu,rfl,rfl⟩))
    rw [hpc, setPc_pc_self]
    rfl
  | raised t ns hpc hlt =>
    refine h.of_frame rfl rfl rfl rfl (h.threads.of_frame (t := t) (counted_append _ _) ?_
      (fun u hu => ⟨setPc_pc_of_ne _ _ hu,rfl,rfl⟩))
    rw [hpc, setPc_pc_self]
    rfl
  | overtaken t ns currentMax hpc hother =>
    refine h.of_frame rfl rfl rfl rfl (h.threads.of_frame (t := t) (counted_append _ _) ?_
      (fun u hu => ⟨setPc_pc_of_ne _ _ hu,rfl,rfl⟩))
    rw [hpc, setPc_pc_self]
    rfl

/-- Every call that has begun is over but for the one in progress. -/
def Ends (s : Metric τ) (tr : List (MetricOp τ)) : Prop :=
  Follows finished RecordPc.unfinished s tr

/-- A step by which a call neither begins nor ends. -/
theorem Ends.of_sample {s s' : Metric τ} {tr ops : List (MetricOp τ)} (h : Ends s tr) {t : τ}
    (hsample : (s.pc t).sample = (s'.pc t).sample) (hbegun : begun ops = [])
    (hfinished : finished ops = []) (hother : ∀ u, u ≠ t → s'.pc u = s.pc u) :
    Ends s' (tr ++ ops) := by
  refine Follows.of_frame h (t := t) (finished_append _ _) ?_ (fun u hu => ⟨hother u hu,?_,?_⟩)
  · rw [RecordPc.unfinished, RecordPc.unfinished, hsample, hbegun, hfinished]
    exact List.append_nil _
  · rw [hbegun, hfinished]
  · rw [hfinished]
    rfl

/-- A step by which a call ends. -/
theorem Ends.of_finished {s s' : Metric τ} {tr : List (MetricOp τ)} (h : Ends s tr) {t : τ} {ns : ℕ}
    (hbefore : (s.pc t).sample = some ns) (hafter : s'.pc t = .idle)
    (hother : ∀ u, u ≠ t → s'.pc u = s.pc u) : Ends s' (tr ++ [.finished t ns]) := by
  refine Follows.of_frame h (t := t) (finished_append _ _) ?_ (fun u hu => ⟨hother u hu,?_,?_⟩)
  · rw [RecordPc.unfinished, hbefore, hafter]
    simp [RecordPc.unfinished, RecordPc.sample, ofThread, begun, finished]
  · simp [ofThread, begun, finished, hu.symm]
  · simp [ofThread, finished, hu.symm]

theorem Ends.step {s s' : Metric τ} {tr ops : List (MetricOp τ)} (h : Ends s tr)
    (hstep : Step s s' ops) : Ends s' (tr ++ ops) := by
  cases hstep with
  | rest =>
    rw [List.append_nil]
    exact h
  | began t ns hpc =>
    refine Follows.of_frame h (t := t) (finished_append _ _) ?_
      (fun u hu => ⟨setPc_pc_of_ne _ _ hu,?_,rfl⟩)
    · rw [hpc, setPc_pc_self]
      simp [RecordPc.unfinished, RecordPc.sample, ofThread, begun, finished]
    · simp [ofThread, begun, finished, hu.symm]
  | counted t ns hpc =>
    refine h.of_sample (t := t) ?_ rfl rfl (fun u hu => setPc_pc_of_ne _ _ hu)
    rw [hpc, setPc_pc_self]
    rfl
  | loaded t ns hpc =>
    refine h.of_sample (t := t) ?_ rfl rfl (fun u hu => setPc_pc_of_ne _ _ hu)
    rw [hpc, setPc_pc_self]
    rfl
  | finished t ns currentMax hpc hle =>
    exact h.of_finished (by rw [hpc]; rfl) (setPc_pc_self _ _ _) (fun u hu => setPc_pc_of_ne _ _ hu)
  | raised t ns hpc hlt =>
    exact h.of_finished (by rw [hpc]; rfl) (setPc_pc_self _ _ _) (fun u hu => setPc_pc_of_ne _ _ hu)
  | overtaken t ns currentMax hpc hother =>
    refine h.of_sample (t := t) ?_ rfl rfl (fun u hu => setPc_pc_of_ne _ _ hu)
    rw [hpc, setPc_pc_self]
    rfl

/-- The sample of a call in progress is one of the samples. -/
theorem Ends.sample_mem {s : Metric τ} {tr : List (MetricOp τ)} (h : Ends s tr) {t : τ} {ns : ℕ}
    (hsample : (s.pc t).sample = some ns) : ns ∈ samples tr := by
  have hmine : ns ∈ ofThread t (begun tr) := by
    rw [h t, RecordPc.unfinished, hsample]
    exact List.mem_append_right _ (List.mem_singleton_self _)
  obtain ⟨call,hcall,rfl⟩ := List.mem_map.mp hmine
  exact List.mem_map_of_mem (List.mem_filter.mp hcall).1

/-- No step lowers the maximum. -/
theorem Step.maxNs_le {s s' : Metric τ} {ops : List (MetricOp τ)} (h : Step s s' ops) :
    s.maxNs ≤ s'.maxNs := by
  cases h with
  | raised t ns hpc hlt => exact hlt.le
  | _ => exact Nat.le_refl _

theorem maxNs_le_run (s : Metric τ) (calls : List (MetricCall τ)) :
    s.maxNs ≤ (run s calls).1.maxNs := by
  induction calls generalizing s with
  | nil => exact Nat.le_refl _
  | cons call calls ih => exact (step_cases s call).maxNs_le.trans (ih _)

/-- The maximum has reached every sample whose call is over, it is a sample itself, and no thread
works with a larger one. -/
structure Reaches (s : Metric τ) (tr : List (MetricOp τ)) : Prop where
  reached : ∀ call ∈ finished tr, call.2 ≤ s.maxNs
  taken : s.maxNs = 0 ∨ s.maxNs ∈ samples tr
  current : ∀ t ns currentMax, s.pc t = .comparing ns currentMax → currentMax ≤ s.maxNs

/-- A step of one thread, which may raise the maximum to a sample. -/
theorem Reaches.of_frame {s s' : Metric τ} {tr ops : List (MetricOp τ)} (h : Reaches s tr) {t : τ}
    (hmax : s.maxNs ≤ s'.maxNs) (hfinished : ∀ call ∈ finished ops, call.2 ≤ s'.maxNs)
    (htaken : s'.maxNs = s.maxNs ∨ s'.maxNs ∈ samples tr)
    (hcurrent : ∀ ns currentMax, s'.pc t = .comparing ns currentMax → currentMax ≤ s'.maxNs)
    (hother : ∀ u, u ≠ t → s'.pc u = s.pc u) : Reaches s' (tr ++ ops) := by
  refine ⟨?_,?_,?_⟩
  · rw [finished_append, List.forall_mem_append]
    exact ⟨fun call hcall => (h.reached call hcall).trans hmax,hfinished⟩
  · rw [samples_append]
    cases htaken with
    | inl hsame =>
      rw [hsame]
      exact h.taken.imp_right (List.mem_append_left _)
    | inr hmem => exact .inr (List.mem_append_left _ hmem)
  · intro u ns currentMax hpc
    by_cases hu : u = t
    · subst hu
      exact hcurrent ns currentMax hpc
    · rw [hother u hu] at hpc
      exact (h.current u ns currentMax hpc).trans hmax

theorem Reaches.step {s s' : Metric τ} {tr ops : List (MetricOp τ)} (h : Reaches s tr)
    (hends : Ends s tr) (hstep : Step s s' ops) : Reaches s' (tr ++ ops) := by
  have hmax := hstep.maxNs_le
  cases hstep with
  | rest =>
    rw [List.append_nil]
    exact h
  | began t ns hpc =>
    refine h.of_frame (t := t) hmax (fun _ hcall => absurd hcall List.not_mem_nil) (.inl rfl) ?_
      (fun u hu => setPc_pc_of_ne _ _ hu)
    intro n currentMax hcomparing
    rw [setPc_pc_self] at hcomparing
    contradiction
  | counted t ns hpc =>
    refine h.of_frame (t := t) hmax (fun _ hcall => absurd hcall List.not_mem_nil) (.inl rfl) ?_
      (fun u hu => setPc_pc_of_ne _ _ hu)
    intro n currentMax hcomparing
    rw [setPc_pc_self] at hcomparing
    contradiction
  | loaded t ns hpc =>
    refine h.of_frame (t := t) hmax (fun _ hcall => absurd hcall List.not_mem_nil) (.inl rfl) ?_
      (fun u hu => setPc_pc_of_ne _ _ hu)
    intro n currentMax hcomparing
    rw [setPc_pc_self] at hcomparing
    exact (RecordPc.comparing.inj hcomparing).2.ge
  | finished t ns currentMax hpc hle =>
    refine h.of_frame (t := t) hmax ?_ (.inl rfl) ?_ (fun u hu => setPc_pc_of_ne _ _ hu)
    · intro call hcall
      rw [List.mem_singleton.mp hcall]
      exact hle.trans (h.current t ns currentMax hpc)
    · intro n currentMax' hcomparing
      rw [setPc_pc_self] at hcomparing
      contradiction
  | raised t ns hpc hlt =>
    have hmem : ns ∈ samples tr := hends.sample_mem (t := t) (by rw [hpc]; rfl)
    refine h.of_frame (t := t) hmax ?_ (.inr hmem) ?_ (fun u hu => setPc_pc_of_ne _ _ hu)
    · intro call hcall
      rw [List.mem_singleton.mp hcall]
      exact Nat.le_refl _
    · intro n currentMax' hcomparing
      rw [setPc_pc_self] at hcomparing
      contradiction
  | overtaken t ns currentMax hpc hother =>
    refine h.of_frame (t := t) hmax (fun _ hcall => absurd hcall List.not_mem_nil) (.inl rfl) ?_
      (fun u hu => setPc_pc_of_ne _ _ hu)
    intro n currentMax' hcomparing
    rw [setPc_pc_self] at hcomparing
    exact (RecordPc.comparing.inj hcomparing).2.ge

/-- Every call of a thread has loaded larger and larger maxima, all of them samples but for the
initial zero. -/
structure Rising (s : Metric τ) (tr : List (MetricOp τ)) (t : τ) : Prop where
  latest : (s.pc t).Loaded (loads t tr)
  falling : ∀ maxima ∈ loads t tr, maxima.Pairwise (· > ·)
  known : ∀ maxima ∈ loads t tr, ∀ m ∈ maxima, m = 0 ∨ m ∈ samples tr

/-- A step of a thread whose calls load nothing new. -/
theorem Rising.of_loads {s s' : Metric τ} {tr ops : List (MetricOp τ)} {t : τ} (h : Rising s tr t)
    (hloads : loads t (tr ++ ops) = loads t tr) (hlatest : (s'.pc t).Loaded (loads t tr)) :
    Rising s' (tr ++ ops) t := by
  refine ⟨?_,?_,?_⟩
  · rw [hloads]
    exact hlatest
  · rw [hloads]
    exact h.falling
  · rw [hloads, samples_append]
    exact fun maxima hmaxima m hm =>
      (h.known maxima hmaxima m hm).imp_right (List.mem_append_left _)

/-- A step of a thread that loads a maximum, larger than what the call has loaded before. -/
theorem Rising.of_load {s s' : Metric τ} {tr ops : List (MetricOp τ)} {t : τ} (h : Rising s tr t)
    {earlier : List ℕ} {m ns : ℕ} (hhead : (loads t tr).head? = some earlier)
    (hloads : loads t (tr ++ ops) = (loads t tr).modifyHead (m :: ·))
    (hpc : s'.pc t = .comparing ns m) (hlarger : ∀ m' ∈ earlier, m' < m)
    (hm : m = 0 ∨ m ∈ samples tr) : Rising s' (tr ++ ops) t := by
  obtain ⟨calls,hcalls⟩ := List.head?_eq_some_iff.mp hhead
  rw [hcalls, List.modifyHead_cons] at hloads
  have hfalling := h.falling
  have hknown := h.known
  rw [hcalls, List.forall_mem_cons] at hfalling hknown
  refine ⟨?_,?_,?_⟩
  · rw [hpc, hloads]
    exact ⟨earlier,rfl⟩
  · rw [hloads, List.forall_mem_cons]
    exact ⟨List.pairwise_cons.mpr ⟨hlarger,hfalling.1⟩,hfalling.2⟩
  · rw [hloads, samples_append, List.forall_mem_cons, List.forall_mem_cons]
    refine ⟨⟨hm.imp_right (List.mem_append_left _),?_⟩,?_⟩
    · exact fun m' hm' => (hknown.1 m' hm').imp_right (List.mem_append_left _)
    · exact fun maxima hmaxima m' hm' =>
        (hknown.2 maxima hmaxima m' hm').imp_right (List.mem_append_left _)

/-- A step of another thread. -/
theorem Rising.of_ne {s s' : Metric τ} {tr : List (MetricOp τ)} {u : τ} (h : Rising s tr u)
    (op : MetricOp τ) (hload : load u (loads u tr) op = loads u tr) (hpc : s'.pc u = s.pc u) :
    Rising s' (tr ++ [op]) u := by
  refine h.of_loads ((loads_snoc u tr op).trans hload) ?_
  rw [hpc]
  exact h.latest

theorem Rising.step {s s' : Metric τ} {tr ops : List (MetricOp τ)} (h : ∀ t, Rising s tr t)
    (hreaches : Reaches s tr) (hstep : Step s s' ops) (u : τ) : Rising s' (tr ++ ops) u := by
  cases hstep with
  | rest =>
    rw [List.append_nil]
    exact h u
  | began t ns hpc =>
    by_cases hu : u = t
    · subst hu
      have hloads : loads u (tr ++ [.began u ns]) = [] :: loads u tr :=
        (loads_snoc u tr _).trans (if_pos rfl)
      refine ⟨?_,?_,?_⟩
      · rw [setPc_pc_self, hloads]
        rfl
      · rw [hloads, List.forall_mem_cons]
        exact ⟨List.Pairwise.nil,(h u).falling⟩
      · rw [hloads, samples_append, List.forall_mem_cons]
        refine ⟨fun _ hm => absurd hm List.not_mem_nil,?_⟩
        exact fun maxima hmaxima m hm =>
          ((h u).known maxima hmaxima m hm).imp_right (List.mem_append_left _)
    · exact (h u).of_ne _ (if_neg (Ne.symm hu)) (setPc_pc_of_ne _ _ hu)
  | counted t ns hpc =>
    by_cases hu : u = t
    · subst hu
      have hlatest := (h u).latest
      rw [hpc] at hlatest
      refine (h u).of_loads (loads_snoc u tr _) ?_
      rw [setPc_pc_self]
      exact hlatest
    · exact (h u).of_ne _ rfl (setPc_pc_of_ne _ _ hu)
  | loaded t ns hpc =>
    by_cases hu : u = t
    · subst hu
      have hlatest := (h u).latest
      rw [hpc] at hlatest
      exact (h u).of_load hlatest ((loads_snoc u tr _).trans (if_pos rfl)) (setPc_pc_self _ _ _)
        (fun _ hm => absurd hm List.not_mem_nil) hreaches.taken
    · exact (h u).of_ne _ (if_neg (Ne.symm hu)) (setPc_pc_of_ne _ _ hu)
  | finished t ns currentMax hpc hle =>
    by_cases hu : u = t
    · subst hu
      refine (h u).of_loads (loads_snoc u tr _) ?_
      rw [setPc_pc_self]
      trivial
    · exact (h u).of_ne _ rfl (setPc_pc_of_ne _ _ hu)
  | raised t ns hpc hlt =>
    by_cases hu : u = t
    · subst hu
      refine (h u).of_loads (loads_snoc u tr _) ?_
      rw [setPc_pc_self]
      trivial
    · exact (h u).of_ne _ rfl (setPc_pc_of_ne _ _ hu)
  | overtaken t ns currentMax hpc hother =>
    by_cases hu : u = t
    · subst hu
      have hlatest := (h u).latest
      rw [hpc] at hlatest
      obtain ⟨earlier,hhead⟩ := hlatest
      -- the maximum has grown since the call loaded it, and what it loaded before was smaller still
      have hgrown : currentMax < s.maxNs :=
        lt_of_le_of_ne (hreaches.current u ns currentMax hpc) (Ne.symm hother)
      have hfalling := (h u).falling _ (List.mem_of_mem_head? hhead)
      refine (h u).of_load hhead ((loads_snoc u tr _).trans (if_pos rfl)) (setPc_pc_self _ _ _) ?_
        hreaches.taken
      rw [List.forall_mem_cons]
      exact ⟨hgrown,fun m hm => ((List.pairwise_cons.mp hfalling).1 m hm).trans hgrown⟩
    · exact (h u).of_ne _ (if_neg (Ne.symm hu)) (setPc_pc_of_ne _ _ hu)

/-- What holds after every run. -/
structure Consistent (s : Metric τ) (tr : List (MetricOp τ)) : Prop where
  sums : Sums s tr
  ends : Ends s tr
  reaches : Reaches s tr
  rising : ∀ t, Rising s tr t

theorem Consistent.step {s s' : Metric τ} {tr ops : List (MetricOp τ)} (h : Consistent s tr)
    (hstep : Step s s' ops) : Consistent s' (tr ++ ops) :=
  ⟨h.sums.step hstep,h.ends.step hstep,h.reaches.step h.ends hstep,
    Rising.step h.rising h.reaches hstep⟩

theorem consistent_init : Consistent (init (τ := τ)) [] := by
  refine ⟨⟨rfl,rfl,fun _ => rfl⟩,fun _ => rfl,⟨?_,.inl rfl,?_⟩,fun t => ⟨trivial,?_,?_⟩⟩
  · exact fun _ hcall => absurd hcall List.not_mem_nil
  · intro t ns currentMax hpc
    contradiction
  · exact fun _ hmaxima => absurd hmaxima List.not_mem_nil
  · exact fun _ hmaxima => absurd hmaxima List.not_mem_nil

theorem consistent_after (calls : List (MetricCall τ)) :
    Consistent (run init calls).1 (run init calls).2 :=
  run_invariant consistent_init (fun _ _ _ _ h hstep => h.step hstep) calls

/-- Lists of calls that agree thread by thread have the same length. -/
theorem length_eq_of_threads {xs ys : List (τ × ℕ)}
    (h : ∀ t, ofThread t xs = ofThread t ys) : xs.length = ys.length := by
  have hcount : ∀ (t : τ) (calls : List (τ × ℕ)),
      (calls.map Prod.fst).count t = (ofThread t calls).length := by
    intro t calls
    rw [ofThread, List.length_map, ← List.countP_eq_length_filter, List.count, List.countP_map]
    rfl
  have hperm : (xs.map Prod.fst).Perm (ys.map Prod.fst) := by
    rw [List.perm_iff_count]
    intro t
    rw [hcount, hcount, h t]
  simpa using hperm.length_eq

/-- The largest sample, zero without one. -/
def largest (samples : List ℕ) : ℕ := samples.foldr max 0

theorem le_largest {samples : List ℕ} {ns : ℕ} (h : ns ∈ samples) : ns ≤ largest samples := by
  induction samples with
  | nil => exact absurd h List.not_mem_nil
  | cons x samples ih =>
    cases List.mem_cons.mp h with
    | inl hfirst =>
      rw [hfirst]
      exact le_max_left _ _
    | inr hrest => exact (ih hrest).trans (le_max_right _ _)

theorem largest_le {samples : List ℕ} {n : ℕ} (h : ∀ ns ∈ samples, ns ≤ n) :
    largest samples ≤ n := by
  induction samples with
  | nil => exact Nat.zero_le n
  | cons x samples ih =>
    exact max_le (h x List.mem_cons_self) (ih (fun ns hns => h ns (List.mem_cons_of_mem _ hns)))

/-- Once no call is in progress, total, count and maximum are those of all samples, the first two up
to overflow. -/
theorem quiet_after (calls : List (MetricCall τ)) (hquiet : (run init calls).1.Quiet) :
    (run init calls).1.totalNs = (samples (run init calls).2).sum % 2 ^ 64 ∧
    (run init calls).1.count = (samples (run init calls).2).length % 2 ^ 64 ∧
    (run init calls).1.maxNs = largest (samples (run init calls).2) := by
  have hafter := consistent_after calls
  refine ⟨hafter.sums.total,?_,?_⟩
  · have hthreads : ∀ t, ofThread t (begun (run init calls).2) =
        ofThread t (counted (run init calls).2) := by
      intro t
      rw [hafter.sums.threads t, hquiet t]
      exact List.append_nil _
    rw [hafter.sums.count, ← length_eq_of_threads hthreads, samples, List.length_map]
  · apply le_antisymm
    · cases hafter.reaches.taken with
      | inl hzero =>
        rw [hzero]
        exact Nat.zero_le _
      | inr hmem => exact le_largest hmem
    · apply largest_le
      intro ns hns
      obtain ⟨⟨t,n⟩,hcall,rfl⟩ := List.mem_map.mp hns
      have hmine : n ∈ ofThread t (begun (run init calls).2) :=
        List.mem_map.mpr ⟨(t,n),List.mem_filter.mpr ⟨hcall,by simp⟩,rfl⟩
      have hends := hafter.ends t
      rw [hquiet t] at hends
      rw [hends.trans (List.append_nil _)] at hmine
      obtain ⟨call,hover,rfl⟩ := List.mem_map.mp hmine
      exact hafter.reaches.reached call (List.mem_filter.mp hover).1

/-- A call that has loaded `first` and then again whenever its exchange failed has done so at most
once for every larger sample. -/
theorem Rising.retries {s : Metric τ} {tr : List (MetricOp τ)} {t : τ} (h : Rising s tr t)
    {retries : List ℕ} {first : ℕ} (hmem : retries ++ [first] ∈ loads t tr) :
    retries.Pairwise (· > ·) ∧ (∀ m ∈ retries, first < m ∧ m ∈ samples tr) ∧
    retries.length ≤ (samples tr).dedup.countP (fun m => first < m) := by
  obtain ⟨hfalling,-,hfirst⟩ := List.pairwise_append.mp (h.falling _ hmem)
  have hlarger : ∀ m ∈ retries, first < m ∧ m ∈ samples tr := by
    intro m hm
    have hlt := hfirst m hm first (List.mem_singleton_self _)
    refine ⟨hlt,?_⟩
    cases h.known _ hmem m (List.mem_append_left _ hm) with
    | inl hzero => omega
    | inr hsample => exact hsample
  refine ⟨hfalling,hlarger,?_⟩
  rw [List.countP_eq_length_filter]
  apply List.Subperm.length_le
  apply List.subperm_of_subset (hfalling.imp Nat.ne_of_gt)
  intro m hm
  exact List.mem_filter.mpr ⟨List.mem_dedup.mpr (hlarger m hm).2,by simpa using (hlarger m hm).1⟩

/-- Recording is exact and lock-free, whatever the threads, their interleaving and the spurious
failures. The maximum never falls; it is zero or a sample, and every call is over and bounded by it
but for the one its thread is in. A call loads the maximum anew at most once for every larger
sample. Once no call is in progress the statistics are those of all samples, unless a counter has
come round. -/
theorem metric_exact (calls : List (MetricCall τ)) :
    let final := run init calls
    let all := samples final.2
    (∀ more, final.1.maxNs ≤ (run init (calls ++ more)).1.maxNs) ∧
    (final.1.maxNs = 0 ∨ final.1.maxNs ∈ all) ∧
    ((∀ call ∈ finished final.2, call.2 ≤ final.1.maxNs) ∧
      ∀ t, ofThread t (begun final.2) =
        ofThread t (finished final.2) ++ (final.1.pc t).sample.toList) ∧
    (∀ t retries first, retries ++ [first] ∈ loads t final.2 →
      retries.Pairwise (· > ·) ∧ (∀ m ∈ retries, first < m ∧ m ∈ all) ∧
      retries.length ≤ all.dedup.countP (fun m => first < m)) ∧
    (final.1.Quiet → all.sum < 2 ^ 64 → all.length < 2 ^ 64 →
      final.1.getStats = ⟨(all.sum : ℚ) / all.length,largest all,all.length⟩) := by
  have hafter := consistent_after calls
  dsimp only
  refine ⟨?_,hafter.reaches.taken,⟨hafter.reaches.reached,hafter.ends⟩,
    fun t _ _ hmem => (hafter.rising t).retries hmem,?_⟩
  · intro more
    have hmore : (run init (calls ++ more)).1 = (run (run init calls).1 more).1 := by
      rw [run, machine.run_append]
      rfl
    rw [hmore]
    exact maxNs_le_run _ more
  · intro hquiet hsum hlength
    obtain ⟨htotal,hcount,hmax⟩ := quiet_after calls hquiet
    rw [Nat.mod_eq_of_lt hsum] at htotal
    rw [Nat.mod_eq_of_lt hlength] at hcount
    rw [getStats, htotal, hcount, hmax]
    split_ifs with hnone
    · rw [List.length_eq_zero_iff.mp hnone]
      simp [largest]
    · rfl

end Metric
end HftEngine.Core
