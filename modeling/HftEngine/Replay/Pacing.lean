import HftEngine.Replay.Malformed
import Mathlib.Algebra.Order.Floor.Ring
import Mathlib.Data.List.Chain
import Mathlib.Data.Rat.Floor
import Mathlib.Tactic.Linarith
import Mathlib.Tactic.NormNum

/-! The sleeps between the rows of a replay (replay/replay_engine.cpp). Before it pushes a row the
loop sleeps for the time since the row before, divided by the speed in doubles; but of a gap of more
than a second it sleeps a hundredth of a second only. `undefined` is what the conversion to
`long long` gives for a number that does not fit. -/
set_option linter.unusedSectionVars false

namespace HftEngine.Replay
open HftEngine.Core Text Binary64
variable {α : Type} [ReadNumber α]

/-- The conversion of a `long long` to `uint64_t`. -/
def toUInt64 (ts : ℤ) : ℕ := (ts % 2 ^ 64).toNat

/-- `static_cast<long long>` of a number that is not negative. -/
def castLongLong (undefined : Double → ℤ) : Double → ℤ
  | .finite x h => if x < 2 ^ 63 then ⌊x⌋ else undefined (.finite x h)
  | x => undefined x

section
variable (undefined : Double → ℤ) (speed : Double)

/-- The nanoseconds that the loop sleeps before it pushes a row; a negative sleep is none. -/
def sleepFor (lastEventTs : ℕ) (md : MarketDataEvent α) : ℕ :=
  if 0 < lastEventTs ∧ 0 < speed then
    let deltaNs := if lastEventTs < toUInt64 md.exchangeTs then toUInt64 md.exchangeTs - lastEventTs
      else 0
    if 0 < deltaNs then
      let sleepDuration := castLongLong undefined (.round deltaNs / speed)
      if 1000000000 < sleepDuration then 10000000 else sleepDuration.toNat
    else 0
  else 0

/-- The sleeps before these rows, after a row with the given timestamp. -/
def sleeps : ℕ → List (MarketDataEvent α) → List ℕ
  | _, [] => []
  | lastEventTs, md :: rest =>
    sleepFor undefined speed lastEventTs md :: sleeps (toUInt64 md.exchangeTs) rest

/-- The variable `last_event_ts` after these rows. -/
def lastEventTsAfter (lastEventTs : ℕ) (mds : List (MarketDataEvent α)) : ℕ :=
  mds.foldl (fun _ md => toUInt64 md.exchangeTs) lastEventTs

@[simp] theorem lastEventTsAfter_cons (lastEventTs : ℕ) (md : MarketDataEvent α)
    (rest : List (MarketDataEvent α)) :
    lastEventTsAfter lastEventTs (md :: rest) =
      lastEventTsAfter (toUInt64 md.exchangeTs) rest := rfl

theorem lastEventTsAfter_concat (lastEventTs : ℕ) (mds : List (MarketDataEvent α))
    (md : MarketDataEvent α) :
    lastEventTsAfter lastEventTs (mds ++ [md]) = toUInt64 md.exchangeTs := by
  rw [lastEventTsAfter, List.foldl_append]
  rfl

theorem sleeps_concat (lastEventTs : ℕ) (mds : List (MarketDataEvent α)) (md : MarketDataEvent α) :
    sleeps undefined speed lastEventTs (mds ++ [md]) =
      sleeps undefined speed lastEventTs mds ++
        [sleepFor undefined speed (lastEventTsAfter lastEventTs mds) md] := by
  induction mds generalizing lastEventTs with
  | nil => rfl
  | cons first mds ih =>
    rw [List.cons_append, sleeps, ih, sleeps, List.cons_append, lastEventTsAfter_cons]

end

/-- The replay with its local `last_event_ts`. -/
structure PacedReplay (α : Type) where
  engine : ReplayEngine
  pc : RunPc α
  lastEventTs : ℕ

inductive PacedObs (α : Type)
  | slept (ns : ℕ)
  | pushed (md : MarketDataEvent α)

def PacedObs.sleptOf (tr : List (PacedObs α)) : List ℕ :=
  tr.filterMap (fun | .slept ns => some ns | .pushed _ => none)

def PacedObs.pushedOf (tr : List (PacedObs α)) : List (MarketDataEvent α) :=
  tr.filterMap (fun | .slept _ => none | .pushed md => some md)

namespace PacedReplay
open PacedObs

def init (file : Option (List Line)) : PacedReplay α := ⟨.init file,.starting,0⟩

/-- The rows that have been read so far, the one in flight included. -/
def read (s : PacedReplay α) (tr : List (PacedObs α)) : List (MarketDataEvent α) :=
  pushedOf tr ++ s.pc.inFlight

/-- The replay thread and the threads that may stop it; observed are the sleeps and the pushes. -/
def paced (undefined : Double → ℤ) (speed : Double) :
    Machine (PacedReplay α) (ReplayStep α) (PacedObs α) where
  step s
    | .stop => ({ s with engine := s.engine.stop },[])
    | .run stale =>
      let next := s.engine.runStep stale s.pc
      match s.pc, next.2 with
      | .looping, .pushing md =>
        (⟨next.1,next.2,toUInt64 md.exchangeTs⟩,
          [.slept (sleepFor undefined speed s.lastEventTs md)])
      | pc, _ => (⟨next.1,next.2,s.lastEventTs⟩,pc.inFlight.map .pushed)

section Step
variable (undefined : Double → ℤ) (speed : Double)

/-- A step of the paced replay is one of the replay. -/
theorem paced_step (s : PacedReplay α) (l : ReplayStep α) :
    let next := (paced undefined speed).step s l
    (next.1.engine,next.1.pc) = (stoppable.step (s.engine,s.pc) l).1 ∧
      pushedOf next.2 = (stoppable.step (s.engine,s.pc) l).2 := by
  cases l with
  | stop => exact ⟨rfl,rfl⟩
  | run stale =>
    dsimp only [paced, stoppable]
    split
    · rename_i md hpc hnext
      rw [hpc]
      exact ⟨rfl,rfl⟩
    · refine ⟨rfl,?_⟩
      cases s.pc <;> rfl

/-- So is a run. -/
theorem paced_run (s : PacedReplay α) (steps : List (ReplayStep α)) :
    let out := (paced undefined speed).run s steps
    (out.1.engine,out.1.pc) = (stoppable.run (s.engine,s.pc) steps).1 ∧
      pushedOf out.2 = (stoppable.run (s.engine,s.pc) steps).2 := by
  induction steps generalizing s with
  | nil => exact ⟨rfl,rfl⟩
  | cons l steps ih =>
    obtain ⟨hstate,hpushed⟩ := paced_step undefined speed s l
    obtain ⟨hfinal,hrest⟩ := ih ((paced undefined speed).step s l).1
    rw [hstate] at hfinal hrest
    refine ⟨hfinal,?_⟩
    rw [Machine.run_cons, Machine.run_cons, ← hpushed, ← hrest]
    exact List.filterMap_append

/-- What has been slept belongs to the rows that have been read. -/
structure Paces (s : PacedReplay α) (tr : List (PacedObs α)) : Prop where
  slept : sleptOf tr = sleeps undefined speed 0 (s.read tr)
  last : s.lastEventTs = lastEventTsAfter 0 (s.read tr)

theorem read_append (s : PacedReplay α) (tr new : List (PacedObs α)) :
    s.read (tr ++ new) = pushedOf tr ++ pushedOf new ++ s.pc.inFlight := by
  rw [read, pushedOf, List.filterMap_append]
  rfl

variable {undefined speed}

theorem pushedOf_map (mds : List (MarketDataEvent α)) : pushedOf (mds.map .pushed) = mds := by
  rw [pushedOf, List.filterMap_map]
  exact List.filterMap_some

/-- A row is in flight once it has been read. -/
theorem inFlight_runStep (stale : MarketDataEvent α) (e : ReplayEngine) (pc : RunPc α) :
    (∃ md, pc = .looping ∧ (e.runStep stale pc).2 = .pushing md) ∨
      (e.runStep stale pc).2.inFlight = [] := by
  cases hnext : ReplayEngine.nextLine? (e,pc) with
  | none => exact .inr (ReplayEngine.runStep_of_nextLine?_none stale hnext).2.1
  | some line =>
    obtain ⟨rfl,hrunning,rest,hfile⟩ := ReplayEngine.nextLine?_eq_some.mp hnext
    rw [ReplayEngine.runStep_of_nextLine?_some stale hrunning hfile]
    rcases parseLine stale line with error | none | md
    · exact .inr rfl
    · exact .inr rfl
    · exact .inl ⟨md,rfl,rfl⟩

/-- A step that reads no row sleeps for none. -/
theorem Paces.of_quiet {s s' : PacedReplay α} {tr new : List (PacedObs α)}
    (h : Paces undefined speed s tr) (hslept : sleptOf new = [])
    (hread : pushedOf new ++ s'.pc.inFlight = s.pc.inFlight)
    (hlast : s'.lastEventTs = s.lastEventTs) : Paces undefined speed s' (tr ++ new) := by
  have hsame : s'.read (tr ++ new) = s.read tr := by
    rw [read_append, List.append_assoc, hread, read]
  refine ⟨?_,?_⟩
  · rw [hsame, ← h.slept, sleptOf, List.filterMap_append]
    exact (congrArg (sleptOf tr ++ ·) hslept).trans (List.append_nil _)
  · rw [hlast, hsame, h.last]

theorem Paces.step {s : PacedReplay α} {tr : List (PacedObs α)} (h : Paces undefined speed s tr)
    (l : ReplayStep α) : Paces undefined speed ((paced undefined speed).step s l).1
      (tr ++ ((paced undefined speed).step s l).2) := by
  cases l with
  | stop => exact h.of_quiet rfl rfl rfl
  | run stale =>
    dsimp only [paced]
    split
    · rename_i md hpc hnext
      have hbefore : s.read tr = pushedOf tr := by
        rw [read, hpc]
        exact List.append_nil _
      refine ⟨?_,?_⟩
      · rw [read_append, hnext]
        change _ = sleeps undefined speed 0 (pushedOf tr ++ [] ++ [md])
        rw [List.append_nil, sleeps_concat, ← hbefore, ← h.slept, ← h.last]
        exact List.filterMap_append
      · rw [read_append, hnext]
        change _ = lastEventTsAfter 0 (pushedOf tr ++ [] ++ [md])
        rw [lastEventTsAfter_concat]
    · rename_i hquiet
      refine h.of_quiet ?_ ?_ rfl
      · cases s.pc <;> rfl
      · rw [pushedOf_map]
        rcases inFlight_runStep stale s.engine s.pc with ⟨md,hpc,hnext⟩ | hnone
        · exact (hquiet md hpc hnext).elim
        · rw [hnone, List.append_nil]

theorem run_paces (undefined : Double → ℤ) (speed : Double) (file : Option (List Line))
    (steps : List (ReplayStep α)) :
    let out := (paced undefined speed).run (init file) steps
    Paces undefined speed out.1 out.2 := by
  have hstart : Paces undefined speed (init (α := α) file) [] := ⟨rfl,rfl⟩
  exact (paced undefined speed).run_invariant (P := fun _ _ => True)
    (I := fun s tr => Paces undefined speed s tr) (fun _ _ l h _ => h.step l) hstart
    ((paced undefined speed).along_of_forall (fun _ _ => trivial) _ steps)

end Step

section Times

/-- By how much these timestamps go forward; the steps backward do not count. -/
def forward : List ℤ → ℤ
  | first :: second :: rest => max 0 (second - first) + forward (second :: rest)
  | _ => 0

/-- The nanoseconds between two timestamps at this speed, as the loop computes them. -/
def gapNs (speed : Double) (first second : ℤ) : Double :=
  .round ((second - first : ℤ) : ℚ) / speed

/-- More than a second in whole nanoseconds. -/
def Huge (gap : Double) : Prop := 1000000001 ≤ gap

instance (gap : Double) : Decidable (Huge gap) := inferInstanceAs (Decidable (1000000001 ≤ gap))

/-- How many gaps are longer than a second at this speed. -/
def hugeGaps (speed : Double) : List ℤ → ℕ
  | first :: second :: rest =>
    (if first < second ∧ Huge (gapNs speed first second) then 1 else 0) +
      hugeGaps speed (second :: rest)
  | _ => 0

/-- The time between two rows is a `long long` at this speed. -/
def Fits (speed : Double) (first second : ℤ) : Prop :=
  first < second → gapNs speed first second < 9223372036854775808

instance (speed : Double) (first second : ℤ) : Decidable (Fits speed first second) :=
  inferInstanceAs (Decidable (_ → _))

theorem toUInt64_of_range {ts : ℤ} (hpositive : 0 < ts) (hmax : ts < 2 ^ 63) :
    (toUInt64 ts : ℤ) = ts := by
  unfold toUInt64
  omega

theorem inRange_limit : InRange (2 ^ 63) := by
  refine ⟨⟨1,63,by norm_num,by norm_num,by norm_num⟩,?_⟩
  rw [abs_of_pos (by norm_num)]
  exact pow_lt_pow_right₀ one_lt_two (by norm_num)

/-- The numbers below the limit of `long long` are far from overflow. -/
theorem abs_nearest_lt_overflow {q : ℚ} (hq : 0 ≤ q) (hle : q ≤ 2 ^ 63) :
    |nearest q| < overflow := by
  rw [abs_of_nonneg (nearest_nonneg hq)]
  calc nearest q ≤ nearest (2 ^ 63) := nearest_mono hle
    _ = 2 ^ 63 := nearest_of_representable inRange_limit.representable
    _ < overflow := (le_abs_self _).trans_lt inRange_limit.bounded

variable {speed : ℚ} {hin : InRange speed}

/-- A gap that fits is its exact length but for a relative error of two roundings. -/
theorem gapNs_error (hspeed : 0 < speed) {first second : ℤ} (hlater : first < second)
    (hdelta : second - first ≤ 2 ^ 63) (hfits : Fits (.finite speed hin) first second) :
    let gap := ((second - first : ℤ) : ℚ) / speed
    ∃ x h, gapNs (.finite speed hin) first second = .finite x h ∧ 0 ≤ x ∧ x < 2 ^ 63 ∧
      |x - gap| ≤ gap / 2 ^ 51 + 2 ^ (-1075 : ℤ) := by
  intro gap
  have hone : (1 : ℚ) ≤ ((second - first : ℤ) : ℚ) := by exact_mod_cast sub_pos.mpr hlater
  have hnonneg : (0 : ℚ) ≤ ((second - first : ℤ) : ℚ) := zero_le_one.trans hone
  have hbound := abs_nearest_lt_overflow hnonneg (by exact_mod_cast hdelta)
  have hgap : gapNs (.finite speed hin) first second =
      .round (nearest ((second - first : ℤ) : ℚ) / speed) := by
    rw [gapNs, Double.round, dif_pos hbound]
    exact if_neg hspeed.ne'
  have hlimit : (9223372036854775808 : Double) = .finite (2 ^ 63) inRange_limit :=
    (congrArg Double.round (by norm_num)).trans (Double.round_of_inRange inRange_limit)
  have hquotient := div_nonneg (nearest_nonneg hnonneg) hspeed.le
  have hsmall := hfits hlater
  rw [hgap, hlimit] at hsmall
  rw [hgap]
  by_cases hfinite : |nearest (nearest ((second - first : ℤ) : ℚ) / speed)| < overflow
  · rw [Double.round, dif_pos hfinite] at hsmall ⊢
    exact ⟨_,_,rfl,nearest_nonneg hquotient,(Double.finite_lt_finite _ _).mp hsmall,
      abs_nearest_div_sub_le hone hspeed⟩
  · rw [Double.round, dif_neg hfinite, decide_eq_false (not_lt.mpr hquotient)] at hsmall
    contradiction

variable (undefined : Double → ℤ)

/-- For a step backward nothing is slept. -/
theorem sleepFor_backward (speed : Double) {first : ℤ} {md : MarketDataEvent α}
    (hpositive : 0 < first) (hfirst : first < 2 ^ 63) (hts : 0 < md.exchangeTs)
    (hle : md.exchangeTs ≤ first) : sleepFor undefined speed (toUInt64 first) md = 0 := by
  have hlast := toUInt64_of_range hpositive hfirst
  have hnext := toUInt64_of_range hts (lt_of_le_of_lt hle hfirst)
  have hearlier : ¬toUInt64 first < toUInt64 md.exchangeTs := by omega
  simp [sleepFor, hearlier]

/-- The sleep for a step forward is the computed gap in whole nanoseconds, unless it is huge. -/
theorem sleepFor_forward (hspeed : 0 < speed) {first : ℤ} {md : MarketDataEvent α}
    (hpositive : 0 < first) (hlater : first < md.exchangeTs) (hmax : md.exchangeTs < 2 ^ 63)
    {x : ℚ} {h : InRange x} (hx : x < 2 ^ 63)
    (hgap : gapNs (.finite speed hin) first md.exchangeTs = .finite x h) :
    sleepFor undefined (.finite speed hin) (toUInt64 first) md =
      if 1000000000 < ⌊x⌋ then 10000000 else ⌊x⌋.toNat := by
  have hfirst := toUInt64_of_range hpositive (hlater.trans hmax)
  have hnext := toUInt64_of_range (hpositive.trans hlater) hmax
  have hstarted : 0 < toUInt64 first := by omega
  have hforward : toUInt64 first < toUInt64 md.exchangeTs := by omega
  have hpositiveSpeed : (0 : Double) < .finite speed hin := by
    rw [Double.zero_eq]
    exact (Double.finite_lt_finite _ _).mpr hspeed
  have hdelta : Double.round ((toUInt64 md.exchangeTs - toUInt64 first : ℕ) : ℚ) /
      .finite speed hin = .finite x h := by
    have hint : ((toUInt64 md.exchangeTs - toUInt64 first : ℕ) : ℤ) = md.exchangeTs - first := by
      omega
    rw [← Int.cast_natCast, hint]
    exact hgap
  have hcast : castLongLong undefined (.finite x h) = ⌊x⌋ := if_pos hx
  simp only [sleepFor, if_pos (And.intro hstarted hpositiveSpeed), if_pos hforward, hdelta, hcast,
    if_pos (Nat.sub_pos_of_lt hforward)]

/-- The timestamps of these rows. -/
abbrev times (mds : List (MarketDataEvent α)) : List ℤ := mds.map MarketDataEvent.exchangeTs

/-- A positive timestamp that fits. -/
def Timestamp (ts : ℤ) : Prop := 0 < ts ∧ ts < 2 ^ 63

/-- One row more: what its gap and its sleep add on both sides. -/
theorem sleepFor_bounds (hspeed : 0 < speed) {first : ℤ} {md : MarketDataEvent α}
    (hfirst : Timestamp first) (hts : Timestamp md.exchangeTs)
    (hfits : Fits (.finite speed hin) first md.exchangeTs) :
    let gap := ((max 0 (md.exchangeTs - first) : ℤ) : ℚ) / speed
    let huge := if first < md.exchangeTs ∧ Huge (gapNs (.finite speed hin) first md.exchangeTs)
      then 1 else 0
    let sleep := sleepFor undefined (.finite speed hin) (toUInt64 first) md
    sleep ≤ 1000000000 ∧ (sleep : ℚ) + 990000000 * (huge : ℕ) ≤ gap + 1 / 10 ^ 6 ∧
      (huge = 0 → gap ≤ sleep + (1 + 1 / 10 ^ 6)) := by
  intro gap huge sleep
  by_cases hlater : first < md.exchangeTs
  · have hmax : max 0 (md.exchangeTs - first) = md.exchangeTs - first :=
      max_eq_right (sub_nonneg.mpr hlater.le)
    have hgap : gap = ((md.exchangeTs - first : ℤ) : ℚ) / speed := by
      simp only [gap, hmax]
    obtain ⟨hfirst0,-⟩ := hfirst
    obtain ⟨x,h,hcomputed,hx0,hx,herror⟩ := gapNs_error hspeed hlater
      (by linarith [hts.2]) hfits
    have hsleep := sleepFor_forward undefined hspeed hfirst0 hlater hts.2 hx hcomputed
    have htiny : (2 : ℚ) ^ (-1075 : ℤ) ≤ 2 ^ (-30 : ℤ) :=
      zpow_le_zpow_right₀ one_le_two (by norm_num)
    rw [show (2 : ℚ) ^ (-30 : ℤ) = 1 / 2 ^ 30 by norm_num] at htiny
    rw [← hgap] at herror
    obtain ⟨hlow,hhigh⟩ := abs_le.mp herror
    generalize (2 : ℚ) ^ (-1075 : ℤ) = tiny at htiny hlow hhigh
    have hhuge : Huge (gapNs (.finite speed hin) first md.exchangeTs) ↔ 1000000001 ≤ x := by
      have hliteral : InRange 1000000001 :=
        ⟨⟨1000000001,0,by norm_num,by norm_num,by norm_num⟩,by decide +kernel⟩
      rw [hcomputed, Huge, show (1000000001 : Double) = .finite 1000000001 hliteral from
        Double.round_of_inRange hliteral]
      exact Double.finite_le_finite _ _
    by_cases hlong : 1000000001 ≤ x
    · have hone : huge = 1 := if_pos ⟨hlater,hhuge.mpr hlong⟩
      have hfloor : 1000000001 ≤ ⌊x⌋ := Int.le_floor.mpr (by exact_mod_cast hlong)
      have hten : sleep = 10000000 := hsleep.trans (if_pos (by omega))
      rw [hone, hten]
      refine ⟨by norm_num,?_,fun h => by contradiction⟩
      norm_num
      linarith
    · have hnone : huge = 0 := if_neg (fun h => hlong (hhuge.mp h.2))
      have hfloor : ⌊x⌋ < 1000000001 := Int.floor_lt.mpr (by exact_mod_cast not_le.mp hlong)
      have hwhole : sleep = ⌊x⌋.toNat := hsleep.trans (if_neg (by omega))
      have hnat : (sleep : ℚ) = (⌊x⌋ : ℚ) := by
        rw [hwhole, ← Int.cast_natCast, Int.toNat_of_nonneg (Int.floor_nonneg.mpr hx0)]
      have hle := Int.floor_le x
      have hlt := Int.lt_floor_add_one x
      rw [hnone, hnat]
      refine ⟨by omega,?_,fun _ => ?_⟩
      · norm_num
        linarith [not_le.mp hlong]
      · linarith [not_le.mp hlong]
  · have hle := not_lt.mp hlater
    have hsleep : sleep = 0 :=
      sleepFor_backward undefined (.finite speed hin) hfirst.1 hfirst.2 hts.1 hle
    have hgap : gap = 0 := by
      have hmax : max 0 (md.exchangeTs - first) = 0 := max_eq_left (sub_nonpos.mpr hle)
      simp [gap, hmax]
    have hnone : huge = 0 := if_neg (fun h => hlater h.1)
    rw [hsleep, hgap, hnone]
    exact ⟨by omega,by norm_num,fun _ => by norm_num⟩

/-- Every gap of more than a second costs most of it, the others cost a nanosecond at the most. -/
theorem sleeps_bounds (hspeed : 0 < speed) {first : ℤ} {mds : List (MarketDataEvent α)}
    (hfirst : Timestamp first) (hts : ∀ md ∈ mds, Timestamp md.exchangeTs)
    (hfits : (first :: times mds).IsChain (Fits (.finite speed hin))) :
    let slept := sleeps undefined (.finite speed hin) (toUInt64 first) mds
    (∀ ns ∈ slept, ns ≤ 1000000000) ∧
      (slept.sum : ℚ) + 990000000 * hugeGaps (.finite speed hin) (first :: times mds) ≤
        forward (first :: times mds) / speed + mds.length / 10 ^ 6 ∧
      (hugeGaps (.finite speed hin) (first :: times mds) = 0 →
        (forward (first :: times mds) : ℚ) / speed ≤
          slept.sum + mds.length * (1 + 1 / 10 ^ 6)) := by
  induction mds generalizing first with
  | nil => simp [sleeps, forward, hugeGaps]
  | cons md mds ih =>
    obtain ⟨hmd,hrest⟩ := List.forall_mem_cons.mp hts
    have hsplit : forward (first :: times (md :: mds)) =
        max 0 (md.exchangeTs - first) + forward (md.exchangeTs :: times mds) := rfl
    have hgaps : hugeGaps (.finite speed hin) (first :: times (md :: mds)) =
        (if first < md.exchangeTs ∧ Huge (gapNs (.finite speed hin) first md.exchangeTs)
          then 1 else 0) + hugeGaps (.finite speed hin) (md.exchangeTs :: times mds) := rfl
    obtain ⟨hnext,hothers⟩ := List.isChain_cons_cons.mp hfits
    obtain ⟨hshort,hlost,hkept⟩ := sleepFor_bounds undefined hspeed hfirst hmd hnext
    obtain ⟨hshorts,htotal,hrests⟩ := ih hmd hrest hothers
    rw [hsplit, hgaps, Int.cast_add, add_div]
    generalize ((max 0 (md.exchangeTs - first) : ℤ) : ℚ) / speed = gap at hlost hkept ⊢
    generalize (if first < md.exchangeTs ∧ Huge (gapNs (.finite speed hin) first md.exchangeTs)
      then 1 else 0) = huge at hlost hkept ⊢
    refine ⟨List.forall_mem_cons.mpr ⟨hshort,hshorts⟩,?_,?_⟩
    · rw [sleeps, List.sum_cons, List.length_cons, Nat.cast_add, Nat.cast_add, Nat.cast_succ]
      linarith
    · intro hnone
      have hone := hkept (by omega)
      have hmore := hrests (by omega)
      rw [sleeps, List.sum_cons, List.length_cons, Nat.cast_add, Nat.cast_succ]
      linarith

end Times

/-- The timestamp of a row is what `stoll` returned, so it fits. -/
theorem exchangeTs_lt {line : Line} {md : MarketDataEvent α} (h : rowEvent line = some md) :
    md.exchangeTs < 2 ^ 63 := by
  unfold rowEvent at h
  split at h
  · rename_i symbol priceText quantityText tsText makerText hsplit
    simp only [Option.bind_eq_bind, Option.bind_eq_some_iff, Option.some.injEq] at h
    obtain ⟨price,hprice,quantity,hquantity,ts,hts,maker,hmaker,rfl⟩ := h
    have hstoll := toOption_eq_some hts
    unfold stoll toInteger at hstoll
    split at hstoll
    · contradiction
    · split at hstoll
      · rename_i hrange
        obtain rfl := Except.ok.inj hstoll
        exact hrange.2
      · contradiction
  · contradiction

/-- Whenever and however often the replay is stopped, it has slept no longer than the rows read so
far go forward at its speed, and it has kept their pace to a nanosecond for each row exactly if no
gap between them is longer than a second; the roundings add a millionth of a nanosecond for each
row. -/
theorem replay_paced (undefined : Double → ℤ) {speed : ℚ} (hin : InRange speed)
    (hspeed : 0 < speed) {lines : List Line} (hlines : ∀ line ∈ lines, Acceptable line α)
    (hpositive : ∀ ts ∈ times (lines.filterMap (rowEvent (α := α))), 0 < ts)
    (hfits : (times (lines.filterMap (rowEvent (α := α)))).IsChain (Fits (.finite speed hin)))
    (steps : List (ReplayStep α)) :
    let out := (paced undefined (.finite speed hin)).run (init (some lines)) steps
    let rows := out.1.read out.2
    let slept := sleptOf out.2
    rows <+: lines.filterMap rowEvent ∧ (∀ ns ∈ slept, ns ≤ 1000000000) ∧
      (slept.sum : ℚ) ≤ forward (times rows) / speed + rows.length / 10 ^ 6 ∧
      (rows.length ≤ 989000000 →
        ((forward (times rows) : ℚ) / speed ≤ slept.sum + rows.length * (1 + 1 / 10 ^ 6) ↔
          hugeGaps (.finite speed hin) (times rows) = 0)) := by
  intro out rows slept
  obtain ⟨hstate,hpushed⟩ := paced_run undefined (.finite speed hin) (init (some lines)) steps
  have hbeginning : rows <+: lines.filterMap rowEvent := by
    have hreading := (ReplayEngine.reading_iff_along lines steps).mpr
      (ReplayEngine.along_of_acceptable steps hlines)
    have haccounted := hreading.accounted
    have hpc : out.1.pc = (ReplayEngine.replay lines steps).1.2 := congrArg Prod.snd hstate
    have hrows : rows = (ReplayEngine.replay lines steps).2 ++
        (ReplayEngine.replay lines steps).1.2.inFlight := by
      rw [← hpc]
      exact congrArg (· ++ out.1.pc.inFlight) hpushed
    rw [hrows, ← haccounted, ReplayEngine.accounted]
    exact List.prefix_append _ _
  have hslept : slept = sleeps undefined (.finite speed hin) 0 rows :=
    (run_paces undefined (.finite speed hin) _ steps).slept
  have htimestamp : ∀ md ∈ rows, Timestamp md.exchangeTs := by
    intro md hmd
    have hrow := hbeginning.subset hmd
    obtain ⟨line,-,hline⟩ := List.mem_filterMap.mp hrow
    exact ⟨hpositive _ (List.mem_map_of_mem hrow),exchangeTs_lt hline⟩
  have hfits' : (times rows).IsChain (Fits (.finite speed hin)) :=
    hfits.prefix (hbeginning.map _)
  refine ⟨hbeginning,?_⟩
  rw [hslept]
  generalize rows = rows at htimestamp hfits' ⊢
  cases rows with
  | nil => simp [sleeps, forward, hugeGaps]
  | cons md rest =>
    -- before the first row `last_event_ts` is zero, so there is no sleep
    have hfirst : sleepFor undefined (.finite speed hin) 0 md = 0 := by simp [sleepFor]
    have hcons : times (md :: rest) = md.exchangeTs :: times rest := rfl
    obtain ⟨hmd,hrest⟩ := List.forall_mem_cons.mp htimestamp
    obtain ⟨hshort,htotal,hexact⟩ := sleeps_bounds undefined hspeed hmd hrest hfits'
    have hgaps : (0 : ℚ) ≤ hugeGaps (.finite speed hin) (md.exchangeTs :: times rest) :=
      Nat.cast_nonneg _
    rw [sleeps, hfirst, List.sum_cons, Nat.zero_add, hcons, List.length_cons, Nat.cast_succ]
    refine ⟨List.forall_mem_cons.mpr ⟨Nat.zero_le _,hshort⟩,by linarith,?_⟩
    intro hfew
    constructor
    · intro hkept
      by_contra hsome
      have hone : (1 : ℚ) ≤ hugeGaps (.finite speed hin) (md.exchangeTs :: times rest) := by
        exact_mod_cast Nat.one_le_iff_ne_zero.mpr hsome
      have hfew' : (rest.length : ℚ) + 1 ≤ 989000000 := by exact_mod_cast hfew
      linarith
    · intro hnone
      have hkept := hexact hnone
      linarith

theorem inRange_two : InRange 2 :=
  ⟨⟨2,0,by norm_num,by norm_num,by norm_num⟩,by decide +kernel⟩

/-- Two rows, the second a second and a half later, at double speed. -/
theorem replay_paced_double :
    let lines := ["B,100,1,1000,0".toList,"B,101,1,1500001000,0".toList]
    let out := (paced (fun _ => 0) (.finite 2 inRange_two)).run (init (some lines))
      (List.replicate 8 (.run (⟨[],0,0,0,false⟩ : MarketDataEvent Double)))
    let rows := out.1.read out.2
    let slept := sleptOf out.2
    slept = [0,750000000] ∧
    rows <+: lines.filterMap rowEvent ∧ (∀ ns ∈ slept, ns ≤ 1000000000) ∧
      (slept.sum : ℚ) ≤ forward (times rows) / 2 + rows.length / 10 ^ 6 ∧
      (rows.length ≤ 989000000 →
        ((forward (times rows) : ℚ) / 2 ≤ slept.sum + rows.length * (1 + 1 / 10 ^ 6) ↔
          hugeGaps (.finite 2 inRange_two) (times rows) = 0)) := by
  intro lines
  refine ⟨by decide +kernel,?_⟩
  have hrows : times (lines.filterMap (rowEvent (α := Double))) = [1000,1500001000] := by
    decide +kernel
  refine replay_paced _ inRange_two (by norm_num) (by decide +kernel) ?_ ?_ _
  · rw [hrows]
    decide
  · rw [hrows]
    decide +kernel

end PacedReplay
end HftEngine.Replay
