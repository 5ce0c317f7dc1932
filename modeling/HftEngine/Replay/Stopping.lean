import HftEngine.Replay.Malformed

/-! Stopping a replay from another thread. `run` raises the flag that `stop` clears, so a stop that
comes before the first store of `run` is lost; any later one lets at most one more event through. -/
set_option linter.unusedSectionVars false

namespace HftEngine.Replay
open HftEngine.Core Text

section Generic
variable {α : Type} [ReadNumber α] [∀ n, OfNat α n]

/-- Whether a field can be read, and what is left of the line, does not depend on old memory. -/
theorem readField_cases {β : Type} (convert : List Char → Except ConversionError β)
    (rest : List Char) : (∃ error, ∀ stale, readField convert stale rest = .error error) ∨
      ∃ (value : β → β) (rest' : List Char),
        ∀ stale, readField convert stale rest = .ok (value stale,rest') := by
  unfold readField
  cases getline ',' rest with
  | none => exact .inr ⟨id,rest,fun _ => rfl⟩
  | some field =>
    obtain ⟨token,rest'⟩ := field
    cases hvalue : convert token with
    | error error => exact .inl ⟨error,fun _ => by simp only [hvalue]; rfl⟩
    | ok value => exact .inr ⟨fun _ => value,rest',fun _ => by simp only [hvalue]; rfl⟩

/-- Neither does it decide what becomes of a line. -/
theorem parseLine_cases (line : Line) :
    (∃ error, ∀ stale : MarketDataEvent α, parseLine stale line = .error error) ∨
    (∀ stale : MarketDataEvent α, parseLine stale line = .ok none) ∨
      ∃ md : MarketDataEvent α → MarketDataEvent α,
        ∀ stale, parseLine stale line = .ok (some (md stale)) := by
  unfold parseLine
  by_cases hempty : line = []
  · exact .inr (.inl fun _ => if_pos hempty)
  · simp only [if_neg hempty]
    cases getline ',' line with
    | none => exact .inr (.inl fun _ => rfl)
    | some symbol =>
      obtain ⟨token,rest⟩ := symbol
      simp only [bind, Except.bind]
      rcases readField_cases (stod (α := α)) rest with ⟨error,hprice⟩ | ⟨price,rest₁,hprice⟩
      · exact .inl ⟨error,fun stale => by simp only [hprice]⟩
      rcases readField_cases (stod (α := α)) rest₁ with
        ⟨error,hquantity⟩ | ⟨quantity,rest₂,hquantity⟩
      · exact .inl ⟨error,fun stale => by simp only [hprice, hquantity]⟩
      rcases readField_cases stoll rest₂ with ⟨error,hts⟩ | ⟨ts,rest₃,hts⟩
      · exact .inl ⟨error,fun stale => by simp only [hprice, hquantity, hts]⟩
      rcases readField_cases stoiBool rest₃ with ⟨error,hmaker⟩ | ⟨maker,rest₄,hmaker⟩
      · exact .inl ⟨error,fun stale => by simp only [hprice, hquantity, hts, hmaker]⟩
      · refine .inr (.inr ⟨fun stale => ⟨copySymbol token,price stale.price,
          quantity stale.quantity,ts stale.exchangeTs,maker stale.isBuyerMaker⟩,fun stale => ?_⟩)
        simp only [hprice, hquantity, hts, hmaker]

/-- An event whose memory is zero. -/
def blankEvent : MarketDataEvent α := ⟨[],0,0,0,false⟩

variable (α) in
/-- How many events `run` pushes from these lines if it is not stopped. -/
def eventCount : List Line → ℕ
  | [] => 0
  | line :: rest =>
    match parseLine (blankEvent : MarketDataEvent α) line with
    | .ok (some _) => eventCount rest + 1
    | .ok none => eventCount rest
    | .error _ => 0

namespace ReplayEngine

/-- The events that `run` has still to push if nothing stops it. -/
def pending (s : ReplayEngine × RunPc α) : ℕ :=
  if s.2.isThrown then 0 else s.2.inFlight.length + eventCount α (s.1.file.getD [])

theorem pending_of_alive {s : ReplayEngine × RunPc α} (h : s.2.isThrown = false) :
    pending s = s.2.inFlight.length + eventCount α (s.1.file.getD []) := by
  simp [pending, h]

theorem pending_of_thrown {s : ReplayEngine × RunPc α} (h : s.2.isThrown = true) :
    pending s = 0 := if_pos h

theorem inFlight_of_thrown {pc : RunPc α} (h : pc.isThrown = true) : pc.inFlight = [] := by
  cases pc with
  | thrown => rfl
  | _ => contradiction

/-- Every step pushes what it takes from the pending events. -/
theorem pending_step (s : ReplayEngine × RunPc α) (l : ReplayStep α) :
    (stoppable.step s l).2.length + pending (stoppable.step s l).1 = pending s := by
  obtain ⟨e,pc⟩ := s
  cases l with
  | stop => exact Nat.zero_add _
  | run stale =>
    change pc.inFlight.length + pending (e.runStep stale pc) = pending (e,pc)
    cases hnext : nextLine? (e,pc) with
    | none =>
      obtain ⟨hfile,hflight,hthrown⟩ := runStep_of_nextLine?_none stale hnext
      cases halive : pc.isThrown with
      | true =>
        rw [pending_of_thrown (hthrown.trans halive), pending_of_thrown halive,
          inFlight_of_thrown halive]
        rfl
      | false =>
        rw [pending_of_alive (hthrown.trans halive), pending_of_alive halive, hfile, hflight]
        simp
    | some line =>
      obtain ⟨rfl,hrunning,rest,hfile⟩ := nextLine?_eq_some.mp hnext
      have hbefore : pending (e,(.looping : RunPc α)) = eventCount α (line :: rest) := by
        simp [pending, RunPc.isThrown, RunPc.inFlight, hfile]
      rw [runStep_of_nextLine?_some stale hrunning hfile, hbefore, eventCount]
      rcases parseLine_cases (α := α) line with ⟨error,herror⟩ | hnone | ⟨md,hmd⟩
      · simp [herror, pending, RunPc.isThrown, RunPc.inFlight]
      · simp [hnone, pending, RunPc.isThrown, RunPc.inFlight]
      · simp [hmd, pending, RunPc.isThrown, RunPc.inFlight, Nat.add_comm]

theorem pending_run (s : ReplayEngine × RunPc α) (steps : List (ReplayStep α)) :
    (stoppable.run s steps).2.length + pending (stoppable.run s steps).1 = pending s := by
  have hstart : ([] : List (MarketDataEvent α)).length + pending s = pending s := Nat.zero_add _
  have hrun := stoppable.run_invariant (P := fun _ _ => True)
    (I := fun s' pushed => pushed.length + pending s' = pending s) ?_ hstart
    (stoppable.along_of_forall (fun _ _ => trivial) s steps)
  · exact hrun
  · intro s' pushed l h _
    have hstep := pending_step s' l
    rw [List.length_append]
    omega

/-- Past its first store and with the flag cleared, `run` pushes what is in flight and no more. -/
structure Halted (s : ReplayEngine × RunPc α) : Prop where
  begun : s.2 ≠ .starting
  cleared : s.1.running = false

theorem Halted.step {s : ReplayEngine × RunPc α} (h : Halted s) (l : ReplayStep α) :
    Halted (stoppable.step s l).1 ∧
      (stoppable.step s l).2.length + (stoppable.step s l).1.2.inFlight.length ≤
        s.2.inFlight.length := by
  obtain ⟨e,pc⟩ := s
  have hcleared : e.running = false := h.cleared
  cases l with
  | stop => exact ⟨⟨h.begun,rfl⟩,by simp [stoppable]⟩
  | run stale =>
    cases pc with
    | starting => exact absurd rfl h.begun
    | opening =>
      cases hfile : e.file <;>
        simp [stoppable, runStep, hfile, RunPc.inFlight, hcleared, Halted.mk]
    | looping =>
      simp only [stoppable, runStep, nextLine_leaving stale (.inl hcleared)]
      exact ⟨⟨by simp,hcleared⟩,le_refl _⟩
    | leaving => exact ⟨⟨by simp [stoppable, runStep],rfl⟩,le_refl _⟩
    | _ => exact ⟨⟨by simp [stoppable, runStep],hcleared⟩,le_refl _⟩

theorem inFlight_length_le (pc : RunPc α) : pc.inFlight.length ≤ 1 := by
  cases pc <;> simp [RunPc.inFlight]

theorem Halted.run {s : ReplayEngine × RunPc α} (h : Halted s) (steps : List (ReplayStep α)) :
    (stoppable.run s steps).2.length ≤ 1 := by
  have hstart : Halted s ∧ ([] : List (MarketDataEvent α)).length + s.2.inFlight.length ≤ 1 :=
    ⟨h,by simpa using inFlight_length_le s.2⟩
  have hrun := stoppable.run_invariant (P := fun _ _ => True)
    (I := fun s' pushed => Halted s' ∧ pushed.length + s'.2.inFlight.length ≤ 1) ?_ hstart
    (stoppable.along_of_forall (fun _ _ => trivial) s steps)
  · have hpushed := hrun.2
    rw [List.nil_append] at hpushed
    omega
  · rintro s' pushed l ⟨hhalted,hpushed⟩ -
    obtain ⟨hnext,hlength⟩ := hhalted.step l
    refine ⟨hnext,?_⟩
    rw [List.length_append]
    omega

section Start
variable (file : Option (List Line))

theorem runStep_ne_starting (stale : MarketDataEvent α) (e : ReplayEngine) (pc : RunPc α) :
    (e.runStep stale pc).2 ≠ .starting := by
  cases pc with
  | opening => cases hfile : e.file <;> simp [runStep, hfile]
  | looping =>
    cases hnext : nextLine? (e,(.looping : RunPc α)) with
    | none => simp [runStep_looping_none stale hnext]
    | some line =>
      obtain ⟨-,hrunning,rest,hfile⟩ := nextLine?_eq_some.mp hnext
      rw [runStep_of_nextLine?_some stale hrunning hfile]
      rcases parseLine stale line with error | none | md <;> simp
  | _ => simp [runStep]

/-- Until `run` makes its first step, stopping it changes nothing. -/
theorem eq_init_of_starting (before : List (ReplayStep α))
    (h : (stoppable.run (.init file,.starting) before).1.2 = .starting) :
    (stoppable.run (.init file,.starting) before).1 = (.init file,.starting) := by
  have hrun := stoppable.run_state_invariant (P := fun _ _ => True)
    (I := fun s => s.2 = .starting → s = (.init file,.starting)) ?_ (fun _ => rfl)
    (stoppable.along_of_forall (fun _ _ => trivial) (.init file,.starting) before)
  · exact hrun h
  · rintro ⟨e,pc⟩ l hs _ hstarting
    cases l with
    | stop =>
      have hinit := hs hstarting
      rw [Prod.mk.injEq] at hinit
      rw [hinit.1, hinit.2]
      rfl
    | run stale => exact absurd hstarting (e.runStep_ne_starting stale pc)

/-- Left alone, `run` pushes all pending events. -/
theorem exists_run_pushes :
    ∃ steps : List (ReplayStep α),
      (stoppable.run (.init file,.starting) steps).2.length = eventCount α (file.getD []) := by
  cases file with
  | none => exact ⟨[],rfl⟩
  | some lines =>
    let steps : List (ReplayStep α) := List.replicate (2 * lines.length + 6) (.run blankEvent)
    have hweight : (steps.map ReplayStep.weight).sum = 2 * lines.length + 6 := by
      simp [steps, ReplayStep.weight]
    have hstop : .stop ∉ steps := by
      intro hmem
      exact absurd (List.eq_of_mem_replicate hmem) (by simp)
    have hpending : pending (replay lines steps).1 = 0 := by
      rcases replay_ends lines hweight.ge with hreturned | hthrown
      · obtain ⟨hflight,hleft,halive⟩ := returned_facts hreturned
        rw [pending_of_alive halive, hflight, (unstopped_replay lines hstop).exhausted hleft]
        rfl
      · exact pending_of_thrown hthrown
    have hrun := pending_run (.init (some lines),.starting) steps
    have hstart : pending (.init (some lines),(.starting : RunPc α)) = eventCount α lines :=
      Nat.zero_add _
    refine ⟨steps,?_⟩
    rw [replay] at hpending
    rw [hpending, hstart, Nat.add_zero] at hrun
    exact hrun

/-- After `stop` has returned, `run` pushes at most one more event, in whatever order the threads
go on, exactly if `run` has made its first store or the file has at most one event to give. -/
theorem stop_sticky_iff (before : List (ReplayStep α)) :
    (∀ after, (stoppable.run (stoppable.step
        (stoppable.run (.init file,.starting) before).1 .stop).1 after).2.length ≤ 1) ↔
      (stoppable.run (.init file,.starting) before).1.2 ≠ .starting ∨
        eventCount α (file.getD []) ≤ 1 := by
  by_cases hstarting : (stoppable.run (.init file,.starting) before).1.2 = .starting
  · have hlost : (stoppable.step (stoppable.run (.init file,.starting) before).1 .stop).1 =
        (.init file,.starting) := by
      rw [eq_init_of_starting file before hstarting]
      rfl
    rw [hlost]
    constructor
    · intro h
      obtain ⟨steps,hsteps⟩ := exists_run_pushes (α := α) file
      exact .inr (hsteps ▸ h steps)
    · rintro (hbegun | hfew) after
      · exact absurd hstarting hbegun
      · have hrun := pending_run (.init file,.starting) after
        have hstart : pending (.init file,(.starting : RunPc α)) =
            eventCount α (file.getD []) := Nat.zero_add _
        omega
  · refine iff_of_true ?_ (.inl hstarting)
    exact Halted.run ⟨hstarting,rfl⟩

end Start
end ReplayEngine
end Generic

namespace ReplayEngine

/-- A stop before `run` starts is lost: both rows are pushed all the same. -/
theorem stop_lost : ¬∀ after : List (ReplayStep Double), (stoppable.run (stoppable.step
    (stoppable.run (.init (some ["B,100,1,1,0".toList,"B,101,2,2,1".toList]),.starting) []).1
      .stop).1 after).2.length ≤ 1 := by
  intro h
  exact absurd (h (List.replicate 8 (.run blankEvent))) (by decide +kernel)

end ReplayEngine
end HftEngine.Replay
