import HftEngine.Foundation.DoubleText
import HftEngine.Replay.Recorder

/-! Replaying a file with malformed lines. Each field is read under a test of its own, and what the
tests decide is forgotten: a line with too few or too many fields is pushed all the same, and text
that is no number ends the thread. -/
set_option linter.unusedSectionVars false

namespace HftEngine.Replay
open HftEngine.Core Text

section Generic
variable {α : Type} [ReadNumber α]

/-- The line is skipped or one event is read from it. -/
def Acceptable (line : Line) (α : Type := ℚ) [ReadNumber α] : Prop :=
  line = [] ∨ (rowEvent (α := α) line).isSome = true

instance (line : Line) : Decidable (Acceptable line α) :=
  inferInstanceAs (Decidable (line = [] ∨ (rowEvent (α := α) line).isSome = true))

/-- Every line that is not empty is pushed or ends the thread. -/
theorem parseLine_ne_none (stale : MarketDataEvent α) {line : Line} (h : line ≠ []) :
    parseLine stale line ≠ .ok none := by
  intro hnone
  rw [parseLine, if_neg h, getline_of_ne_nil ',' h] at hnone
  simp only [bind, Except.bind] at hnone
  split at hnone
  · contradiction
  · split at hnone
    · contradiction
    · split at hnone
      · contradiction
      · split at hnone <;> simp at hnone

/-- A step of the thread that executes `run`, or a call of `stop` by another one. -/
inductive ReplayStep (α : Type := ℚ)
  | run (stale : MarketDataEvent α)
  | stop
  deriving DecidableEq

namespace ReplayStep

def weight : ReplayStep α → ℕ
  | .run _ => 1
  | .stop => 0

end ReplayStep

/-- The replay thread and the threads that may stop it; observed are the pushes. -/
def stoppable : Machine (ReplayEngine × RunPc α) (ReplayStep α) (MarketDataEvent α) where
  step s
    | .run stale => (s.1.runStep stale s.2,s.2.inFlight)
    | .stop => ((s.1.stop,s.2),[])

namespace ReplayEngine

/-- The line that the next step of `run` reads. -/
def nextLine? (s : ReplayEngine × RunPc α) : Option Line :=
  match s.2, s.1.running, s.1.file with
  | .looping, true, some (line :: _) => some line
  | _, _, _ => none

/-- The step reads no malformed line. -/
def ReadsAcceptable (s : ReplayEngine × RunPc α) : ReplayStep α → Prop
  | .run _ => ∀ line ∈ nextLine? s, Acceptable line α
  | .stop => True

theorem nextLine?_eq_some {e : ReplayEngine} {pc : RunPc α} {line : Line} :
    nextLine? (e,pc) = some line ↔
      pc = .looping ∧ e.running = true ∧ ∃ rest, e.file = some (line :: rest) := by
  unfold nextLine?
  constructor
  · intro h
    split at h
    · rename_i hpc hrunning hfile
      rw [Option.some.inj h] at hfile
      exact ⟨hpc,hrunning,_,hfile⟩
    · contradiction
  · rintro ⟨rfl,hrunning,rest,hfile⟩
    simp only [hrunning, hfile]

/-- The loop is left if there is no line to read. -/
theorem runStep_looping_none (stale : MarketDataEvent α) {e : ReplayEngine}
    (h : nextLine? (e,(.looping : RunPc α)) = none) : e.runStep stale .looping = (e,.leaving) := by
  simp only [runStep, nextLine]
  split
  · rename_i hrunning hfile
    have hsome := (nextLine?_eq_some (α := α)).mpr ⟨rfl,hrunning,_,hfile⟩
    rw [h] at hsome
    contradiction
  · rfl

/-- A step that reads no line. -/
theorem runStep_of_nextLine?_none (stale : MarketDataEvent α) {e : ReplayEngine} {pc : RunPc α}
    (h : nextLine? (e,pc) = none) : (e.runStep stale pc).1.file = e.file ∧
      (e.runStep stale pc).2.inFlight = [] ∧ (e.runStep stale pc).2.isThrown = pc.isThrown := by
  cases pc with
  | looping =>
    rw [runStep_looping_none stale h]
    exact ⟨rfl,rfl,rfl⟩
  | opening =>
    cases hfile : e.file <;> simp [runStep, hfile, RunPc.inFlight, RunPc.isThrown]
  | _ => exact ⟨rfl,rfl,rfl⟩

/-- A step that reads a line. -/
theorem runStep_of_nextLine?_some (stale : MarketDataEvent α) {e : ReplayEngine} {line : Line}
    {rest : List Line} (hrunning : e.running = true) (hfile : e.file = some (line :: rest)) :
    e.runStep stale .looping = ({ e with file := some rest },
      match parseLine stale line with
      | .ok (some md) => .pushing md
      | .ok none => .looping
      | .error _ => .thrown) := by
  simp only [runStep, nextLine, hrunning, hfile]
  rcases parseLine stale line with error | none | md <;> rfl

/-- What has been pushed, is about to be pushed, or is the event of a line not read yet. -/
def accounted (s : ReplayEngine × RunPc α) (pushed : List (MarketDataEvent α)) :
    List (MarketDataEvent α) :=
  pushed ++ s.2.inFlight ++ s.1.remaining α

/-- The thread has not died, and what it pushes are the events of the lines that it reads. -/
structure Reading (rows : List (MarketDataEvent α)) (s : ReplayEngine × RunPc α)
    (pushed : List (MarketDataEvent α)) : Prop where
  accounted : accounted s pushed = rows
  alive : s.2.isThrown = false

/-- The thread has died, or it has pushed more than there are well-formed lines. -/
def Spoiled (rows : List (MarketDataEvent α)) (s : ReplayEngine × RunPc α)
    (pushed : List (MarketDataEvent α)) : Prop :=
  s.2.isThrown = true ∨ rows.length < (accounted s pushed).length

section Step
variable {rows pushed : List (MarketDataEvent α)} {s : ReplayEngine × RunPc α}

/-- A step of `run` that reads no line changes nothing that is accounted for. -/
theorem accounted_quiet (stale : MarketDataEvent α) {e : ReplayEngine} {pc : RunPc α}
    (h : nextLine? (e,pc) = none) :
    accounted (e.runStep stale pc) (pushed ++ pc.inFlight) = accounted (e,pc) pushed := by
  obtain ⟨hfile,hflight,-⟩ := runStep_of_nextLine?_none stale h
  simp only [accounted, hflight, List.append_nil, remaining, hfile]

theorem accounted_line {e : ReplayEngine} {line : Line} {rest : List Line}
    (hfile : e.file = some (line :: rest)) :
    accounted (e,.looping) pushed =
      pushed ++ (rowEvent line).toList ++ rest.filterMap rowEvent := by
  cases hrow : rowEvent (α := α) line <;>
    simp [accounted, RunPc.inFlight, remaining, hfile, hrow]

/-- An acceptable line is accounted for when it has been read. -/
theorem accounted_acceptable (stale : MarketDataEvent α) {e : ReplayEngine} {line : Line}
    {rest : List Line} (hrunning : e.running = true) (hfile : e.file = some (line :: rest))
    (h : Acceptable line α) :
    accounted (e.runStep stale .looping) pushed = accounted (e,.looping) pushed ∧
      (e.runStep stale .looping).2.isThrown = false := by
  rw [accounted_line hfile, runStep_of_nextLine?_some stale hrunning hfile]
  rcases h with rfl | hrow
  · have hnone : rowEvent (α := α) [] = none := rfl
    rw [hnone]
    refine ⟨?_,rfl⟩
    simp [accounted, parseLine, RunPc.inFlight, remaining]
  · obtain ⟨md,hmd⟩ := Option.isSome_iff_exists.mp hrow
    rw [parseLine_row stale hmd, hmd]
    exact ⟨rfl,rfl⟩

/-- A malformed line ends the thread or is pushed beyond the well-formed ones. -/
theorem accounted_malformed (stale : MarketDataEvent α) {e : ReplayEngine} {line : Line}
    {rest : List Line} (hrunning : e.running = true) (hfile : e.file = some (line :: rest))
    (h : ¬Acceptable line α) : (e.runStep stale .looping).2.isThrown = true ∨
      (accounted (e.runStep stale .looping) pushed).length =
        (accounted (e,.looping) pushed).length + 1 := by
  obtain ⟨hne,hrow⟩ := not_or.mp h
  have hnone : rowEvent (α := α) line = none := by simpa using hrow
  rw [accounted_line hfile, hnone, runStep_of_nextLine?_some stale hrunning hfile]
  cases hparse : parseLine stale line with
  | error e => exact .inl rfl
  | ok result =>
    cases result with
    | none => exact absurd hparse (parseLine_ne_none stale hne)
    | some md =>
      right
      simp only [accounted, RunPc.inFlight, remaining, Option.getD_some, List.length_append,
        List.length_singleton, Option.toList_none, List.length_nil]
      omega

/-- A step that reads no malformed line keeps the account and the thread; a malformed line ends
the thread or is pushed in excess. -/
theorem step_account (s : ReplayEngine × RunPc α) (pushed : List (MarketDataEvent α))
    (l : ReplayStep α) :
    (ReadsAcceptable s l ∧
      accounted (stoppable.step s l).1 (pushed ++ (stoppable.step s l).2) = accounted s pushed ∧
      (stoppable.step s l).1.2.isThrown = s.2.isThrown) ∨
    (¬ReadsAcceptable s l ∧ s.2.isThrown = false ∧
      ((stoppable.step s l).1.2.isThrown = true ∨
        (accounted (stoppable.step s l).1 (pushed ++ (stoppable.step s l).2)).length =
          (accounted s pushed).length + 1)) := by
  obtain ⟨e,pc⟩ := s
  cases l with
  | stop =>
    left
    have hnone : (stoppable.step (e,pc) .stop).2 = [] := rfl
    rw [hnone, List.append_nil]
    exact ⟨trivial,rfl,rfl⟩
  | run stale =>
    cases hnext : nextLine? (e,pc) with
    | none =>
      left
      obtain ⟨-,-,halive⟩ := runStep_of_nextLine?_none stale hnext
      refine ⟨?_,accounted_quiet stale hnext,halive⟩
      intro line hline
      rw [hnext] at hline
      contradiction
    | some line =>
      obtain ⟨rfl,hrunning,rest,hfile⟩ := nextLine?_eq_some.mp hnext
      have hreads : ReadsAcceptable (e,.looping) (.run stale) ↔ Acceptable line α := by
        simp [ReadsAcceptable, hnext]
      simp only [stoppable, RunPc.inFlight, List.append_nil, hreads]
      by_cases hline : Acceptable line α
      · exact .inl ⟨hline,accounted_acceptable stale hrunning hfile hline⟩
      · exact .inr ⟨hline,rfl,accounted_malformed stale hrunning hfile hline⟩

theorem Reading.init (lines : List Line) :
    Reading (α := α) (lines.filterMap rowEvent) (.init (some lines),.starting) [] := ⟨rfl,rfl⟩

theorem Reading.step (h : Reading rows s pushed) (l : ReplayStep α) (hline : ReadsAcceptable s l) :
    Reading rows (stoppable.step s l).1 (pushed ++ (stoppable.step s l).2) := by
  rcases step_account s pushed l with ⟨-,haccounted,halive⟩ | ⟨hmalformed,-⟩
  · exact ⟨haccounted.trans h.accounted,halive.trans h.alive⟩
  · exact absurd hline hmalformed

/-- A malformed line spoils the replay. -/
theorem Reading.spoiled (h : Reading rows s pushed) (l : ReplayStep α)
    (hline : ¬ReadsAcceptable s l) :
    Spoiled rows (stoppable.step s l).1 (pushed ++ (stoppable.step s l).2) := by
  rcases step_account s pushed l with ⟨hacceptable,-⟩ | ⟨-,-,hthrown | hlength⟩
  · exact absurd hacceptable hline
  · exact .inl hthrown
  · rw [h.accounted] at hlength
    exact .inr (by omega)

/-- A spoiled replay stays spoiled. -/
theorem Spoiled.step (h : Spoiled rows s pushed) (l : ReplayStep α) :
    Spoiled rows (stoppable.step s l).1 (pushed ++ (stoppable.step s l).2) := by
  rcases step_account s pushed l with ⟨-,haccounted,halive⟩ | ⟨-,halive,hthrown | hlength⟩
  · rw [Spoiled, haccounted, halive]
    exact h
  · exact .inl hthrown
  · rcases h with hdead | hexcess
    · rw [hdead] at halive
      contradiction
    · exact .inr (by omega)

end Step

/-- The replay of these lines along these steps. -/
def replay (lines : List Line) (steps : List (ReplayStep α)) :
    (ReplayEngine × RunPc α) × List (MarketDataEvent α) :=
  stoppable.run (.init (some lines),.starting) steps

/-- A run that reads no malformed line keeps the account, and one that keeps it has read none. -/
theorem reading_iff_along (lines : List Line) (steps : List (ReplayStep α)) :
    Reading (lines.filterMap rowEvent) (replay lines steps).1 (replay lines steps).2 ↔
      stoppable.Along ReadsAcceptable (.init (some lines),.starting) steps := by
  constructor
  · intro h
    refine stoppable.along_of_not_trapped_of_invariant
      (I := fun s pushed => Reading (lines.filterMap rowEvent) s pushed)
      (B := fun s pushed => Spoiled (lines.filterMap rowEvent) s pushed)
      (fun _ _ l hs hl => hs.step l hl) (fun _ _ l hs hl => hs.spoiled l hl)
      (fun _ _ l hs => hs.step l) (Reading.init lines) ?_
    rintro (hthrown | hlength)
    · exact absurd (hthrown.symm.trans h.alive) (by decide)
    · rw [List.nil_append] at hlength
      have haccounted := congrArg List.length h.accounted
      exact absurd haccounted (Nat.ne_of_gt hlength)
  · intro h
    have hrun := stoppable.run_invariant
      (I := fun s pushed => Reading (lines.filterMap rowEvent) s pushed)
      (fun _ _ l hs hl => hs.step l hl) (Reading.init lines) h
    rwa [List.nil_append] at hrun

/-- The file is open, what is unread is its end, and a thread that returned has set the flag. -/
structure Settled (lines : List Line) (s : ReplayEngine × RunPc α) : Prop where
  unread : ∃ rest, s.1.file = some rest ∧ rest.IsSuffix lines
  finished : s.2.isReturned = true → s.1.finished = true

theorem runStep_opening (stale : MarketDataEvent α) {e : ReplayEngine} {unread : List Line}
    (h : e.file = some unread) : e.runStep stale .opening = (e,.looping) := by
  simp only [runStep, h]

theorem Settled.step {lines : List Line} {s : ReplayEngine × RunPc α} (h : Settled lines s)
    (l : ReplayStep α) : Settled lines (stoppable.step s l).1 := by
  obtain ⟨e,pc⟩ := s
  obtain ⟨unread,hunread,hsuffix⟩ := h.unread
  cases l with
  | stop => exact ⟨h.unread,h.finished⟩
  | run stale =>
    simp only [stoppable]
    cases pc with
    | opening =>
      rw [runStep_opening stale hunread]
      exact ⟨h.unread,fun hreturned => by contradiction⟩
    | looping =>
      cases hnext : nextLine? (e,.looping) with
      | none =>
        rw [runStep_looping_none stale hnext]
        exact ⟨h.unread,fun hreturned => by contradiction⟩
      | some line =>
        obtain ⟨-,hrunning,rest,hfile⟩ := nextLine?_eq_some.mp hnext
        obtain rfl : line :: rest = unread := Option.some.inj (hfile.symm.trans hunread)
        rw [runStep_of_nextLine?_some stale hrunning hfile]
        refine ⟨⟨rest,rfl,(List.suffix_cons line rest).trans hsuffix⟩,?_⟩
        rcases parseLine stale line with error | none | md <;>
          exact fun hreturned => by contradiction
    | finishing => exact ⟨h.unread,fun _ => rfl⟩
    | returned => exact h
    | _ => exact ⟨h.unread,fun hreturned => by contradiction⟩

/-- Before any `stop` the loop is left at the end of the file only. -/
structure Unstopped (s : ReplayEngine × RunPc α) : Prop where
  opened : s.1.file ≠ none
  running : s.2.isReading = true → s.1.running = true
  exhausted : s.2.hasLeft = true → s.1.file = some []

theorem Unstopped.step {s : ReplayEngine × RunPc α} (h : Unstopped s) (stale : MarketDataEvent α) :
    Unstopped (stoppable.step s (.run stale)).1 := by
  obtain ⟨e,pc⟩ := s
  simp only [stoppable]
  cases pc with
  | starting => exact ⟨h.opened,fun _ => rfl,h.exhausted⟩
  | opening =>
    obtain ⟨unread,hunread⟩ := Option.ne_none_iff_exists'.mp h.opened
    rw [runStep_opening stale hunread]
    exact ⟨h.opened,fun _ => h.running rfl,fun hleft => by contradiction⟩
  | looping =>
    have hrunning := h.running rfl
    cases hnext : nextLine? (e,.looping) with
    | none =>
      rw [runStep_looping_none stale hnext]
      refine ⟨h.opened,fun hreading => by contradiction,?_⟩
      intro _
      obtain ⟨unread,hunread⟩ := Option.ne_none_iff_exists'.mp h.opened
      cases unread with
      | nil => exact hunread
      | cons line rest =>
        have hsome := (nextLine?_eq_some (α := α)).mpr ⟨rfl,hrunning,rest,hunread⟩
        rw [hnext] at hsome
        contradiction
    | some line =>
      obtain ⟨-,-,rest,hfile⟩ := nextLine?_eq_some.mp hnext
      rw [runStep_of_nextLine?_some stale hrunning hfile]
      refine ⟨by simp,fun _ => hrunning,?_⟩
      rcases parseLine stale line with error | none | md <;> exact fun hleft => by contradiction
  | leaving => exact ⟨h.opened,fun hreading => by contradiction,h.exhausted⟩
  | finishing => exact ⟨h.opened,fun hreading => by contradiction,h.exhausted⟩
  | _ => exact ⟨h.opened,h.running,h.exhausted⟩

section Ends
variable (lines : List Line) {steps : List (ReplayStep α)}

theorem settled_replay (steps : List (ReplayStep α)) : Settled lines (replay lines steps).1 := by
  have hinit : Settled lines (.init (some lines),(.starting : RunPc α)) :=
    ⟨⟨lines,rfl,List.suffix_rfl⟩,fun hreturned => by contradiction⟩
  exact stoppable.run_state_invariant (P := fun _ _ => True) (fun _ l hs _ => hs.step l) hinit
    (stoppable.along_of_forall (fun _ _ => trivial) _ _)

theorem unstopped_replay (h : .stop ∉ steps) : Unstopped (replay lines steps).1 := by
  have hinit : Unstopped (.init (some lines),(.starting : RunPc α)) :=
    ⟨by simp [ReplayEngine.init],fun hreading => by contradiction,fun hleft => by contradiction⟩
  refine stoppable.run_state_invariant (P := fun _ l => l ≠ .stop) ?_ hinit ?_
  · intro s l hs hl
    cases l with
    | stop => contradiction
    | run stale => exact hs.step stale
  · apply stoppable.along_of_mem
    rintro s l hl rfl
    exact h hl

theorem stepsLeft_stoppable (s : ReplayEngine × RunPc α) (l : ReplayStep α) :
    stepsLeft (stoppable.step s l).1 ≤ stepsLeft s - l.weight := by
  cases l with
  | run stale => exact stepsLeft_step s stale
  | stop =>
    obtain ⟨e,pc⟩ := s
    cases pc <;> exact le_refl _

/-- Enough steps of `run` bring it to its end. -/
theorem replay_ends (henough : 2 * lines.length + 6 ≤ (steps.map ReplayStep.weight).sum) :
    (replay lines steps).1.2.isReturned = true ∨ (replay lines steps).1.2.isThrown = true := by
  have hmeasure := stoppable.run_measure_weighted stepsLeft_stoppable
    (.init (some lines),.starting) steps
  have hstart : stepsLeft (.init (some lines),(.starting : RunPc α)) = 2 * lines.length + 6 := rfl
  have hzero : stepsLeft (replay lines steps).1 = 0 := by
    rw [replay]
    omega
  revert hzero
  obtain ⟨e,pc⟩ := (replay lines steps).1
  cases pc <;> simp [stepsLeft, RunPc.isReturned, RunPc.isThrown]

end Ends

/-- A step leaves the unread lines as they are or takes the next one. -/
theorem unread_step (s : ReplayEngine × RunPc α) (l : ReplayStep α) :
    (stoppable.step s l).1.1.file.getD [] = s.1.file.getD [] ∨
      ∃ line, (ReadsAcceptable s l → Acceptable line α) ∧
        s.1.file.getD [] = line :: (stoppable.step s l).1.1.file.getD [] := by
  obtain ⟨e,pc⟩ := s
  cases l with
  | stop => exact .inl rfl
  | run stale =>
    cases hnext : nextLine? (e,pc) with
    | none =>
      obtain ⟨hfile,-,-⟩ := runStep_of_nextLine?_none stale hnext
      exact .inl (congrArg (Option.getD · []) hfile)
    | some line =>
      right
      refine ⟨line,fun hline => hline line hnext,?_⟩
      obtain ⟨rfl,hrunning,rest,hfile⟩ := nextLine?_eq_some.mp hnext
      simp only [stoppable, runStep_of_nextLine?_some stale hrunning hfile, hfile,
        Option.getD_some]

/-- A run that reads the file to its end reads every line. -/
theorem acceptable_of_along {s : ReplayEngine × RunPc α} {steps : List (ReplayStep α)}
    (h : stoppable.Along ReadsAcceptable s steps)
    (hend : (stoppable.run s steps).1.1.file = some []) :
    ∀ line ∈ s.1.file.getD [], Acceptable line α := by
  induction steps generalizing s with
  | nil =>
    intro line hline
    have hfile : s.1.file = some [] := hend
    rw [hfile] at hline
    exact absurd hline List.not_mem_nil
  | cons l steps ih =>
    have hrest := ih h.2 hend
    rcases unread_step s l with hsame | ⟨line,hread,hcons⟩
    · rw [← hsame]
      exact hrest
    · rw [hcons]
      exact List.forall_mem_cons.mpr ⟨hread h.1,hrest⟩

theorem along_of_acceptable {s : ReplayEngine × RunPc α} (steps : List (ReplayStep α))
    (h : ∀ line ∈ s.1.file.getD [], Acceptable line α) :
    stoppable.Along ReadsAcceptable s steps := by
  have hcongr : stoppable.Along ReadsAcceptable s steps ↔
      stoppable.Along (fun _ _ => True) s steps :=
    stoppable.along_congr_of_invariant
      (I := fun s => ∀ line ∈ s.1.file.getD [], Acceptable line α) ?_ ?_ h
  · exact hcongr.mpr (stoppable.along_of_forall (fun _ _ => trivial) _ _)
  · intro s l _ hall
    rcases unread_step s l with hsame | ⟨line,-,hcons⟩
    · rw [hsame]
      exact hall
    · rw [hcons] at hall
      exact fun line' hline' => hall line' (List.mem_cons_of_mem _ hline')
  · rintro ⟨e,pc⟩ l _ hall
    refine iff_of_true ?_ trivial
    cases l with
    | stop => trivial
    | run stale =>
      intro line hnext
      obtain ⟨-,-,rest,hfile⟩ := nextLine?_eq_some.mp hnext
      exact hall line (by rw [hfile]; exact List.mem_cons_self)

/-- `run` has ended normally, with one event in file order for each well-formed line that it has
read, and without a `stop` it has read them all. -/
structure AcceptsRows (lines : List Line) (steps : List (ReplayStep α)) : Prop where
  returned : (replay lines steps).1.2.isReturned = true
  finished : (replay lines steps).1.1.isFinished = true
  pushed : ∃ read unread, lines = read ++ unread ∧ (replay lines steps).1.1.file = some unread ∧
    (replay lines steps).2 = read.filterMap rowEvent
  complete : .stop ∉ steps → (replay lines steps).2 = lines.filterMap rowEvent

section Accepts
variable {lines : List Line} {steps : List (ReplayStep α)}

theorem returned_facts {pc : RunPc α} (h : pc.isReturned = true) :
    pc.inFlight = [] ∧ pc.hasLeft = true ∧ pc.isThrown = false := by
  cases pc with
  | returned => exact ⟨rfl,rfl,rfl⟩
  | _ => contradiction

theorem AcceptsRows.reading (h : AcceptsRows lines steps) :
    Reading (lines.filterMap rowEvent) (replay lines steps).1 (replay lines steps).2 := by
  obtain ⟨read,unread,hlines,hfile,hpushed⟩ := h.pushed
  obtain ⟨hflight,-,halive⟩ := returned_facts h.returned
  refine ⟨?_,halive⟩
  rw [accounted, hflight, hpushed, remaining, hfile, List.append_nil, Option.getD_some,
    ← List.filterMap_append, ← hlines]

theorem Reading.accepts
    (h : Reading (lines.filterMap rowEvent) (replay lines steps).1 (replay lines steps).2)
    (henough : 2 * lines.length + 6 ≤ (steps.map ReplayStep.weight).sum) :
    AcceptsRows lines steps := by
  have hreturned : (replay lines steps).1.2.isReturned = true := by
    rcases replay_ends lines henough with hreturned | hthrown
    · exact hreturned
    · exact absurd (hthrown.symm.trans h.alive) (by decide)
  obtain ⟨hflight,hleft,-⟩ := returned_facts hreturned
  have hsettled := settled_replay lines steps
  obtain ⟨unread,hunread,read,hlines⟩ := hsettled.unread
  have haccounted := h.accounted
  rw [ReplayEngine.accounted, hflight, List.append_nil, remaining, hunread, Option.getD_some]
    at haccounted
  refine ⟨hreturned,hsettled.finished hreturned,⟨read,unread,hlines.symm,hunread,?_⟩,?_⟩
  · have hrows : lines.filterMap (rowEvent (α := α)) =
        read.filterMap rowEvent ++ unread.filterMap rowEvent := by
      rw [← hlines, List.filterMap_append]
    exact List.append_cancel_right (haccounted.trans hrows)
  · intro hstop
    have hempty := (unstopped_replay lines hstop).exhausted hleft
    rw [hunread, Option.some.injEq] at hempty
    rwa [hempty, List.filterMap_nil, List.append_nil] at haccounted

end Accepts

/-- The replay accepts exactly the well-formed rows if and only if every line that it reads is
empty or well-formed, and without a `stop` it reads all lines. -/
theorem acceptsRows_iff (lines : List Line) (steps : List (ReplayStep α))
    (henough : 2 * lines.length + 6 ≤ (steps.map ReplayStep.weight).sum) :
    (AcceptsRows lines steps ↔
      stoppable.Along ReadsAcceptable (.init (some lines),.starting) steps) ∧
    (.stop ∉ steps → (AcceptsRows lines steps ↔ ∀ line ∈ lines, Acceptable line α)) := by
  have haccepts : AcceptsRows lines steps ↔
      stoppable.Along ReadsAcceptable (.init (some lines),.starting) steps := by
    rw [← reading_iff_along]
    exact ⟨fun h => h.reading,fun h => h.accepts henough⟩
  refine ⟨haccepts,?_⟩
  intro hstop
  constructor
  · intro h
    obtain ⟨-,hleft,-⟩ := returned_facts h.returned
    exact acceptable_of_along (haccepts.mp h) ((unstopped_replay lines hstop).exhausted hleft)
  · intro h
    exact haccepts.mpr (along_of_acceptable steps h)

end ReplayEngine
end Generic

namespace ReplayEngine

/-- Two rows with an empty line between them; the second one has an infinite quantity. -/
def rowAndEmpty : List Line := ["B,100,1,1,0".toList,[],"B,101,inf,2,1".toList]

theorem acceptsRows_rowAndEmpty :
    AcceptsRows rowAndEmpty
      (List.replicate 12 (.run (⟨[],0,0,0,false⟩ : MarketDataEvent Double))) :=
  ((acceptsRows_iff rowAndEmpty _ (by decide)).2 (by decide)).mpr (by decide +kernel)

/-- A line with two fields is pushed with whatever the memory of the event held, and a header line
or a price too small for a double ends the thread before any row is pushed. -/
theorem malformed_lines_not_skipped :
    let stale : MarketDataEvent Double := ⟨[],7,7,7,true⟩
    (replay ["B,100".toList] (List.replicate 8 (.run stale))).2 = [⟨['B'],100,7,7,true⟩] ∧
    ¬AcceptsRows ["B,100".toList] (List.replicate 8 (.run stale)) ∧
    ¬AcceptsRows ["symbol,price,quantity,exchange_ts,is_buyer_maker".toList,"B,100,1,1,0".toList]
      (List.replicate 10 (.run stale)) ∧
    ¬AcceptsRows ["B,1e-400,1,1,0".toList,"B,101,2,2,1".toList]
      (List.replicate 10 (.run stale)) := by
  refine ⟨by decide +kernel,?_,?_,?_⟩
  · intro h
    exact absurd (h.complete (by decide)) (by decide +kernel)
  · intro h
    exact absurd h.returned (by decide +kernel)
  · intro h
    exact absurd h.returned (by decide +kernel)

end ReplayEngine
end HftEngine.Replay
