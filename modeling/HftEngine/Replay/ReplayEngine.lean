import HftEngine.Core.Events
import HftEngine.Foundation.Text

/-! The replay feed (replay/replay_engine.cpp). The loop of `run` is cut at its accesses to
the flags and to the queue. The sleeps between rows only choose among interleavings, so they
are left out here with the speed factor; Replay/Pacing.lean has them. -/
namespace HftEngine.Replay
open HftEngine.Core Text
variable {α : Type} [ReadNumber α]

/-- A line of the data file as `std::getline(file_, line)` returns it. -/
abbrev Line := List Char

/-- `std::strncpy(md.symbol, token.c_str(), 15)`. -/
def copySymbol (token : List Char) : Symbol := (token.takeWhile (· != Char.ofNat 0)).take 15

/-- One field: it keeps the old content of its memory when no token is left. -/
def readField {β : Type} (convert : List Char → Except ConversionError β) (stale : β)
    (rest : List Char) : Except ConversionError (β × List Char) :=
  match getline ',' rest with
  | none => .ok (stale,rest)
  | some (token,rest) => do
    let value ← convert token
    .ok (value,rest)

/-- `md.is_buyer_maker = std::stoi(token)`. -/
def stoiBool (token : List Char) : Except ConversionError Bool := do
  let value ← stoi token
  .ok (value != 0)

/-- The body of the loop up to the push: the event of a line, if one is pushed. The event is
a local without initializer, `stale` is what its memory held. -/
def parseLine (stale : MarketDataEvent α) (line : Line) :
    Except ConversionError (Option (MarketDataEvent α)) :=
  if line = [] then .ok none
  else match getline ',' line with
  | none => .ok none
  | some (token,rest) => do
    let price ← readField stod stale.price rest
    let quantity ← readField stod stale.quantity price.2
    let exchangeTs ← readField stoll stale.exchangeTs quantity.2
    let isBuyerMaker ← readField stoiBool stale.isBuyerMaker exchangeTs.2
    .ok (some ⟨copySymbol token,price.1,quantity.1,exchangeTs.1,isBuyerMaker.1⟩)

/-- A well-formed row is five fields separated by commas, the last four of them numbers. -/
def rowEvent (line : Line) : Option (MarketDataEvent α) :=
  match line.splitOn ',' with
  | [symbol,price,quantity,exchangeTs,isBuyerMaker] => do
    let price ← (stod price).toOption
    let quantity ← (stod quantity).toOption
    let exchangeTs ← (stoll exchangeTs).toOption
    let isBuyerMaker ← (stoiBool isBuyerMaker).toOption
    some ⟨copySymbol symbol,price,quantity,exchangeTs,isBuyerMaker⟩
  | _ => none

theorem readField_of_splitOn {β : Type} {convert : List Char → Except ConversionError β}
    {rest field next : List Char} {fields : List (List Char)} {value : β} (stale : β)
    (hrest : rest.splitOn ',' = field :: next :: fields) (hvalue : convert field = .ok value) :
    ∃ rest', readField convert stale rest = .ok (value,rest') ∧
      rest'.splitOn ',' = next :: fields := by
  obtain ⟨rest',hget,hsplit⟩ := getline_of_splitOn hrest
  refine ⟨rest',?_,hsplit⟩
  simp only [readField, hget, hvalue]
  rfl

theorem readField_last {rest field : List Char} {value : Bool} (stale : Bool)
    (hrest : rest.splitOn ',' = [field]) (hvalue : stoiBool field = .ok value) :
    readField stoiBool stale rest = .ok (value,[]) := by
  have hfield : field ≠ [] := by
    rintro rfl
    simp [stoiBool, stoi_nil, bind, Except.bind] at hvalue
  simp only [readField, getline_of_splitOn_singleton hrest hfield, hvalue]
  rfl

theorem toOption_eq_some {β : Type} {r : Except ConversionError β} {value : β}
    (h : r.toOption = some value) : r = .ok value := by
  cases r with
  | error e => simp [Except.toOption] at h
  | ok v => simpa [Except.toOption] using h

/-- From a well-formed row every field is read, whatever the memory held. -/
theorem parseLine_row (stale : MarketDataEvent α) {line : Line} {md : MarketDataEvent α}
    (h : rowEvent line = some md) : parseLine stale line = .ok (some md) := by
  unfold rowEvent at h
  split at h
  · rename_i symbol priceText quantityText tsText makerText hsplit
    simp only [Option.bind_eq_bind, Option.bind_eq_some_iff, Option.some.injEq] at h
    obtain ⟨price,hprice,quantity,hquantity,ts,hts,maker,hmaker,rfl⟩ := h
    have hline : line ≠ [] := by
      rintro rfl
      simp at hsplit
    obtain ⟨rest,hsymbol,hrest⟩ := getline_of_splitOn hsplit
    obtain ⟨rest₁,hread₁,hrest₁⟩ :=
      readField_of_splitOn stale.price hrest (toOption_eq_some hprice)
    obtain ⟨rest₂,hread₂,hrest₂⟩ :=
      readField_of_splitOn stale.quantity hrest₁ (toOption_eq_some hquantity)
    obtain ⟨rest₃,hread₃,hrest₃⟩ :=
      readField_of_splitOn stale.exchangeTs hrest₂ (toOption_eq_some hts)
    have hread₄ := readField_last stale.isBuyerMaker hrest₃ (toOption_eq_some hmaker)
    rw [parseLine, if_neg hline, hsymbol]
    simp only [bind, Except.bind, hread₁, hread₂, hread₃, hread₄]
  · contradiction

structure ReplayEngine where
  /-- The lines that are not read yet, if the file could be opened. -/
  file : Option (List Line)
  running : Bool
  finished : Bool

/-- Where the thread that executes `run` is. -/
inductive RunPc (α : Type := ℚ)
  | starting
  | started
  | opening
  | looping
  | pushing (md : MarketDataEvent α)
  | leaving
  | finishing
  | returned
  | thrown

namespace RunPc
variable {α : Type}

/-- The row that was read and is about to be pushed. -/
def inFlight : RunPc α → List (MarketDataEvent α)
  | .pushing md => [md]
  | _ => []

/-- Past the first store to `running_` and still in the loop. -/
def isReading : RunPc α → Bool
  | .started => true
  | .opening => true
  | .looping => true
  | .pushing _ => true
  | _ => false

def hasLeft : RunPc α → Bool
  | .leaving => true
  | .finishing => true
  | .returned => true
  | _ => false

def isReturned : RunPc α → Bool
  | .returned => true
  | _ => false

def isThrown : RunPc α → Bool
  | .thrown => true
  | _ => false

end RunPc

namespace ReplayEngine

def init (file : Option (List Line)) : ReplayEngine := ⟨file,false,false⟩

def isFinished (e : ReplayEngine) : Bool := e.finished

def stop (e : ReplayEngine) : ReplayEngine := { e with running := false }

/-- `while (running_ && std::getline(file_, line))` and the parsing of the line. -/
def nextLine (stale : MarketDataEvent α) (e : ReplayEngine) : ReplayEngine × RunPc α :=
  match e.running, e.file with
  | true, some (line :: rest) =>
    match parseLine stale line with
    | .ok (some md) => ({ e with file := some rest },.pushing md)
    | .ok none => ({ e with file := some rest },.looping)
    | .error _ => ({ e with file := some rest },.thrown)
  | _, _ => (e,.leaving)

/-- The next step of `run`. The push itself is a step of the queue. -/
def runStep (stale : MarketDataEvent α) (e : ReplayEngine) : RunPc α → ReplayEngine × RunPc α
  | .starting => ({ e with running := true },.started)
  | .started => ({ e with finished := false },.opening)
  | .opening =>
    match e.file with
    | none => ({ e with finished := true },.returned)
    | some _ => (e,.looping)
  | .looping => e.nextLine stale
  | .pushing _ => (e,.looping)
  | .leaving => ({ e with running := false },.finishing)
  | .finishing => ({ e with finished := true },.returned)
  | .returned => (e,.returned)
  | .thrown => (e,.thrown)

/-- The rows of the lines that are not read yet. -/
def remaining (e : ReplayEngine) (α : Type := ℚ) [ReadNumber α] : List (MarketDataEvent α) :=
  (e.file.getD []).filterMap rowEvent

theorem nextLine_row (stale : MarketDataEvent α) {e : ReplayEngine} {line : Line}
    {rest : List Line} {md : MarketDataEvent α} (hrunning : e.running = true)
    (hfile : e.file = some (line :: rest)) (hline : rowEvent line = some md) :
    e.nextLine stale = ({ e with file := some rest },.pushing md) := by
  simp only [nextLine, hrunning, hfile, parseLine_row stale hline]

theorem nextLine_leaving (stale : MarketDataEvent α) {e : ReplayEngine}
    (h : e.running = false ∨ e.file = some []) : e.nextLine stale = (e,.leaving) := by
  unfold nextLine
  rcases h with h | h
  · rw [h]
  · rw [h]
    cases e.running <;> rfl

/-- Reading a file of well-formed rows: what is pushed, in flight or still unread makes up
the rows, and the loop ends with the file unless `stop` was called. -/
structure Reads (rows pushed : List (MarketDataEvent α)) (stopped : Bool) (e : ReplayEngine)
    (pc : RunPc α) : Prop where
  rows_eq : pushed ++ pc.inFlight ++ e.remaining α = rows
  wellFormed : ∃ lines, e.file = some lines ∧
    ∀ line ∈ lines, (rowEvent (α := α) line).isSome = true
  alive : pc.isThrown = false
  running : stopped = false → pc.isReading = true → e.running = true
  exhausted : stopped = false → pc.hasLeft = true → e.remaining α = []
  finished : e.finished = true → pc.isReturned = true

namespace Reads
variable {rows pushed : List (MarketDataEvent α)} {stopped : Bool} {e : ReplayEngine} {pc : RunPc α}

theorem init {lines : List Line}
    (h : ∀ line ∈ lines, (rowEvent (α := α) line).isSome = true) :
    Reads (α := α) (lines.filterMap rowEvent) [] false (.init (some lines)) .starting where
  rows_eq := rfl
  wellFormed := ⟨lines,rfl,h⟩
  alive := rfl
  running _ hreading := by contradiction
  exhausted _ hleft := by contradiction
  finished hfinished := by contradiction

/-- Once `stop` may have been called, nothing is known about the end of the loop. -/
theorem weaken (h : Reads rows pushed stopped e pc) : Reads rows pushed true e pc :=
  { h with
    running := by simp
    exhausted := by simp }

theorem stop (h : Reads rows pushed stopped e pc) : Reads rows pushed true e.stop pc :=
  { h.weaken with
    running := by simp }

/-- The loop reads one row or ends. -/
theorem nextLine (stale : MarketDataEvent α) (h : Reads rows pushed stopped e .looping) :
    Reads rows pushed stopped (e.nextLine stale).1 (e.nextLine stale).2 := by
  obtain ⟨lines,hfile,hlines⟩ := h.wellFormed
  have hunfinished : e.finished = false := by
    cases hfin : e.finished with
    | false => rfl
    | true => exact absurd (h.finished hfin) (by simp [RunPc.isReturned])
  by_cases hleave : e.running = false ∨ e.file = some []
  · rw [nextLine_leaving stale hleave]
    refine ⟨h.rows_eq,h.wellFormed,rfl,?_,?_,?_⟩
    · intro _ hreading
      contradiction
    · intro hstopped _
      rcases hleave with hrunning | hempty
      · rw [h.running hstopped rfl] at hrunning
        contradiction
      · simp [remaining, hempty]
    · intro hfinished
      rw [hunfinished] at hfinished
      contradiction
  · obtain ⟨hrunning,hne⟩ := not_or.mp hleave
    have hrun : e.running = true := by simpa using hrunning
    cases lines with
    | nil => exact absurd hfile hne
    | cons line rest =>
      obtain ⟨md,hmd⟩ := Option.isSome_iff_exists.mp (hlines line List.mem_cons_self)
      rw [nextLine_row stale hrun hfile hmd]
      refine ⟨?_,⟨rest,rfl,fun l hl => hlines l (List.mem_cons_of_mem _ hl)⟩,rfl,?_,?_,?_⟩
      · have hrows := h.rows_eq
        simp only [RunPc.inFlight, remaining, hfile, Option.getD_some, List.append_nil,
          List.filterMap_cons_some hmd] at hrows
        simp [RunPc.inFlight, remaining, ← hrows]
      · intro _ _
        exact hrun
      · intro _ hleft
        contradiction
      · intro hfinished
        rw [hunfinished] at hfinished
        contradiction

/-- A step that reads no row and pushes none. -/
theorem of_quiet (h : Reads rows pushed stopped e pc) {e' : ReplayEngine} {pc' : RunPc α}
    (hflight : pc.inFlight = []) (hflight' : pc'.inFlight = []) (hfile : e'.file = e.file)
    (halive : pc'.isThrown = false)
    (hrunning : stopped = false → pc'.isReading = true → e'.running = true)
    (hleft : pc'.hasLeft = true → pc.hasLeft = true)
    (hfinished : e'.finished = true → pc'.isReturned = true) :
    Reads rows (pushed ++ pc.inFlight) stopped e' pc' where
  rows_eq := by
    have hrows := h.rows_eq
    rw [hflight] at hrows ⊢
    rw [hflight', List.append_nil, remaining, hfile]
    exact hrows
  wellFormed := by
    rw [hfile]
    exact h.wellFormed
  alive := halive
  running := hrunning
  exhausted := by
    intro hstopped hleft'
    rw [remaining, hfile]
    exact h.exhausted hstopped (hleft hleft')
  finished := hfinished

/-- One step of the feed thread, which pushes the row in flight. -/
theorem runStep (stale : MarketDataEvent α) (h : Reads rows pushed stopped e pc) :
    Reads rows (pushed ++ pc.inFlight) stopped (e.runStep stale pc).1 (e.runStep stale pc).2 := by
  cases pc with
  | starting => exact h.of_quiet rfl rfl rfl rfl (fun _ _ => rfl) (fun h => h) h.finished
  | started => exact h.of_quiet rfl rfl rfl rfl h.running (fun h => h) (fun h => h)
  | opening =>
    obtain ⟨lines,hfile,-⟩ := h.wellFormed
    simp only [ReplayEngine.runStep, hfile]
    exact h.of_quiet rfl rfl rfl rfl h.running (fun h => h) h.finished
  | looping =>
    have hnext := h.nextLine stale
    rw [← List.append_nil pushed] at hnext
    exact hnext
  | pushing md =>
    refine ⟨?_,h.wellFormed,rfl,h.running,h.exhausted,h.finished⟩
    have hrows := h.rows_eq
    simpa [RunPc.inFlight, ReplayEngine.runStep] using hrows
  | leaving =>
    exact h.of_quiet rfl rfl rfl rfl (fun _ hreading => absurd hreading Bool.false_ne_true)
      (fun h => h) h.finished
  | finishing =>
    exact h.of_quiet rfl rfl rfl rfl (fun _ hreading => absurd hreading Bool.false_ne_true)
      (fun _ => rfl) (fun _ => rfl)
  | returned => exact h.of_quiet rfl rfl rfl rfl h.running (fun h => h) h.finished
  | thrown => exact absurd h.alive Bool.noConfusion

/-- A thread that returned before any `stop` has pushed every row. -/
theorem pushed_eq (h : Reads rows pushed false e pc) (hreturned : pc.isReturned = true) :
    pushed = rows ∧ e.remaining α = [] := by
  cases pc with
  | returned =>
    have hrest := h.exhausted rfl rfl
    have hrows := h.rows_eq
    rw [hrest] at hrows
    refine ⟨?_,hrest⟩
    simpa [RunPc.inFlight] using hrows
  | _ => contradiction

end Reads
end ReplayEngine
end HftEngine.Replay
