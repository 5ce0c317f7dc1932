import HftEngine.Foundation.Decimal
import HftEngine.Foundation.Machine
import HftEngine.Replay.ReplayEngine

/-! The recorder of market data (replay/market_data_recorder.cpp), and what a replay of the file
that it wrote pushes. -/
namespace HftEngine.Replay
open HftEngine.Core Text

structure MarketDataRecorder where
  /-- What the file holds, if it could be opened. -/
  file : Option (List Char)

/-- `file_ << md.symbol << "," << md.price << "," << ... << md.is_buyer_maker`. -/
def recordLine (md : MarketDataEvent) : Line :=
  md.symbol ++ ',' :: (printDouble md.price ++ ',' :: (printDouble md.quantity ++
    ',' :: (printInt md.exchangeTs ++ ',' :: printBool md.isBuyerMaker)))

namespace MarketDataRecorder

/-- The file is opened for appending; here it is new. -/
def init : MarketDataRecorder := ⟨some []⟩

def record (r : MarketDataRecorder) (md : MarketDataEvent) : MarketDataRecorder :=
  { r with file := r.file.map (· ++ (recordLine md ++ ['\n'])) }

theorem file_foldl_record (mds : List MarketDataEvent) (r : MarketDataRecorder) :
    (mds.foldl record r).file =
      r.file.map (· ++ mds.flatMap fun md => recordLine md ++ ['\n']) := by
  induction mds generalizing r with
  | nil => simp
  | cons md mds ih =>
    rw [List.foldl_cons, ih, record, Option.map_map, List.flatMap_cons]
    congr 1
    funext text
    simp

end MarketDataRecorder

/-- Events of which the recorder makes a row: the symbol is text without separators, and the
values are in the ranges of their types. -/
structure Recordable (md : MarketDataEvent) : Prop where
  symbol_ne : md.symbol ≠ []
  symbol_le : md.symbol.length ≤ 15
  symbol_mem : ∀ c ∈ md.symbol, c ≠ ',' ∧ c ≠ '\n' ∧ c ≠ Char.ofNat 0
  price_lt : |md.price| < 2 ^ 1024 - 2 ^ 970
  quantity_lt : |md.quantity| < 2 ^ 1024 - 2 ^ 970
  exchangeTs_ge : -2 ^ 63 ≤ md.exchangeTs
  exchangeTs_lt : md.exchangeTs < 2 ^ 63

/-- What the text of a row keeps of an event. -/
def printed (md : MarketDataEvent) : MarketDataEvent :=
  { md with
    price := rounded md.price
    quantity := rounded md.quantity }

theorem separator_of_mem : ∀ c ∈ numberChars, c ≠ ',' ∧ c ≠ '\n' := by
  simp [numberChars]

theorem printBool_mem (b : Bool) : ∀ c ∈ printBool b, c ∈ numberChars := by
  cases b <;> simp [printBool, numberChars]

theorem stoiBool_printBool (b : Bool) : stoiBool (printBool b) = .ok b := by
  cases b <;> rfl

theorem not_mem_of_numberChars {text : List Char} (h : ∀ c ∈ text, c ∈ numberChars) :
    ',' ∉ text ∧ '\n' ∉ text :=
  ⟨fun hc => (separator_of_mem _ (h _ hc)).1 rfl,fun hc => (separator_of_mem _ (h _ hc)).2 rfl⟩

theorem copySymbol_self {md : MarketDataEvent} (h : Recordable md) :
    copySymbol md.symbol = md.symbol := by
  have hall : ∀ c ∈ md.symbol, (c != Char.ofNat 0) = true := by
    intro c hc
    rw [bne_iff_ne]
    exact (h.symbol_mem c hc).2.2
  rw [copySymbol, List.takeWhile_eq_self_iff.mpr hall, List.take_of_length_le h.symbol_le]

theorem splitOn_recordLine {md : MarketDataEvent} (h : Recordable md) :
    (recordLine md).splitOn ',' = [md.symbol,printDouble md.price,printDouble md.quantity,
      printInt md.exchangeTs,printBool md.isBuyerMaker] := by
  have hsymbol : ',' ∉ md.symbol := fun hc => (h.symbol_mem _ hc).1 rfl
  have hprice := (not_mem_of_numberChars (printDouble_mem md.price)).1
  have hquantity := (not_mem_of_numberChars (printDouble_mem md.quantity)).1
  have hts := (not_mem_of_numberChars (printInt_mem md.exchangeTs)).1
  have hmaker := (not_mem_of_numberChars (printBool_mem md.isBuyerMaker)).1
  rw [recordLine, List.splitOn_append_cons_self_of_not_mem hsymbol,
    List.splitOn_append_cons_self_of_not_mem hprice,
    List.splitOn_append_cons_self_of_not_mem hquantity,
    List.splitOn_append_cons_self_of_not_mem hts, List.splitOn_eq_singleton hmaker]

/-- A recorded row is well formed, and it is read as the event that was printed. -/
theorem rowEvent_recordLine {md : MarketDataEvent} (h : Recordable md) :
    rowEvent (recordLine md) = some (printed md) := by
  simp only [rowEvent, splitOn_recordLine h, stod_printDouble h.price_lt,
    stod_printDouble h.quantity_lt, stoll_printInt h.exchangeTs_ge h.exchangeTs_lt,
    stoiBool_printBool, copySymbol_self h]
  rfl

theorem newline_not_mem_recordLine {md : MarketDataEvent} (h : Recordable md) :
    '\n' ∉ recordLine md := by
  have hsymbol : '\n' ∉ md.symbol := fun hc => (h.symbol_mem _ hc).2.1 rfl
  have hprice := (not_mem_of_numberChars (printDouble_mem md.price)).2
  have hquantity := (not_mem_of_numberChars (printDouble_mem md.quantity)).2
  have hts := (not_mem_of_numberChars (printInt_mem md.exchangeTs)).2
  have hmaker := (not_mem_of_numberChars (printBool_mem md.isBuyerMaker)).2
  simp [recordLine, hsymbol, hprice, hquantity, hts, hmaker]

/-- The file holds one row for each recorded event. -/
theorem lines_recorded {mds : List MarketDataEvent} (h : ∀ md ∈ mds, Recordable md) :
    lines (mds.flatMap fun md => recordLine md ++ ['\n']) = mds.map recordLine := by
  induction mds with
  | nil => exact lines_nil
  | cons md mds ih =>
    rw [List.flatMap_cons, List.append_assoc, List.singleton_append,
      lines_append_newline (newline_not_mem_recordLine (h md List.mem_cons_self)),
      ih (fun md hmd => h md (List.mem_cons_of_mem _ hmd)), List.map_cons]

section Replaying
variable {α : Type} [ReadNumber α]

/-- The thread that executes `run`: a step is labelled by what the memory of its local event
holds, and observed are the pushes. -/
def replaying : Machine (ReplayEngine × RunPc α) (MarketDataEvent α) (MarketDataEvent α) where
  step s stale := (s.1.runStep stale s.2,s.2.inFlight)

namespace ReplayEngine

/-- The steps that `run` takes if it is not stopped before the end of the file. -/
def stepsLeft (s : ReplayEngine × RunPc α) : ℕ :=
  let unread := (s.1.file.getD []).length
  match s.2 with
  | .starting => 2 * unread + 6
  | .started => 2 * unread + 5
  | .opening => 2 * unread + 4
  | .looping => 2 * unread + 3
  | .pushing _ => 2 * unread + 4
  | .leaving => 2
  | .finishing => 1
  | .returned => 0
  | .thrown => 0

theorem stepsLeft_nextLine (stale : MarketDataEvent α) (e : ReplayEngine) :
    stepsLeft (e.nextLine stale) ≤ 2 * (e.file.getD []).length + 2 := by
  unfold nextLine
  split
  · rename_i hfile
    split <;> simp only [stepsLeft, hfile, Option.getD_some, List.length_cons] <;> omega
  · simp [stepsLeft]

theorem stepsLeft_step (s : ReplayEngine × RunPc α) (stale : MarketDataEvent α) :
    stepsLeft (replaying.step s stale).1 ≤ stepsLeft s - 1 := by
  obtain ⟨e,pc⟩ := s
  cases pc with
  | opening =>
    cases hfile : e.file with
    | none => simp [replaying, runStep, stepsLeft, hfile]
    | some unread => simp [replaying, runStep, stepsLeft, hfile]
  | looping => exact stepsLeft_nextLine stale e
  | _ => simp [replaying, runStep, stepsLeft]

/-- `run` comes to an end on every file. -/
theorem stepsLeft_run_eq_zero (s : ReplayEngine × RunPc α) {stales : List (MarketDataEvent α)}
    (h : stepsLeft s ≤ stales.length) : stepsLeft (replaying.run s stales).1 = 0 := by
  have hmeasure := replaying.run_measure stepsLeft_step s stales
  omega

theorem Reads.isReturned {rows pushed : List (MarketDataEvent α)} {stopped : Bool}
    {s : ReplayEngine × RunPc α} (h : Reads rows pushed stopped s.1 s.2) (hleft : stepsLeft s = 0) :
    s.2.isReturned = true := by
  obtain ⟨e,pc⟩ := s
  cases pc with
  | returned => rfl
  | thrown => exact absurd h.alive (by simp [RunPc.isThrown])
  | _ => simp [stepsLeft] at hleft

/-- A file of well-formed rows is pushed row by row. -/
theorem run_rows {rows : List Line} (h : ∀ row ∈ rows, (rowEvent (α := α) row).isSome = true)
    {stales : List (MarketDataEvent α)} (hlen : 2 * rows.length + 6 ≤ stales.length) :
    (replaying.run (.init (some rows),.starting) stales).1.2.isReturned = true ∧
      (replaying.run (.init (some rows),.starting) stales).2 = rows.filterMap rowEvent := by
  have hreads : Reads (rows.filterMap rowEvent)
      ([] ++ (replaying.run (.init (some rows),.starting) stales).2) false
      (replaying.run (.init (some rows),.starting) stales).1.1
      (replaying.run (.init (some rows),.starting) stales).1.2 :=
    replaying.run_invariant (P := fun _ _ => True)
      (I := fun s pushed => Reads (rows.filterMap rowEvent) pushed false s.1 s.2)
      (fun _ _ stale hs _ => hs.runStep stale) (Reads.init h)
      (replaying.along_of_forall (fun _ _ => trivial) _ _)
  have hreturned := hreads.isReturned (stepsLeft_run_eq_zero _ hlen)
  exact ⟨hreturned,(hreads.pushed_eq hreturned).1⟩

end ReplayEngine

end Replaying

/-- The file that a new recorder has written. -/
def recordedFile (mds : List MarketDataEvent) : Option (List Line) :=
  (mds.foldl MarketDataRecorder.record .init).file.map lines

/-- Replaying a recorded file pushes what was printed of each event. -/
theorem replay_recordedFile {mds : List MarketDataEvent} (h : ∀ md ∈ mds, Recordable md)
    {stales : List MarketDataEvent} (hlen : 2 * mds.length + 6 ≤ stales.length) :
    (replaying.run (.init (recordedFile mds),.starting) stales).1.2.isReturned = true ∧
      (replaying.run (.init (recordedFile mds),.starting) stales).2 = mds.map printed := by
  have hfile : recordedFile mds = some (mds.map recordLine) := by
    rw [recordedFile, MarketDataRecorder.file_foldl_record, ← lines_recorded h]
    rfl
  have hrows : ∀ row ∈ mds.map recordLine, (rowEvent (α := ℚ) row).isSome = true := by
    intro row hrow
    obtain ⟨md,hmd,rfl⟩ := List.mem_map.mp hrow
    rw [rowEvent_recordLine (h md hmd)]
    rfl
  have hevents : (mds.map recordLine).filterMap rowEvent = mds.map printed := by
    rw [List.filterMap_map, ← List.filterMap_eq_map]
    exact List.filterMap_congr (fun md hmd => rowEvent_recordLine (h md hmd))
  rw [hfile, ← hevents]
  exact ReplayEngine.run_rows hrows (by simpa using hlen)

theorem printed_eq_iff (md : MarketDataEvent) : printed md = md ↔
    SignificantDigits defaultPrecision md.price ∧
      SignificantDigits defaultPrecision md.quantity := by
  obtain ⟨symbol,price,quantity,exchangeTs,isBuyerMaker⟩ := md
  simp [printed, rounded_eq_iff]

/-- Recording and replaying gives the events back exactly when the default precision of the
stream is enough for all their prices and quantities. -/
theorem replay_record_iff {mds : List MarketDataEvent} (h : ∀ md ∈ mds, Recordable md)
    {stales : List MarketDataEvent} (hlen : 2 * mds.length + 6 ≤ stales.length) :
    (replaying.run (.init (recordedFile mds),.starting) stales).1.2.isReturned = true ∧
      ((replaying.run (.init (recordedFile mds),.starting) stales).2 = mds ↔
        ∀ md ∈ mds, SignificantDigits defaultPrecision md.price ∧
          SignificantDigits defaultPrecision md.quantity) := by
  obtain ⟨hreturned,hpushed⟩ := replay_recordedFile h hlen
  have hsame : mds.map printed = mds ↔ ∀ md ∈ mds, printed md = md := by
    simpa using List.map_inj_left (l := mds) (f := printed) (g := id)
  refine ⟨hreturned,?_⟩
  rw [hpushed, hsame]
  constructor
  · intro hprinted md hmd
    exact (printed_eq_iff md).mp (hprinted md hmd)
  · intro hdigits md hmd
    exact (printed_eq_iff md).mpr (hdigits md hmd)

/-- A trade like those of the checked-in data file. -/
def trade (price : ℚ) : MarketDataEvent :=
  ⟨['B','T','C','U','S','D','T'],price,1/100,61414782521100,false⟩

theorem recordable_trade {price : ℚ} (h : |price| < 2 ^ 1024 - 2 ^ 970) :
    Recordable (trade price) where
  symbol_ne := by simp [trade]
  symbol_le := by simp [trade]
  symbol_mem := by simp [trade]
  price_lt := h
  quantity_lt := by
    change |(1/100 : ℚ)| < 2 ^ 1024 - 2 ^ 970
    decide +kernel
  exchangeTs_ge := by simp [trade]
  exchangeTs_lt := by simp [trade]

theorem replay_record_trade :
    (replaying.run (.init (recordedFile [trade (500003/10)]),.starting)
      (List.replicate 8 (trade 0))).2 = [trade (500003/10)] := by
  have hrecordable : ∀ md ∈ [trade (500003/10)], Recordable md := by
    intro md hmd
    rw [List.mem_singleton.mp hmd]
    exact recordable_trade (by decide +kernel)
  refine (replay_record_iff hrecordable (by decide)).2.mpr ?_
  intro md hmd
  rw [List.mem_singleton.mp hmd]
  exact ⟨⟨500003,-1,by decide,by norm_num [trade]⟩,⟨1,-2,by decide,by norm_num [trade]⟩⟩

/-- A price of seven digits comes back rounded. -/
theorem recorded_price_rounded : ∃ md, Recordable md ∧ SignificantDigits 15 md.price ∧
    SignificantDigits 15 md.quantity ∧
    (replaying.run (.init (recordedFile [md]),.starting) (List.replicate 8 md)).2 =
      [{ md with price := 123457 }] ∧ ({ md with price := 123457 } : MarketDataEvent) ≠ md := by
  refine ⟨trade (1234567/10),recordable_trade (by decide +kernel),?_,?_,by decide +kernel,
    by decide +kernel⟩
  · exact ⟨1234567,-1,by decide,by norm_num [trade]⟩
  · exact ⟨1,-2,by decide,by norm_num [trade]⟩

end HftEngine.Replay
