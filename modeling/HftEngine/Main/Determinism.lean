import HftEngine.Foundation.Double
import HftEngine.Main.Lockstep
import HftEngine.Pnl.Marking

/-! Replays of the system that main.cpp wires. As long as no tick is handled while an order is
on its way to the exchange, a run does what the lockstep backtest does, wherever the feed's
pushes fall; and then two replays of the same ticks trade the same. -/
set_option linter.unusedSectionVars false

namespace HftEngine.Main
open HftEngine.Core Strategy Pnl Exchange Oms Risk Fifo Number
variable {α : Type}

/-- An order on its way to the exchange. -/
def isOrder : Event α → Bool
  | .orderRequest _ => true
  | .validatedOrder _ => true
  | _ => false

def NoOrder (p : List (Event α)) : Prop := ∀ event ∈ p, isOrder event = false

/-- If the event to be handled is a tick, then no order is on its way. -/
def TickAfterOrders {σ : Type} (_ : Components σ α) : List (Event α) → Prop
  | .marketData _ :: p => NoOrder p
  | _ => True

instance (p : List (Event α)) : Decidable (NoOrder p) :=
  inferInstanceAs (Decidable (∀ event ∈ p, isOrder event = false))

instance {σ : Type} (c : Components σ α) : (p : List (Event α)) → Decidable (TickAfterOrders c p)
  | [] => isTrue trivial
  | .marketData _ :: p => inferInstanceAs (Decidable (NoOrder p))
  | .orderRequest _ :: _ => isTrue trivial
  | .validatedOrder _ :: _ => isTrue trivial
  | .executionReport _ :: _ => isTrue trivial
  | .cancelOrder _ :: _ => isTrue trivial

theorem NoOrder.append {p q : List (Event α)} (hp : NoOrder p) (hq : NoOrder q) :
    NoOrder (p ++ q) := by
  intro event hevent
  rcases List.mem_append.mp hevent with h | h
  · exact hp event h
  · exact hq event h

theorem noOrder_reports (reports : List (ExecutionReport α)) :
    NoOrder (reports.map .executionReport) := by
  intro event hevent
  obtain ⟨report,-,rfl⟩ := List.mem_map.mp hevent
  rfl

variable [Add α] [Sub α] [Mul α] [Div α] [Neg α] [LT α] [DecidableLT α] [LE α]
  [DecidableLE α] [Min α] [Max α] [∀ n, OfNat α n] [Integral α]

/-- The components stand where the backtest stands, up to timestamps and the market maker's
idea of the position. -/
structure Agrees (c : Components (StrategyEngine α) α) (k : Lockstep α) : Prop where
  book : c.orderBook = .init α
  strategy : ∃ mm, c.strategy = [.marketMaker mm,.momentum k.momentum]
  engine : untimedEngine c.matchingEngine = k.engine

/-- Where a run stands in the backtest `k` of the ticks handled so far: `done` are the fills
handled, and at most one order is on its way. -/
inductive Phase (c : Components (StrategyEngine α) α) (p : List (Event α)) (done : List (Fill α)) :
    Lockstep α → Prop
  | idle (k : Lockstep α) (hp : NoOrder p) (hc : Agrees c k)
    (hfills : done ++ fillsOf p = k.fills) : Phase c p done k
  | requested (k : Lockstep α) (md : MarketDataEvent α) (order request : OrderRequest α)
    (pre post : List (Event α)) (hp : p = pre ++ .orderRequest request :: post) (hpre : NoOrder pre)
    (hpost : NoOrder post) (hsignal : momentumSignal k.momentum md = some order)
    (horder : untimed request = untimed order) (hc : Agrees c (k.sweep md))
    (hbefore : done ++ fillsOf pre = k.fills)
    (hfills : done ++ fillsOf p = (k.sweep md).fills) : Phase c p done (k.tick md)
  | validated (k : Lockstep α) (md : MarketDataEvent α) (order request : OrderRequest α)
    (pre post : List (Event α)) (hp : p = pre ++ .validatedOrder request :: post)
    (hpre : NoOrder pre) (hpost : NoOrder post)
    (hsignal : momentumSignal k.momentum md = some order)
    (hadmitted : k.admitted order = true) (horder : untimed request = untimed order)
    (hc : Agrees c (k.sweep md)) (hfills : done ++ fillsOf p = (k.sweep md).fills) :
    Phase c p done (k.tick md)

namespace Components
variable (clock : Clock) {c : Components (StrategyEngine α) α} {k : Lockstep α}

abbrev wired (c : Components (StrategyEngine α) α) (clock : Clock) (event : Event α) :=
  c.dispatch (StrategyEngine.api α) clock event

/-- A report is booked, and nothing else happens. -/
theorem wired_report (hc : Agrees c k) (report : ExecutionReport α) :
    Agrees (c.wired clock (.executionReport report)).1 k ∧
      (c.wired clock (.executionReport report)).2 = [] := by
  obtain ⟨mm,hmm⟩ := hc.strategy
  refine ⟨⟨?_,⟨mm,?_⟩,?_⟩,rfl⟩
  · rw [← hc.book]
    simp only [wired, dispatch, onExecutionReport]
    split <;> rfl
  · rw [← hmm]
    simp only [wired, dispatch, onExecutionReport]
    split <;> rfl
  · rw [← hc.engine]
    simp only [wired, dispatch, onExecutionReport_matchingEngine]

/-- With an empty book a tick brings the order of the momentum strategy and the sweep's reports. -/
theorem wired_signal {mm : MarketMakerStrategy α} {s : MomentumStrategy α}
    (hbook : c.orderBook = .init α)
    (hstrategy : c.strategy = [.marketMaker mm,.momentum s]) (md : MarketDataEvent α) :
    (c.wired clock (.marketData md)).1.strategy =
      [.marketMaker (mm.updatePosition c.pnlEngine.getTotalPosition),
        .momentum (momentumNext s md)] ∧
    (c.wired clock (.marketData md)).2 = (momentumSignal s md).toList.map
      (fun order => .orderRequest { order with signalTs := clock 3 }) ++
      (c.matchingEngine.updateMarketPrice md).2.map .executionReport := by
  have hsignalled : (StrategyEngine.api α).onMarketData c.orderBook clock md
      ((StrategyEngine.api α).updatePosition c.pnlEngine.getTotalPosition c.strategy) =
      ([.marketMaker (mm.updatePosition c.pnlEngine.getTotalPosition),
        .momentum (momentumNext s md)],(momentumSignal s md).toList.map
          (fun order => .orderRequest { order with signalTs := clock 3 })) := by
    rw [hbook, hstrategy]
    exact main_onMarketData _ s clock md
  constructor
  · simp only [wired, dispatch, onMarketData, hsignalled]
  · simp only [wired, dispatch, onMarketData, hsignalled, List.map_map]
    rfl

/-- A tick moves strategy and exchange as in the backtest. -/
theorem wired_tick (hc : Agrees c k) (md : MarketDataEvent α) :
    Agrees (c.wired clock (.marketData md)).1 (k.sweep md) ∧
    ∃ reports : List (ExecutionReport α), fillsOf (reports.map .executionReport) =
        fillsOf ((k.engine.updateMarketPrice md).2.map .executionReport) ∧
      (c.wired clock (.marketData md)).2 = (momentumSignal k.momentum md).toList.map
        (fun order => .orderRequest { order with signalTs := clock 3 }) ++
        reports.map .executionReport := by
  obtain ⟨mm,hmm⟩ := hc.strategy
  obtain ⟨hengine,hfills⟩ := untimed_updateMarketPrice c.matchingEngine md
  rw [hc.engine] at hengine hfills
  obtain ⟨hstrategy,houts⟩ := wired_signal clock hc.book hmm md
  exact ⟨⟨hc.book,⟨_,hstrategy⟩,hengine⟩,(c.matchingEngine.updateMarketPrice md).2,hfills,houts⟩

/-- An order arrives as in the backtest. -/
theorem wired_arrive (hc : Agrees c k) {request order : OrderRequest α}
    (horder : untimed request = untimed order) :
    Agrees (c.wired clock (.validatedOrder request)).1 (k.arrive order) ∧
    ∃ reports : List (ExecutionReport α), fillsOf (reports.map .executionReport) =
        fillsOf ((k.engine.processOrder (untimed order)).2.map .executionReport) ∧
      (c.wired clock (.validatedOrder request)).2 = reports.map .executionReport := by
  obtain ⟨hengine,hfills⟩ := untimed_processOrder c.matchingEngine request
  rw [hc.engine, horder] at hengine hfills
  exact ⟨⟨hc.book,hc.strategy,hengine⟩,_,hfills,rfl⟩

end Components
namespace Phase
variable {c d : Components (StrategyEngine α) α} {p outs : List (Event α)} {done : List (Fill α)}
  {k : Lockstep α} {clock : Clock}

/-- The head of a queue with one order: the order itself, or an event that is none. -/
theorem head_cases {event order : Event α} {pre post : List (Event α)} (hpre : NoOrder pre)
    (h : event :: p = pre ++ order :: post) : (pre = [] ∧ event = order ∧ p = post) ∨
      isOrder event = false ∧ ∃ pre', pre = event :: pre' ∧ NoOrder pre' ∧
        p = pre' ++ order :: post := by
  cases pre with
  | nil =>
    rw [List.nil_append, List.cons.injEq] at h
    exact .inl ⟨rfl,h.1,h.2⟩
  | cons e pre' =>
    rw [List.cons_append, List.cons.injEq] at h
    obtain ⟨rfl,hp⟩ := h
    exact .inr ⟨hpre event List.mem_cons_self,pre',rfl,
      fun x hx => hpre x (List.mem_cons_of_mem _ hx),hp⟩

/-- Ticks that the feed pushes wait at the end of the queue. -/
theorem push (h : Phase c p done k) (hfills : fillsOf outs = []) (hnone : NoOrder outs) :
    Phase c (p ++ outs) done k := by
  cases h with
  | idle k hp hc hf =>
    refine .idle k (hp.append hnone) hc ?_
    rw [fillsOf_append, hfills, List.append_nil, hf]
  | requested k md order request pre post hp hpre hpost hsignal horder hc hbefore hf =>
    refine .requested k md order request pre (post ++ outs) ?_ hpre (hpost.append hnone) hsignal
      horder hc hbefore ?_
    · rw [hp, List.append_assoc, List.cons_append]
    · rw [fillsOf_append, hfills, List.append_nil, hf]
  | validated k md order request pre post hp hpre hpost hsignal hadmitted horder hc hf =>
    refine .validated k md order request pre (post ++ outs) ?_ hpre (hpost.append hnone) hsignal
      hadmitted horder hc ?_
    · rw [hp, List.append_assoc, List.cons_append]
    · rw [fillsOf_append, hfills, List.append_nil, hf]

/-- An event that is no order and changes nothing the backtest knows of is taken off. -/
theorem skip {event : Event α} (h : Phase c (event :: p) done k) (hevent : isOrder event = false)
    (hd : ∀ k, Agrees c k → Agrees d k) : Phase d p (done ++ fillsOf [event]) k := by
  cases h with
  | idle k hp hc hf =>
    refine .idle k (fun x hx => hp x (List.mem_cons_of_mem _ hx)) (hd k hc) ?_
    rw [← hf, fillsOf_cons event p, List.append_assoc]
  | requested k md order request pre post hp hpre hpost hsignal horder hc hbefore hf =>
    rcases head_cases hpre hp with ⟨-,rfl,-⟩ | ⟨-,pre',rfl,hpre',hp'⟩
    · exact absurd hevent (by simp [isOrder])
    · refine .requested k md order request pre' post hp' hpre' hpost hsignal horder (hd _ hc) ?_ ?_
      · rw [← hbefore, fillsOf_cons event pre', List.append_assoc]
      · rw [← hf, fillsOf_cons event p, List.append_assoc]
  | validated k md order request pre post hp hpre hpost hsignal hadmitted horder hc hf =>
    rcases head_cases hpre hp with ⟨-,rfl,-⟩ | ⟨-,pre',rfl,hpre',hp'⟩
    · exact absurd hevent (by simp [isOrder])
    · refine .validated k md order request pre' post hp' hpre' hpost hsignal hadmitted horder
        (hd _ hc) ?_
      rw [← hf, fillsOf_cons event p, List.append_assoc]

/-- Without an order on its way the run stands at a tick boundary of the backtest. -/
theorem of_noOrder (h : Phase c p done k) (hp : NoOrder p) :
    Agrees c k ∧ done ++ fillsOf p = k.fills := by
  have hmem : ∀ {order : Event α} {pre post : List (Event α)}, p = pre ++ order :: post →
      isOrder order = false := by
    intro order pre post heq
    exact hp order (by rw [heq]; exact List.mem_append_right _ List.mem_cons_self)
  cases h with
  | idle k _ hc hf => exact ⟨hc,hf⟩
  | requested k md order request pre post heq => exact absurd (hmem heq) (by simp [isOrder])
  | validated k md order request pre post heq => exact absurd (hmem heq) (by simp [isOrder])

/-- A tick that no order waits for starts the next round of the backtest. -/
theorem tick {md : MarketDataEvent α} (h : Phase c (.marketData md :: p) done k) (hp : NoOrder p) :
    Phase (c.wired clock (.marketData md)).1 (p ++ (c.wired clock (.marketData md)).2) done
      (k.tick md) := by
  have hp' : NoOrder (.marketData md :: p) := by
    intro event hevent
    rcases List.mem_cons.mp hevent with rfl | hmem
    · rfl
    · exact hp event hmem
  obtain ⟨hc,hf⟩ := h.of_noOrder hp'
  obtain ⟨hc',reports,hreports,houts⟩ := Components.wired_tick clock hc md
  have hf' : done ++ fillsOf p = k.fills := hf
  have hswept : done ++ (fillsOf p ++ fillsOf (reports.map .executionReport)) =
      (k.sweep md).fills := by
    rw [← List.append_assoc, hf', hreports]
    rfl
  rw [houts]
  cases hsignal : momentumSignal k.momentum md with
  | none =>
    rw [Lockstep.tick_none hsignal]
    refine .idle _ (hp.append (noOrder_reports reports)) hc' ?_
    rw [Option.toList_none, List.map_nil, List.nil_append, fillsOf_append, hswept]
  | some order =>
    refine .requested k md order _ p (reports.map .executionReport) rfl hp
      (noOrder_reports reports) hsignal rfl hc' hf' ?_
    rw [fillsOf_append]
    exact hswept

/-- The OMS sees the request when exactly the fills before its tick are booked. -/
theorem request {request : OrderRequest α} (h : Phase c (.orderRequest request :: p) done k)
    (hrisk : c.risk = ⟨(done.map Fill.signedQty).foldl (· + ·) 0,100⟩) :
    Phase (c.wired clock (.orderRequest request)).1
      (p ++ (c.wired clock (.orderRequest request)).2) done k := by
  cases h with
  | idle k hp => exact absurd (hp (.orderRequest request) List.mem_cons_self) (by simp [isOrder])
  | validated k md order r pre post hp hpre =>
    rcases head_cases hpre hp with ⟨-,heq,-⟩ | ⟨hno,-⟩
    · cases heq
    · exact absurd hno (by simp [isOrder])
  | requested k md order r pre post hp hpre hpost hsignal horder hc hbefore hf =>
    rcases head_cases hpre hp with ⟨rfl,heq,rfl⟩ | ⟨hno,-⟩
    · cases heq
      rw [fillsOf_nil, List.append_nil] at hbefore
      have hf' : done ++ fillsOf p = (k.sweep md).fills := hf
      have hverdict : OrderManager.validateOrder c.risk request = k.admitted order := by
        have hblank : ∀ o, OrderManager.validateOrder ⟨k.position,100⟩ (untimed o) =
            OrderManager.validateOrder ⟨k.position,100⟩ o := fun _ => rfl
        rw [hrisk, hbefore, Lockstep.admitted, ← hblank order, ← horder, hblank]
        rfl
      have hc' : Agrees (c.wired clock (.orderRequest request)).1 (k.sweep md) :=
        ⟨hc.book,hc.strategy,hc.engine⟩
      cases hv : k.admitted order with
      | true =>
        have houts : (c.wired clock (.orderRequest request)).2 =
            [.validatedOrder { request with orderTs := clock 0 }] :=
          Components.onOrderRequest_accepted clock c (hverdict.trans hv)
        rw [houts]
        refine .validated k md order _ p [] rfl hpost (by simp [NoOrder]) hsignal hv
          horder hc' ?_
        rw [fillsOf_append, ← hf']
        exact congrArg (done ++ ·) (List.append_nil _)
      | false =>
        have houts : (c.wired clock (.orderRequest request)).2 = [] :=
          Components.onOrderRequest_rejected clock c (hverdict.trans hv)
        rw [houts, List.append_nil, Lockstep.tick_rejected hsignal hv]
        exact .idle _ hpost hc' hf'
    · exact absurd hno (by simp [isOrder])

/-- The order arrives at the exchange that the sweep of its tick left behind. -/
theorem arrive {request : OrderRequest α} (h : Phase c (.validatedOrder request :: p) done k) :
    Phase (c.wired clock (.validatedOrder request)).1
      (p ++ (c.wired clock (.validatedOrder request)).2) done k := by
  cases h with
  | idle k hp => exact absurd (hp (.validatedOrder request) List.mem_cons_self) (by simp [isOrder])
  | requested k md order r pre post hp hpre =>
    rcases head_cases hpre hp with ⟨-,heq,-⟩ | ⟨hno,-⟩
    · cases heq
    · exact absurd hno (by simp [isOrder])
  | validated k md order r pre post hp hpre hpost hsignal hadmitted horder hc hf =>
    rcases head_cases hpre hp with ⟨rfl,heq,rfl⟩ | ⟨hno,-⟩
    · cases heq
      have hf' : done ++ fillsOf p = (k.sweep md).fills := hf
      obtain ⟨hc',reports,hreports,houts⟩ := Components.wired_arrive clock hc horder
      rw [Lockstep.tick_admitted hsignal hadmitted, houts]
      refine .idle _ (hpost.append (noOrder_reports reports)) hc' ?_
      rw [fillsOf_append, ← List.append_assoc, hf', hreports]
      rfl
    · exact absurd hno (by simp [isOrder])

end Phase

namespace EventLoop

/-- The ticks pushed in a run are those of its feed actions. -/
theorem ticksOf_attempted {σ : Type} (S : StrategyApi σ α) (s : EventLoop σ α)
    (actions : List (Action α)) :
    ticksOf (attempted (run S s (actions.map .ample)).2) = actions.filterMap Action.tick := by
  induction actions generalizing s with
  | nil => rfl
  | cons action actions ih =>
    rw [List.map_cons, run_cons, attempted_append, ticksOf_append, ih]
    cases action with
    | feed md => rfl
    | submit event =>
      have hnone : ticksOf (attempted (step S s (.ample (.submit event))).2) = [] := by
        cases event <;> rfl
      rw [hnone]
      rfl
    | process clock =>
      have hnone : ticksOf (attempted (step S s (.ample (.process clock))).2) = [] := by
        cases step_cases S s (.ample (.process clock)) with
        | input event ok hpush => contradiction
        | idle _ htrace =>
          rw [htrace]
          rfl
        | handle clock' event rest ops _ _ _ _ htrace hattempted =>
          rw [htrace, attempted_pop, hattempted]
          exact ticksOf_dispatch S clock' s.components event
      rw [hnone]
      rfl

/-- The run rule for the wired system with pushes that all succeed: only ticks come from outside,
and all that a handler pushes waits at the end of the queue. -/
theorem run_wired {C : Components (StrategyEngine α) α → List (Event α) → Prop}
    {I : Components (StrategyEngine α) α → List (Event α) → List (Op (Event α)) → Prop}
    (hpush : ∀ c p tr md, I c p tr →
      I c (p ++ [.marketData md]) (tr ++ [.push (.marketData md) true]))
    (hhandle : ∀ c event p tr clock ops, I c (event :: p) tr → C c (event :: p) →
      attempted ops = (c.wired clock event).2 → popped ops = [] →
      I (c.wired clock event).1 (p ++ (c.wired clock event).2) (tr ++ .pop event :: ops))
    (hinit : I (.init (StrategyEngine.main α) 100) [] []) {actions : List (Action α)}
    (hwired : ∀ action ∈ actions, action.isSubmit = false)
    (hmeets : Meets (StrategyEngine.api α) C (init (StrategyEngine.main α) 100)
      (actions.map .ample)) :
    let final := run (StrategyEngine.api α) (init (StrategyEngine.main α) 100) (actions.map .ample)
    I final.1.components final.1.pending final.2 := by
  have hinv := run_invariant_of (S := StrategyEngine.api α)
    (J := fun event => ∃ md, event = .marketData md) (C := C)
    (I := fun c p tr => refused tr = [] → I c p tr) ?_ ?_ (fun _ => hinit) ?_ hmeets
  · exact hinv (refused_ample _ _ actions)
  · rintro c p tr event ok ⟨md,rfl⟩ ih hrefused
    rw [refused_append, List.append_eq_nil_iff] at hrefused
    cases ok with
    | true => exact hpush c p tr md (ih hrefused.1)
    | false => exact absurd hrefused.2 (List.cons_ne_nil _ _)
  · intro c event p tr clock ops ih hcond hattempted hpopped hrefused
    rw [refused_append, refused_pop, List.append_eq_nil_iff] at hrefused
    rw [accepted_eq_attempted hrefused.2, hattempted]
    exact hhandle c event p tr clock ops (ih hrefused.1) hcond hattempted hpopped
  · intro l hl event hpushed
    obtain ⟨action,haction,rfl⟩ := List.mem_map.mp hl
    cases action with
    | feed md => exact ⟨md,by simpa [Label.ample, Action.input] using hpushed.symm⟩
    | submit e => exact absurd (hwired _ haction) (by simp [Action.isSubmit])
    | process clock => simp [Label.ample, Action.input] at hpushed

/-- A run without an order on its way at any tick stands where the lockstep backtest of the
ticks it has handled stands. -/
theorem follows_lockstep (actions : List (Action α))
    (hwired : ∀ action ∈ actions, action.isSubmit = false)
    (horders : Meets (StrategyEngine.api α) TickAfterOrders (init (StrategyEngine.main α) 100)
      (actions.map .ample)) :
    let final := run (StrategyEngine.api α) (init (StrategyEngine.main α) 100) (actions.map .ample)
    Phase final.1.components final.1.pending (fillsOf (popped final.2))
      (Lockstep.replay (ticksOf (popped final.2))) := by
  have hinv := run_wired (C := TickAfterOrders) (I := fun c p tr =>
    Phase c p (fillsOf (popped tr)) (Lockstep.replay (ticksOf (popped tr))) ∧
      c.risk = ⟨((fillsOf (popped tr)).map Fill.signedQty).foldl (· + ·) 0,100⟩)
    ?_ ?_ ?_ hwired horders
  · exact hinv.1
  · rintro c p tr md ⟨hphase,hrisk⟩
    rw [popped_append, popped_push, popped_nil, List.append_nil]
    exact ⟨hphase.push rfl (by simp [NoOrder, isOrder]),hrisk⟩
  · rintro c event p tr clock ops ⟨hphase,hrisk⟩ hcond hattempted hpopped
    rw [popped_append, popped_pop, hpopped, fillsOf_append, ticksOf_append, Lockstep.replay,
      List.foldl_append]
    rw [Lockstep.replay] at hphase
    constructor
    · cases event with
      | marketData md =>
        rw [fillsOf_input (by trivial), List.append_nil]
        exact hphase.tick hcond
      | orderRequest request =>
        rw [fillsOf_input (by trivial), List.append_nil]
        exact hphase.request hrisk
      | validatedOrder order =>
        have hnone : fillsOf [.validatedOrder order] = [] := rfl
        rw [hnone, List.append_nil]
        exact hphase.arrive
      | cancelOrder orderId =>
        have hskip := hphase.skip (d := (c.wired clock (.cancelOrder orderId)).1) rfl
          (fun k hc => ⟨hc.book,hc.strategy,hc.engine⟩)
        exact hskip.push rfl (noOrder_reports _)
      | executionReport report =>
        have hskip := hphase.skip (d := (c.wired clock (.executionReport report)).1) rfl
          (fun k hc => (Components.wired_report clock hc report).1)
        exact hskip.push rfl (by simp [NoOrder, StrategyEngine.api, Components.dispatch])
    · have hposition := Components.dispatch_booked (StrategyEngine.api α) clock c event
      have hlimit : (c.dispatch (StrategyEngine.api α) clock event).1.risk.maxPosition = 100 := by
        rw [Components.dispatch_maxPosition, hrisk]
      rw [hrisk, ← signedQtys_fillsOf] at hposition
      rw [List.map_append, List.foldl_append, ← hposition, ← hlimit]
  · refine ⟨.idle _ ?_ ⟨rfl,⟨_,rfl⟩,rfl⟩ rfl,rfl⟩
    intro event hevent
    exact absurd hevent List.not_mem_nil

/-- The entry of a strategy after its fills, in order. -/
def statsAfter (id : ℕ) (fills : List (Fill α)) : StrategyStats α :=
  fills.foldl (fun stats fill =>
    if fill.strategyId = id then stats.fill fill.side fill.price fill.quantity else stats) (.init α)

/-- What a strategy has realised follows from the fills handled so far. -/
theorem stats_settled {σ : Type} (S : StrategyApi σ α) (strategy : σ) (maxPosition : α)
    (labels : List (Label α)) (id : ℕ) :
    let final := run S (init strategy maxPosition) labels
    (final.1.components.pnlEngine.stats id).settled = statsAfter id (fillsOf (popped final.2)) := by
  apply run_invariant' (I := fun c _ tr =>
    (c.pnlEngine.stats id).settled = statsAfter id (fillsOf (popped tr)))
  · intro c p tr event ok _ ih
    simpa using ih
  · intro c event p tr clock ops ih _ hpopped
    rw [popped_append, popped_pop, hpopped, fillsOf_append, statsAfter, List.foldl_append,
      ← statsAfter, ← ih]
    cases event with
    | executionReport report =>
      rw [Components.dispatch, Components.onExecutionReport_pnlEngine,
        PnlEngine.settled_updatePnl]
      by_cases h : report.status = .filled
      · have hfill : fillsOf [.executionReport report] = [Fill.ofReport report] := by
          simp [fillsOf, filledReports, filledReport, h]
        rw [if_pos h, PnlEngine.stats_onFill, hfill, List.foldl_cons, List.foldl_nil]
        by_cases hid : id = report.strategyId
        · rw [if_pos hid, StrategyStats.settled_fill, hid]
          exact (if_pos rfl).symm
        · rw [if_neg hid]
          exact (if_neg (Ne.symm hid)).symm
      · have hfill : fillsOf [.executionReport report] = [] := by
          simp [fillsOf, filledReports, filledReport, h]
        rw [if_neg h, hfill]
        rfl
    | _ => rfl
  · rfl

end EventLoop

/-- A run of the wired system over all of the ticks, until nothing is left to handle. -/
structure CompleteReplay (ticks : List (MarketDataEvent α)) (actions : List (Action α)) : Prop where
  wired : ∀ action ∈ actions, action.isSubmit = false
  fed : actions.filterMap Action.tick = ticks
  finished : (EventLoop.run (StrategyEngine.api α) (.init (StrategyEngine.main α) 100)
    (actions.map .ample)).1.pending = []

namespace EventLoop

/-- A complete replay without an order on its way at any tick trades what the lockstep
backtest trades. -/
theorem fills_lockstep {ticks : List (MarketDataEvent α)} {actions : List (Action α)}
    (hcomplete : CompleteReplay ticks actions)
    (horders : Meets (StrategyEngine.api α) TickAfterOrders (init (StrategyEngine.main α) 100)
      (actions.map .ample)) :
    fillsOf (popped (run (StrategyEngine.api α) (init (StrategyEngine.main α) 100)
      (actions.map .ample)).2) = (Lockstep.replay ticks).fills := by
  have hphase := follows_lockstep actions hcomplete.wired horders
  have hpopped := accepted_eq (S := StrategyEngine.api α) (StrategyEngine.main α) 100
    (actions.map .ample)
  rw [hcomplete.finished, List.append_nil, accepted_eq_attempted (refused_ample _ _ actions)]
    at hpopped
  have hticks := ticksOf_attempted (StrategyEngine.api α) (init (StrategyEngine.main α) 100) actions
  rw [hpopped, hcomplete.fed] at hticks
  simp only [hcomplete.finished, hticks] at hphase
  have hfills := (hphase.of_noOrder (by simp [NoOrder])).2
  rw [← hfills, fillsOf_nil, List.append_nil]

/-- Two complete replays of the same ticks, wherever the pushes of the feed fall, report the
same fills and leave every strategy with the same position and realised profit, as long as in
neither of them a tick is handled while an order is on its way. -/
theorem replay_deterministic (ticks : List (MarketDataEvent α)) (xs ys : List (Action α))
    (hx : CompleteReplay ticks xs) (hy : CompleteReplay ticks ys)
    (hordersx : Meets (StrategyEngine.api α) TickAfterOrders (init (StrategyEngine.main α) 100)
      (xs.map .ample))
    (hordersy : Meets (StrategyEngine.api α) TickAfterOrders (init (StrategyEngine.main α) 100)
      (ys.map .ample)) :
    let a := run (StrategyEngine.api α) (init (StrategyEngine.main α) 100) (xs.map .ample)
    let b := run (StrategyEngine.api α) (init (StrategyEngine.main α) 100) (ys.map .ample)
    fillsOf (popped a.2) = fillsOf (popped b.2) ∧
    ∀ id, (a.1.components.pnlEngine.stats id).position =
        (b.1.components.pnlEngine.stats id).position ∧
      (a.1.components.pnlEngine.stats id).realizedPnl =
        (b.1.components.pnlEngine.stats id).realizedPnl := by
  intro a b
  have hfills : fillsOf (popped a.2) = fillsOf (popped b.2) :=
    (fills_lockstep hx hordersx).trans (fills_lockstep hy hordersy).symm
  refine ⟨hfills,?_⟩
  intro id
  have hsettled : (a.1.components.pnlEngine.stats id).settled =
      (b.1.components.pnlEngine.stats id).settled := by
    have ha := stats_settled (StrategyEngine.api α) (StrategyEngine.main α) 100 (xs.map .ample) id
    have hb := stats_settled (StrategyEngine.api α) (StrategyEngine.main α) 100 (ys.map .ample) id
    exact ha.trans ((congrArg (statsAfter id) hfills).trans hb.symm)
  have hposition := congrArg StrategyStats.position hsettled
  have hrealized := congrArg StrategyStats.realizedPnl hsettled
  exact ⟨hposition,hrealized⟩

/-- Feed actions for prices. -/
def feedPrices (prices : List Double) : List (Action Double) :=
  prices.map (fun price => .feed ⟨[],price,1,0,false⟩)

def handle (n : ℕ) : List (Action Double) := List.replicate n (.process (fun _ => 0))

def jumpTicks : List (MarketDataEvent Double) :=
  (List.replicate 49 (100 : Double) ++ [200,150]).map (fun price => ⟨[],price,1,0,false⟩)

/-- The jump to 200 makes the momentum strategy buy, and the fall to 150 comes once all that is
done. -/
def jumpThenFall : List (Action Double) :=
  feedPrices (List.replicate 49 100) ++ handle 120 ++ feedPrices [200] ++ handle 12 ++
    feedPrices [150] ++ handle 12

/-- The same with the first ticks pushed in two groups. -/
def slowJumpThenFall : List (Action Double) :=
  feedPrices (List.replicate 20 100) ++ handle 50 ++ feedPrices (List.replicate 29 100) ++
    handle 70 ++ feedPrices [200] ++ handle 20 ++ feedPrices [150] ++ handle 12

/-- The fall to 150 is pushed right behind the jump. -/
def jumpWithFall : List (Action Double) :=
  feedPrices (List.replicate 49 100) ++ handle 120 ++ feedPrices [200,150] ++ handle 24

theorem complete_jumpThenFall : CompleteReplay jumpTicks jumpThenFall :=
  ⟨by decide +kernel,by decide +kernel,by decide +kernel⟩

theorem complete_slowJumpThenFall : CompleteReplay jumpTicks slowJumpThenFall :=
  ⟨by decide +kernel,by decide +kernel,by decide +kernel⟩

theorem complete_jumpWithFall : CompleteReplay jumpTicks jumpWithFall :=
  ⟨by decide +kernel,by decide +kernel,by decide +kernel⟩

theorem replay_deterministic_jump :
    fillsOf (popped (run (StrategyEngine.api Double) (init (StrategyEngine.main Double) 100)
      (jumpThenFall.map .ample)).2) =
    fillsOf (popped (run (StrategyEngine.api Double) (init (StrategyEngine.main Double) 100)
      (slowJumpThenFall.map .ample)).2) :=
  (replay_deterministic jumpTicks jumpThenFall slowJumpThenFall complete_jumpThenFall
    complete_slowJumpThenFall (by decide +kernel) (by decide +kernel)).1

/-- One replay buys at 200.25, the other at 150.25. -/
theorem replays_differ :
    CompleteReplay jumpTicks jumpThenFall ∧ CompleteReplay jumpTicks jumpWithFall ∧
    fillsOf (popped (run (StrategyEngine.api Double) (init (StrategyEngine.main Double) 100)
      (jumpThenFall.map .ample)).2) = [⟨2000000,2,.buy,801/4,1/2⟩] ∧
    fillsOf (popped (run (StrategyEngine.api Double) (init (StrategyEngine.main Double) 100)
      (jumpWithFall.map .ample)).2) = [⟨2000000,2,.buy,601/4,1/2⟩] := by
  refine ⟨complete_jumpThenFall,complete_jumpWithFall,?_,?_⟩
  · decide +kernel
  · decide +kernel

end EventLoop
end HftEngine.Main
