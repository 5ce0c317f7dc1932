import HftEngine.Strategy.WorkingOrders

/-! How fast the market maker quotes. Quote rounds are 50 ms apart whatever the ticks and the clock
do, and a round cancels at most two orders and submits at most two, which bounds what it pushes in
any window of time. -/
set_option linter.unusedSectionVars false

namespace HftEngine.Strategy
open HftEngine.Core Number
variable {α : Type}

theorem span_of_spaced {times : List ℕ} {gap : ℕ} (start width : ℕ)
    (hspaced : times.Pairwise (fun t t' => t + gap ≤ t'))
    (hwindow : ∀ t ∈ times, start ≤ t ∧ t ≤ start + width) :
    (times.length - 1) * gap ≤ width := by
  induction times generalizing start width with
  | nil => simp
  | cons t times ih =>
    obtain ⟨hfirst,hrest⟩ := List.pairwise_cons.mp hspaced
    obtain ⟨hstart,hend⟩ := hwindow t List.mem_cons_self
    cases times with
    | nil => simp
    | cons t' times =>
      have hnext := hfirst t' List.mem_cons_self
      have hlast := (hwindow t' (List.mem_cons_of_mem _ List.mem_cons_self)).2
      have hlater : times.length * gap ≤ start + width - (t + gap) := by
        refine ih (t + gap) _ hrest ?_
        intro u hu
        have hu' := (hwindow u (List.mem_cons_of_mem _ hu)).2
        exact ⟨hfirst u hu,by omega⟩
      have hone : (times.length + 1) * gap = times.length * gap + gap := Nat.succ_mul _ _
      simp only [List.length_cons, Nat.add_sub_cancel]
      omega

/-- Times at least `gap` apart leave room for few of them in a window. -/
theorem length_le_of_spaced {times : List ℕ} {gap : ℕ} (start width : ℕ) (hgap : 0 < gap)
    (hspaced : times.Pairwise (fun t t' => t + gap ≤ t'))
    (hwindow : ∀ t ∈ times, start ≤ t ∧ t ≤ start + width) :
    times.length ≤ width / gap + 1 := by
  have hspan := span_of_spaced start width hspaced hwindow
  have hcount := (Nat.le_div_iff_mul_le hgap).mpr hspan
  omega

theorem length_flatMap_le {α β : Type*} {f : α → List β} {k : ℕ} {xs : List α}
    (h : ∀ x ∈ xs, (f x).length ≤ k) : (xs.flatMap f).length ≤ k * xs.length := by
  induction xs with
  | nil => exact Nat.zero_le _
  | cons x xs ih =>
    obtain ⟨hfirst,hrest⟩ := List.forall_mem_cons.mp h
    have hlater := ih hrest
    rw [List.flatMap_cons, List.length_append, List.length_cons, Nat.mul_succ]
    omega

namespace MarketMakerStrategy
open StrategyEngine (Tick)
variable [Add α] [Sub α] [Mul α] [Div α] [Neg α] [LT α] [DecidableLT α] [Min α] [Max α]
  [∀ n, OfNat α n] [Integral α]

/-- 50 ms in the nanoseconds of the steady clock. -/
def quoteGap : ℕ := 50000000

/-- The quote rounds of a session: when the clock was read, and what was pushed. -/
def timedRounds (s : MarketMakerStrategy α) (ticks : List (Tick α)) :
    List (ℕ × List (StrategyEvent α)) :=
  machine.collect (fun s tick =>
    if ((s.updatePosition tick.position).quote tick.book tick.clock).isSome
    then [(tick.clock 0,(machine.step s tick).2)] else []) s ticks

theorem timedRounds_cons (s : MarketMakerStrategy α) (tick : Tick α) (ticks : List (Tick α)) :
    timedRounds s (tick :: ticks) =
      (if ((s.updatePosition tick.position).quote tick.book tick.clock).isSome
        then [(tick.clock 0,(machine.step s tick).2)] else []) ++
      timedRounds (machine.step s tick).1 ticks := rfl

/-- It quotes no sooner than 50 ms after it quoted last. -/
theorem quote_gap {s : MarketMakerStrategy α} {book : Book.OrderBook α} {clock : Clock}
    {targets : α × α} (h : s.quote book clock = some targets) :
    s.lastOrderTime + quoteGap ≤ (clock 0 : ℤ) := by
  unfold quote at h
  split at h
  · split_ifs at h with hsoon
    have hgap : 50 ≤ ((clock 0 : ℤ) - s.lastOrderTime).tdiv 1000000 := not_lt.mp hsoon
    have hgap' : (quoteGap : ℤ) = 50000000 := rfl
    cases le_or_gt 0 ((clock 0 : ℤ) - s.lastOrderTime) with
    | inl hlater =>
      rw [Int.tdiv_eq_ediv_of_nonneg hlater] at hgap
      omega
    | inr hearlier =>
      -- the clock is behind the last quote
      have hnegative : 0 ≤ (-((clock 0 : ℤ) - s.lastOrderTime)).tdiv 1000000 :=
        Int.tdiv_nonneg (by omega) (by decide)
      rw [Int.neg_tdiv] at hnegative
      omega
  · contradiction

/-- A tick starts a quote round, or it pushes nothing and changes no working order. -/
theorem tick_cases (s : MarketMakerStrategy α) (tick : Tick α) :
    (((s.updatePosition tick.position).quote tick.book tick.clock).isSome = true ∧
      s.lastOrderTime + quoteGap ≤ (tick.clock 0 : ℤ) ∧
      (machine.step s tick).1.lastOrderTime = (tick.clock 0 : ℤ) ∧
      Requotes s (machine.step s tick).1 (machine.step s tick).2) ∨
    (((s.updatePosition tick.position).quote tick.book tick.clock).isSome = false ∧
      (machine.step s tick).2 = [] ∧
      (machine.step s tick).1.lastOrderTime = s.lastOrderTime ∧
      (machine.step s tick).1.activeOrders = s.activeOrders) := by
  have hstep : machine.step s tick = _ :=
    (s.updatePosition tick.position).onMarketData_eq tick.book tick.clock tick.event
  cases hquote : (s.updatePosition tick.position).quote tick.book tick.clock with
  | none =>
    right
    rw [hquote] at hstep
    rw [hstep]
    exact ⟨rfl,rfl,rfl,rfl⟩
  | some targets =>
    left
    rw [hquote] at hstep
    have hrequotes := (s.updatePosition tick.position).requote_requotes tick.clock
      targets.1 targets.2
    have hgap := quote_gap hquote
    rw [hstep]
    exact ⟨rfl,hgap,rfl,
      ⟨hrequotes.cancels,hrequotes.active,hrequotes.ids,hrequotes.next,hrequotes.sides⟩⟩

/-- The rounds follow the last quote, and each other, at a distance. -/
theorem timedRounds_spaced (s : MarketMakerStrategy α) (ticks : List (Tick α)) :
    ((timedRounds s ticks).map Prod.fst).Pairwise (fun t t' => t + quoteGap ≤ t') ∧
      ∀ round ∈ timedRounds s ticks, s.lastOrderTime + quoteGap ≤ (round.1 : ℤ) := by
  induction ticks generalizing s with
  | nil => exact ⟨List.Pairwise.nil,fun _ h => absurd h List.not_mem_nil⟩
  | cons tick ticks ih =>
    obtain ⟨hspaced,hafter⟩ := ih (machine.step s tick).1
    rw [timedRounds_cons]
    rcases tick_cases s tick with ⟨hquotes,hgap,htime,-⟩ | ⟨hquiet,-,htime,-⟩
    · rw [htime] at hafter
      rw [if_pos hquotes]
      constructor
      · refine List.pairwise_cons.mpr ⟨?_,hspaced⟩
        intro t ht
        obtain ⟨round,hround,rfl⟩ := List.mem_map.mp ht
        exact_mod_cast hafter round hround
      · refine List.forall_mem_cons.mpr ⟨hgap,?_⟩
        intro round hround
        have hround' := hafter round hround
        have hgap' : (0 : ℤ) ≤ quoteGap := Int.natCast_nonneg _
        linarith
    · rw [htime] at hafter
      rw [if_neg (by simp [hquiet])]
      exact ⟨hspaced,hafter⟩

/-- The market maker pushes in its rounds only. -/
theorem run_pushes (s : MarketMakerStrategy α) (ticks : List (Tick α)) :
    (machine.run s ticks).2 = (timedRounds s ticks).flatMap Prod.snd := by
  induction ticks generalizing s with
  | nil => rfl
  | cons tick ticks ih =>
    rw [Machine.run_cons, ih, timedRounds_cons, List.flatMap_append]
    rcases tick_cases s tick with ⟨hquotes,-⟩ | ⟨hquiet,hnone,-⟩
    · rw [if_pos hquotes, List.flatMap_singleton]
    · rw [if_neg (by simp [hquiet]), hnone]
      rfl

theorem length_eq_requests_add_cancels (events : List (StrategyEvent α)) :
    events.length = (requestsOf events).length + (cancelIds events).length := by
  induction events with
  | nil => rfl
  | cons event events ih =>
    cases event with
    | orderRequest request =>
      rw [requestsOf_orderRequest, cancelIds_orderRequest, List.length_cons, List.length_cons, ih]
      omega
    | cancelOrder orderId =>
      have hrequests : requestsOf (.cancelOrder orderId :: events) = requestsOf events := rfl
      have hcancels : cancelIds (.cancelOrder orderId :: events) =
          orderId :: cancelIds events := rfl
      rw [hrequests, hcancels, List.length_cons, List.length_cons, ih]
      omega

/-- A round cancels what is active and submits at most one order of each side. -/
theorem Requotes.pushes {s s' : MarketMakerStrategy α} {events : List (StrategyEvent α)}
    (h : Requotes s s' events) (hactive : s.activeOrders.length ≤ 2) :
    events.length ≤ 4 ∧ s'.activeOrders.length ≤ 2 := by
  have hsides := h.sides.length_le
  rw [List.length_map, List.length_cons, List.length_singleton] at hsides
  rw [length_eq_requests_add_cancels, h.cancels, h.active, requestIds, List.length_map]
  omega

theorem timedRounds_pushes {s : MarketMakerStrategy α} (hactive : s.activeOrders.length ≤ 2)
    (ticks : List (Tick α)) : ∀ round ∈ timedRounds s ticks, round.2.length ≤ 4 := by
  refine machine.forall_collect (I := fun s => s.activeOrders.length ≤ 2) ?_ ?_ hactive
  · intro s tick _ hs
    rcases tick_cases s tick with ⟨-,-,-,hrequotes⟩ | ⟨-,-,-,hsame⟩
    · exact (hrequotes.pushes hs).2
    · rw [hsame]
      exact hs
  · intro s tick _ hs round hround
    rcases tick_cases s tick with ⟨hquotes,-,-,hrequotes⟩ | ⟨hquiet,-⟩
    · rw [if_pos hquotes] at hround
      rw [List.mem_singleton.mp hround]
      exact (hrequotes.pushes hs).1
    · rw [if_neg (by simp [hquiet])] at hround
      exact absurd hround List.not_mem_nil

/-- In every session the market maker pushes in quote rounds only, 50 ms or more apart and at most
four events each, so in any window of time it pushes no more than four events for every 50 ms, and
four more. -/
theorem quote_rate_limited (ticks : List (Tick α)) :
    let rounds := timedRounds (init α) ticks
    (machine.run (init α) ticks).2 = rounds.flatMap Prod.snd ∧
      (rounds.map Prod.fst).Pairwise (fun t t' => t + quoteGap ≤ t') ∧
      ∀ start width, ((rounds.filter (fun round =>
        start ≤ round.1 ∧ round.1 ≤ start + width)).flatMap Prod.snd).length ≤
          4 * (width / quoteGap + 1) := by
  intro rounds
  obtain ⟨hspaced,-⟩ := timedRounds_spaced (init α) ticks
  refine ⟨run_pushes (init α) ticks,hspaced,fun start width => ?_⟩
  have hfew : ((rounds.filter (fun round =>
      start ≤ round.1 ∧ round.1 ≤ start + width)).map Prod.fst).length ≤
      width / quoteGap + 1 := by
    refine length_le_of_spaced start width (by decide)
      (hspaced.sublist (List.filter_sublist.map Prod.fst)) ?_
    intro t ht
    obtain ⟨round,hround,rfl⟩ := List.mem_map.mp ht
    simpa using (List.mem_filter.mp hround).2
  have hpushes : ∀ round ∈ rounds.filter (fun round =>
      start ≤ round.1 ∧ round.1 ≤ start + width), round.2.length ≤ 4 :=
    fun round hround => timedRounds_pushes (s := init α) (Nat.zero_le 2) ticks round
      (List.mem_filter.mp hround).1
  rw [List.length_map] at hfew
  exact (length_flatMap_le hpushes).trans (Nat.mul_le_mul_left 4 hfew)

end MarketMakerStrategy
end HftEngine.Strategy
