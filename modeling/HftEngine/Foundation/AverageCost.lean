import Mathlib.Algebra.Order.Field.Basic
import Mathlib.Algebra.BigOperators.Group.List.Basic
import Mathlib.Algebra.BigOperators.Ring.List
import Mathlib.Data.List.Induction
import Mathlib.Tactic.Linarith
import Mathlib.Tactic.Ring

/-! Average-cost bookkeeping over an ordered field. A book keeps the signed position, the
average entry price and the realised profit; the trades behind it determine its position
and its balance, whichever way they opened, reduced or reversed the position. -/
namespace HftEngine.AverageCost
variable {K : Type*} [Field K]

/-- A trade with signed quantity, positive for a purchase. -/
structure Trade (K : Type*) where
  qty : K
  price : K

def netQty (trades : List (Trade K)) : K := (trades.map Trade.qty).sum

def cost (trades : List (Trade K)) : K := (trades.map (fun t => t.qty * t.price)).sum

/-- Value gained by all trades if the position is marked at price `P`. -/
def markToMarket (trades : List (Trade K)) (P : K) : K :=
  (trades.map (fun t => t.qty * (P - t.price))).sum

@[simp] theorem netQty_nil : netQty ([] : List (Trade K)) = 0 := rfl
@[simp] theorem cost_nil : cost ([] : List (Trade K)) = 0 := rfl
@[simp] theorem markToMarket_nil (P : K) : markToMarket ([] : List (Trade K)) P = 0 := rfl

@[simp] theorem netQty_append (xs ys : List (Trade K)) :
    netQty (xs ++ ys) = netQty xs + netQty ys := by simp [netQty]

@[simp] theorem cost_append (xs ys : List (Trade K)) :
    cost (xs ++ ys) = cost xs + cost ys := by simp [cost]

@[simp] theorem netQty_singleton (t : Trade K) : netQty [t] = t.qty := by simp [netQty]
@[simp] theorem cost_singleton (t : Trade K) : cost [t] = t.qty * t.price := by simp [cost]

theorem markToMarket_eq (trades : List (Trade K)) (P : K) :
    markToMarket trades P = netQty trades * P - cost trades := by
  induction trades with
  | nil => simp
  | cons t trades ih =>
    simp only [markToMarket, netQty, cost, List.map_cons, List.sum_cons] at ih ⊢
    rw [ih]
    ring

structure Book (K : Type*) where
  position : K
  avg : K
  realized : K

namespace Book

/-- Realised profit less the entry value of the open position. -/
def balance (b : Book K) : K := b.realized - b.position * b.avg

/-- Realised plus unrealised profit at price `P`. -/
def equity (b : Book K) (P : K) : K := b.realized + b.position * (P - b.avg)

theorem equity_eq (b : Book K) (P : K) : b.equity P = b.balance + b.position * P := by
  unfold equity balance
  ring

/-- A book agrees with the trades behind it. -/
def Represents (b : Book K) (trades : List (Trade K)) : Prop :=
  b.position = netQty trades ∧ b.balance = -cost trades

theorem Represents.equity {b : Book K} {trades : List (Trade K)} (h : b.Represents trades)
    (P : K) : b.equity P = markToMarket trades P := by
  rw [equity_eq, markToMarket_eq, h.1, h.2]
  ring

/-- One more trade is represented when position and balance move by that trade. -/
theorem Represents.snoc {b c : Book K} {trades : List (Trade K)} {t : Trade K}
    (h : b.Represents trades) (hposition : c.position = b.position + t.qty)
    (hbalance : c.balance = b.balance - t.qty * t.price) : c.Represents (trades ++ [t]) := by
  constructor
  · rw [hposition, h.1, netQty_append, netQty_singleton]
  · rw [hbalance, h.2, cost_append, cost_singleton]
    ring

/-- Close part or all of the position, realising the profit on the closed quantity. -/
def reduce (b : Book K) (t : Trade K) : Book K :=
  ⟨b.position + t.qty,b.avg,b.realized + -t.qty * (t.price - b.avg)⟩

/-- Close the whole position and open the opposite one at the trade price. -/
def reverse (b : Book K) (t : Trade K) : Book K :=
  ⟨b.position + t.qty,t.price,b.realized + b.position * (t.price - b.avg)⟩

theorem reduce_balance (b : Book K) (t : Trade K) :
    (b.reduce t).balance = b.balance - t.qty * t.price := by
  simp only [balance, reduce]
  ring

theorem reverse_balance (b : Book K) (t : Trade K) :
    (b.reverse t).balance = b.balance - t.qty * t.price := by
  simp only [balance, reverse]
  ring

/-- The book with long and short exchanged. -/
def neg (b : Book K) : Book K := ⟨-b.position,b.avg,-b.realized⟩

theorem neg_neg (b : Book K) : b.neg.neg = b := by simp [neg]

variable [LinearOrder K]

/-- Open or enlarge a position, averaging the entry price by quantity. -/
def increase (b : Book K) (t : Trade K) : Book K :=
  ⟨b.position + t.qty,
    (b.avg * |b.position| + t.price * |t.qty|) / |b.position + t.qty|,b.realized⟩

/-- The trade is on the side of the position, or opens one. -/
def Adds (b : Book K) (t : Trade K) : Prop :=
  0 ≤ b.position ∧ 0 < t.qty ∨ b.position ≤ 0 ∧ t.qty < 0

instance decidableAdds (b : Book K) (t : Trade K) : Decidable (b.Adds t) :=
  inferInstanceAs (Decidable (0 ≤ b.position ∧ 0 < t.qty ∨ b.position ≤ 0 ∧ t.qty < 0))

/-- A trade enlarges the position or opens one, closes a part or all of it, or turns it around. -/
def trade (b : Book K) (t : Trade K) : Book K :=
  if b.Adds t then b.increase t
  else if |t.qty| ≤ |b.position| then b.reduce t else b.reverse t

@[simp] theorem trade_position (b : Book K) (t : Trade K) :
    (b.trade t).position = b.position + t.qty := by
  unfold trade
  split_ifs <;> rfl

/-- What has been realised plays no part in the average. -/
theorem trade_avg_congr {b c : Book K} (hposition : b.position = c.position) (havg : b.avg = c.avg)
    (t : Trade K) : (b.trade t).avg = (c.trade t).avg := by
  have hside : b.Adds t ↔ c.Adds t := by rw [Adds, Adds, hposition]
  unfold trade
  rw [hposition, if_congr hside rfl rfl]
  split_ifs
  · simp only [increase, hposition, havg]
  · exact havg
  · rfl

theorem foldl_trade_position (trades : List (Trade K)) (b : Book K) :
    (trades.foldl trade b).position = b.position + netQty trades := by
  induction trades generalizing b with
  | nil => simp
  | cons t trades ih =>
    rw [List.foldl_cons, ih, trade_position]
    simp only [netQty, List.map_cons, List.sum_cons]
    ring

/-- The book after trades from an empty one. -/
def ofTrades (trades : List (Trade K)) : Book K := trades.foldl trade ⟨0,0,0⟩

theorem ofTrades_concat (trades : List (Trade K)) (t : Trade K) :
    ofTrades (trades ++ [t]) = (ofTrades trades).trade t := by simp [ofTrades]

variable [IsStrictOrderedRing K]

/-- The average price times the new position is the old entry value plus the trade's value. -/
theorem increase_balance (b : Book K) (t : Trade K) (hside : b.Adds t) :
    (b.increase t).balance = b.balance - t.qty * t.price := by
  simp only [balance, increase]
  rcases hside with ⟨hp,hq⟩ | ⟨hp,hq⟩
  · have hsum : 0 < b.position + t.qty := by linarith
    rw [abs_of_nonneg hp, abs_of_pos hq, abs_of_pos hsum, mul_div_cancel₀ _ hsum.ne']
    ring
  · have hsum : b.position + t.qty < 0 := by linarith
    have hne := hsum.ne
    rw [abs_of_nonpos hp, abs_of_neg hq, abs_of_neg hsum, div_neg, mul_neg,
      mul_div_cancel₀ _ hne]
    ring

theorem trade_balance (b : Book K) (t : Trade K) :
    (b.trade t).balance = b.balance - t.qty * t.price := by
  unfold trade
  split_ifs with hside hsmall
  · exact increase_balance b t hside
  · exact reduce_balance b t
  · exact reverse_balance b t

theorem adds_neg (b : Book K) (t : Trade K) : b.neg.Adds ⟨-t.qty,t.price⟩ ↔ b.Adds t := by
  simp only [Adds, neg, Left.nonneg_neg_iff, Left.neg_pos_iff, Left.neg_nonpos_iff,
    Left.neg_neg_iff]
  exact or_comm

/-- Trading the other way round mirrors the book. -/
theorem neg_trade (b : Book K) (t : Trade K) :
    b.neg.trade ⟨-t.qty,t.price⟩ = (b.trade t).neg := by
  have hadd : -b.position + -t.qty = -(b.position + t.qty) := by ring
  unfold trade
  by_cases hside : b.Adds t
  · rw [if_pos hside, if_pos ((adds_neg b t).mpr hside)]
    simp only [increase, neg, hadd, abs_neg]
  · rw [if_neg hside, if_neg (fun h => hside ((adds_neg b t).mp h))]
    simp only [neg, abs_neg]
    split_ifs
    · simp only [reduce, hadd, Book.mk.injEq, true_and]
      ring
    · simp only [reverse, hadd, Book.mk.injEq, true_and]
      ring

section Splitting
variable (b : Book K) {q r : K} (p : K)

theorem trade_of_long (hposition : 0 ≤ b.position) (hq : 0 < q) :
    b.trade ⟨q,p⟩ =
      ⟨b.position + q,(b.avg * b.position + p * q) / (b.position + q),b.realized⟩ := by
  have hsum : 0 < b.position + q := by linarith
  rw [trade, if_pos (.inl ⟨hposition,hq⟩), increase, abs_of_nonneg hposition, abs_of_pos hq,
    abs_of_pos hsum]

theorem trade_of_short (hposition : b.position < 0) (hq : 0 < q) :
    b.trade ⟨q,p⟩ = if q ≤ -b.position then b.reduce ⟨q,p⟩ else b.reverse ⟨q,p⟩ := by
  have hside : ¬ b.Adds ⟨q,p⟩ := by
    rintro (⟨hp,-⟩ | ⟨-,hneg⟩)
    · exact not_le.mpr hposition hp
    · exact not_lt.mpr hq.le hneg
  rw [trade, if_neg hside, abs_of_pos hq, abs_of_neg hposition]

/-- Two purchases at one price, by where the first one leaves the position. -/
theorem trade_trade_of_pos (hq : 0 < q) (hr : 0 < r) :
    (b.trade ⟨q,p⟩).trade ⟨r,p⟩ = b.trade ⟨q + r,p⟩ := by
  have hboth : 0 < q + r := by linarith
  have hmoved : (b.trade ⟨q,p⟩).position = b.position + q := trade_position b _
  rcases le_or_gt 0 b.position with hlong | hshort
  · have hafter : 0 ≤ (b.trade ⟨q,p⟩).position := by linarith
    have hsum : b.position + q ≠ 0 := by linarith
    rw [trade_of_long _ p hafter hr, trade_of_long b p hlong hboth, trade_of_long b p hlong hq]
    simp only [div_mul_cancel₀ _ hsum, add_assoc, mul_add]
  · rw [trade_of_short b p hshort hboth]
    rcases lt_trichotomy q (-b.position) with hpart | hclosed | hover
    · -- part of the short is bought back first, and the rest decides
      have hfirst : b.trade ⟨q,p⟩ = b.reduce ⟨q,p⟩ := by
        rw [trade_of_short b p hshort hq, if_pos hpart.le]
      have hafter : (b.reduce ⟨q,p⟩).position < 0 := by
        simp only [reduce]
        linarith
      rw [hfirst, trade_of_short _ p hafter hr]
      have hrest : r ≤ -(b.reduce ⟨q,p⟩).position ↔ q + r ≤ -b.position := by
        simp only [reduce]
        constructor <;> intro h <;> linarith
      rw [if_congr hrest rfl rfl]
      split_ifs
      · simp only [reduce, Book.mk.injEq, true_and]
        constructor <;> ring
      · simp only [reduce, reverse, Book.mk.injEq, true_and]
        constructor <;> ring
    · -- the short is closed exactly, and the stale average is not looked at
      have hfirst : b.trade ⟨q,p⟩ = b.reduce ⟨q,p⟩ := by
        rw [trade_of_short b p hshort hq, if_pos hclosed.le]
      have hflat : (b.reduce ⟨q,p⟩).position = 0 := by
        simp only [reduce]
        linarith
      rw [hfirst, trade_of_long _ p hflat.ge hr, if_neg (by linarith), hflat, mul_zero, zero_add,
        zero_add, mul_div_cancel_right₀ _ hr.ne']
      simp only [reduce, reverse, Book.mk.injEq, true_and]
      constructor
      · linarith
      · rw [hclosed]
        ring
    · have hfirst : b.trade ⟨q,p⟩ = b.reverse ⟨q,p⟩ := by
        rw [trade_of_short b p hshort hq, if_neg (not_le.mpr hover)]
      have hafter : 0 < (b.reverse ⟨q,p⟩).position := by
        simp only [reverse]
        linarith
      have hsum : (b.reverse ⟨q,p⟩).position + r ≠ 0 := by linarith
      have havg : (b.reverse ⟨q,p⟩).avg = p := rfl
      rw [hfirst, trade_of_long _ p hafter.le hr, if_neg (by linarith), havg, ← mul_add,
        mul_div_cancel_right₀ _ hsum]
      simp only [reverse, Book.mk.injEq, and_true]
      ring

/-- Splitting a trade changes nothing: two trades on one side at one price are one trade. -/
theorem trade_trade (hside : 0 < q ∧ 0 < r ∨ q < 0 ∧ r < 0) :
    (b.trade ⟨q,p⟩).trade ⟨r,p⟩ = b.trade ⟨q + r,p⟩ := by
  rcases hside with ⟨hq,hr⟩ | ⟨hq,hr⟩
  · exact trade_trade_of_pos b p hq hr
  · have hmirror := trade_trade_of_pos b.neg p (neg_pos.mpr hq) (neg_pos.mpr hr)
    have hsum : -q + -r = -(q + r) := by ring
    rw [hsum, neg_trade b ⟨q,p⟩, neg_trade (b.trade ⟨q,p⟩) ⟨r,p⟩,
      neg_trade b ⟨q + r,p⟩] at hmirror
    rw [← neg_neg ((b.trade ⟨q,p⟩).trade ⟨r,p⟩), hmirror, neg_neg]

end Splitting

theorem ofTrades_represents (trades : List (Trade K)) : (ofTrades trades).Represents trades := by
  induction trades using List.reverseRecOn with
  | nil => constructor <;> simp [ofTrades, balance]
  | append_singleton trades t ih =>
    rw [ofTrades_concat]
    exact ih.snoc (trade_position _ t) (trade_balance _ t)

end Book

end HftEngine.AverageCost
