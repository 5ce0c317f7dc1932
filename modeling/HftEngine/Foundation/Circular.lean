import Mathlib.Data.List.Basic
import Mathlib.Data.Nat.ModEq
import Mathlib.Logic.Function.Basic

/-! Windows of a circular array: the items at consecutive positions modulo the size, and how
they change when a slot behind the window is written or the window moves on. -/
namespace HftEngine.Circular
variable {α : Type*}

/-- The `n` items from position `tail` on. -/
def window (slots : ℕ → α) (size tail n : ℕ) : List α :=
  (List.range n).map (fun i => slots ((tail + i) % size))

@[simp] theorem window_zero (slots : ℕ → α) (size tail : ℕ) : window slots size tail 0 = [] := rfl

@[simp] theorem window_length (slots : ℕ → α) (size tail n : ℕ) :
    (window slots size tail n).length = n := by simp [window]

/-- The window grows at its end. -/
theorem window_succ (slots : ℕ → α) (size tail n : ℕ) : window slots size tail (n+1) =
    window slots size tail n ++ [slots ((tail + n) % size)] := by
  simp [window, List.range_succ]

/-- The window shrinks at its start. -/
theorem window_cons (slots : ℕ → α) (size tail n : ℕ) : window slots size tail (n+1) =
    slots (tail % size) :: window slots size ((tail + 1) % size) n := by
  simp only [window, List.range_succ_eq_map, List.map_cons, List.map_map, Nat.add_zero]
  congr 1
  apply List.map_congr_left
  intro i _
  have hpos : tail + (i + 1) = tail + 1 + i := by omega
  simp only [Function.comp, Nat.succ_eq_add_one, hpos, Nat.mod_add_mod]

/-- Two positions less than one turn apart are different slots. -/
theorem slot_ne {size tail i j : ℕ} (hi : i < size) (hj : j < size) (h : i ≠ j) :
    (tail + i) % size ≠ (tail + j) % size := by
  intro heq
  have hmod : i ≡ j [MOD size] := Nat.ModEq.add_left_cancel' tail heq
  exact h (hmod.eq_of_lt_of_lt hi hj)

/-- Writing the slot behind the window does not change the window. -/
theorem window_update (slots : ℕ → α) {size tail n : ℕ} (h : n < size) (x : α) :
    window (Function.update slots ((tail + n) % size) x) size tail n =
      window slots size tail n := by
  apply List.map_congr_left
  intro i hi
  have hin := List.mem_range.mp hi
  rw [Function.update_of_ne (slot_ne (by omega) h (by omega))]

/-- The number of steps from `tail` to `head`. -/
def distance (size head tail : ℕ) : ℕ :=
  if head ≥ tail then head - tail else size - (tail - head)

theorem distance_eq {size tail n : ℕ} (htail : tail < size) (hn : n < size) :
    distance size ((tail + n) % size) tail = n := by
  unfold distance
  by_cases hwrap : tail + n < size
  · rw [Nat.mod_eq_of_lt hwrap]
    split <;> omega
  · have hhead : (tail + n) % size = tail + n - size := by
      rw [Nat.mod_eq_sub_mod (by omega), Nat.mod_eq_of_lt (by omega)]
    rw [hhead]
    split <;> omega

theorem distance_lt {size head tail : ℕ} (hhead : head < size) :
    distance size head tail < size := by
  unfold distance
  split <;> omega

/-- The distance from the `k`-th position after a base to the `n`-th one, up to whole turns. -/
theorem distance_add_mod {size : ℕ} (hsize : 0 < size) (base n k : ℕ) :
    (distance size ((base + n) % size) ((base + k) % size) + k) % size = n % size := by
  have hhead := Nat.mod_lt (base + n) hsize
  have htail := Nat.mod_lt (base + k) hsize
  have hsum : distance size ((base + n) % size) ((base + k) % size) + (base + k) ≡
      base + n [MOD size] := by
    have hround : ∀ head tail, head < size → tail < size →
        distance size head tail + tail ≡ head [MOD size] := by
      intro head tail hhead htail
      unfold distance
      split
      · rw [Nat.sub_add_cancel ‹_›]
      · have hturn : size - (tail - head) + tail = size + head := by omega
        rw [hturn]
        exact Nat.add_mod_left size head
    calc
      _ ≡ distance size ((base + n) % size) ((base + k) % size) + (base + k) % size [MOD size] :=
        Nat.ModEq.add_left _ (Nat.mod_modEq _ _).symm
      _ ≡ (base + n) % size [MOD size] := hround _ _ hhead htail
      _ ≡ base + n [MOD size] := Nat.mod_modEq _ _
  have hshift : base + (distance size ((base + n) % size) ((base + k) % size) + k) ≡
      base + n [MOD size] := by
    rw [Nat.add_left_comm]
    exact hsum
  exact Nat.ModEq.add_left_cancel' base hshift

/-- Between positions less than a turn apart the distance is that of the numbers, or it is what
is missing to a whole turn. -/
theorem of_add_mod {size m n k : ℕ} (hm : m < size) (hn : n < size) (h : (m + k) % size = n) :
    (k ≤ n → m = n - k) ∧ (n < k → k < n + size → m = size - (k - n)) := by
  constructor
  · intro hle
    by_cases hwrap : m + k < size
    · rw [Nat.mod_eq_of_lt hwrap] at h
      omega
    · rw [Nat.mod_eq_sub_mod (by omega), Nat.mod_eq_of_lt (by omega)] at h
      omega
  · intro hlt hturn
    by_cases hwrap : m + k < size
    · rw [Nat.mod_eq_of_lt hwrap] at h
      omega
    · by_cases htwice : m + k < 2 * size
      · rw [Nat.mod_eq_sub_mod (by omega), Nat.mod_eq_of_lt (by omega)] at h
        omega
      · rw [Nat.mod_eq_sub_mod (by omega), Nat.mod_eq_sub_mod (by omega),
          Nat.mod_eq_of_lt (by omega)] at h
        omega

/-- Less than one turn ahead, the head meets the tail only when the window is empty. -/
theorem head_eq_tail_iff {size tail n : ℕ} (htail : tail < size) (hn : n < size) :
    (tail + n) % size = tail ↔ n = 0 := by
  constructor
  · intro h
    have hdistance := distance_eq htail hn
    rw [h, distance] at hdistance
    split at hdistance <;> omega
  · rintro rfl
    exact Nat.mod_eq_of_lt htail

/-- The slot after the head is the tail only when the window fills all slots but one. -/
theorem next_eq_tail_iff {size tail n : ℕ} (htail : tail < size) (hn : n < size) :
    ((tail + n) % size + 1) % size = tail ↔ n + 1 = size := by
  rw [Nat.mod_add_mod, Nat.add_assoc]
  constructor
  · intro h
    by_contra hne
    have hzero := (head_eq_tail_iff htail (by omega : n + 1 < size)).mp h
    omega
  · intro h
    rw [h, Nat.add_mod_right]
    exact Nat.mod_eq_of_lt htail

end HftEngine.Circular
