import Mathlib.Data.List.Basic

/-! Histories of a first-in first-out queue whose pushes may be refused. The pushes that
were accepted, read in order, are the popped items followed by the items still stored. -/
namespace HftEngine.Fifo
variable {α : Type*}

/-- One queue operation of a history: a push with its result, or a pop that returned an item. -/
inductive Op (α : Type*)
  | push (item : α) (ok : Bool)
  | pop (item : α)
  deriving DecidableEq, Repr

/-- Items of all push calls, whether or not they were accepted. -/
def attempted : List (Op α) → List α
  | [] => []
  | .push x _ :: ops => x :: attempted ops
  | .pop _ :: ops => attempted ops

/-- Items of the pushes that returned true. -/
def accepted : List (Op α) → List α
  | [] => []
  | .push x true :: ops => x :: accepted ops
  | .push _ false :: ops => accepted ops
  | .pop _ :: ops => accepted ops

/-- Items of the pushes that returned false. -/
def refused : List (Op α) → List α
  | [] => []
  | .push _ true :: ops => refused ops
  | .push x false :: ops => x :: refused ops
  | .pop _ :: ops => refused ops

def popped : List (Op α) → List α
  | [] => []
  | .push _ _ :: ops => popped ops
  | .pop x :: ops => x :: popped ops

@[simp] theorem attempted_nil : attempted ([] : List (Op α)) = [] := rfl
@[simp] theorem accepted_nil : accepted ([] : List (Op α)) = [] := rfl
@[simp] theorem refused_nil : refused ([] : List (Op α)) = [] := rfl
@[simp] theorem popped_nil : popped ([] : List (Op α)) = [] := rfl

@[simp] theorem attempted_push (x : α) (ok : Bool) (ops : List (Op α)) :
    attempted (.push x ok :: ops) = x :: attempted ops := rfl
@[simp] theorem attempted_pop (x : α) (ops : List (Op α)) :
    attempted (.pop x :: ops) = attempted ops := rfl
@[simp] theorem accepted_push_true (x : α) (ops : List (Op α)) :
    accepted (.push x true :: ops) = x :: accepted ops := rfl
@[simp] theorem accepted_push_false (x : α) (ops : List (Op α)) :
    accepted (.push x false :: ops) = accepted ops := rfl
@[simp] theorem accepted_pop (x : α) (ops : List (Op α)) :
    accepted (.pop x :: ops) = accepted ops := rfl
@[simp] theorem refused_push_true (x : α) (ops : List (Op α)) :
    refused (.push x true :: ops) = refused ops := rfl
@[simp] theorem refused_push_false (x : α) (ops : List (Op α)) :
    refused (.push x false :: ops) = x :: refused ops := rfl
@[simp] theorem refused_pop (x : α) (ops : List (Op α)) :
    refused (.pop x :: ops) = refused ops := rfl
@[simp] theorem popped_push (x : α) (ok : Bool) (ops : List (Op α)) :
    popped (.push x ok :: ops) = popped ops := rfl
@[simp] theorem popped_pop (x : α) (ops : List (Op α)) :
    popped (.pop x :: ops) = x :: popped ops := rfl

@[simp] theorem attempted_append (xs ys : List (Op α)) :
    attempted (xs ++ ys) = attempted xs ++ attempted ys := by
  induction xs with
  | nil => rfl
  | cons op xs ih => cases op <;> simp [ih]

@[simp] theorem accepted_append (xs ys : List (Op α)) :
    accepted (xs ++ ys) = accepted xs ++ accepted ys := by
  induction xs with
  | nil => rfl
  | cons op xs ih => rcases op with ⟨x,_ | _⟩ | x <;> simp [ih]

@[simp] theorem refused_append (xs ys : List (Op α)) :
    refused (xs ++ ys) = refused xs ++ refused ys := by
  induction xs with
  | nil => rfl
  | cons op xs ih => rcases op with ⟨x,_ | _⟩ | x <;> simp [ih]

@[simp] theorem popped_append (xs ys : List (Op α)) :
    popped (xs ++ ys) = popped xs ++ popped ys := by
  induction xs with
  | nil => rfl
  | cons op xs ih => cases op <;> simp [ih]

/-- Every push was either accepted or refused. -/
theorem attempted_perm (ops : List (Op α)) :
    (attempted ops).Perm (accepted ops ++ refused ops) := by
  induction ops with
  | nil => simp
  | cons op ops ih =>
    rcases op with ⟨x,_ | _⟩ | x
    · exact (ih.cons x).trans List.perm_middle.symm
    · exact ih.cons x
    · exact ih

theorem accepted_sublist (ops : List (Op α)) : (accepted ops).Sublist (attempted ops) := by
  induction ops with
  | nil => exact List.Sublist.refl _
  | cons op ops ih =>
    rcases op with ⟨x,_ | _⟩ | x
    · exact ih.cons x
    · exact ih.cons_cons x
    · exact ih

theorem sublist_of_attempted {ops : List (Op α)} {xs : List α} (h : attempted ops = xs) :
    (accepted ops).Sublist xs := by
  rw [← h]
  exact accepted_sublist ops

/-- What `f` selects of the pushes is accepted entirely exactly when none of it is refused. -/
theorem filterMap_accepted_eq_iff {β : Type*} (f : α → Option β) (ops : List (Op α)) :
    (accepted ops).filterMap f = (attempted ops).filterMap f ↔ (refused ops).filterMap f = [] := by
  constructor
  · intro h
    have hperm := (attempted_perm ops).filterMap f
    have hlength := hperm.length_eq
    rw [List.filterMap_append, List.length_append, h] at hlength
    rw [← List.length_eq_zero_iff]
    omega
  · intro h
    induction ops with
    | nil => rfl
    | cons op ops ih =>
      rcases op with ⟨x,_ | _⟩ | x
      · rw [refused_push_false] at h
        cases hx : f x with
        | some y =>
          rw [List.filterMap_cons_some hx] at h
          contradiction
        | none =>
          rw [List.filterMap_cons_none hx] at h
          rw [accepted_push_false, attempted_push, List.filterMap_cons_none hx, ih h]
      · rw [refused_push_true] at h
        rw [accepted_push_true, attempted_push, List.filterMap_cons, List.filterMap_cons, ih h]
      · exact ih h

theorem accepted_eq_attempted {ops : List (Op α)} (h : refused ops = []) :
    accepted ops = attempted ops := by
  have hall := (filterMap_accepted_eq_iff some ops).mpr (by rw [h, List.filterMap_nil])
  rw [List.filterMap_some, List.filterMap_some] at hall
  exact hall

theorem filterMap_refused_eq_nil {β : Type*} {f : α → Option β} {ops : List (Op α)}
    (h : (attempted ops).filterMap f = []) : (refused ops).filterMap f = [] := by
  have hperm := (attempted_perm ops).filterMap f
  rw [h, List.filterMap_append] at hperm
  exact (List.append_eq_nil_iff.mp hperm.symm.eq_nil).2

/-- Whether the push number `i` of a step finds room in a queue with the given content. -/
abbrev Room (α : Type*) := ℕ → List α → Bool

def Room.unbounded : Room α := fun _ _ => true

/-- A queue that stores at most `n` items. -/
def Room.capacity (n : ℕ) : Room α := fun _ queue => decide (queue.length < n)

/-- Push the items one after another, ignoring the results, as every caller does. -/
def pushAll (room : Room α) (queue : List α) : List α → List α × List (Op α)
  | [] => (queue,[])
  | x :: xs =>
    let ok := room 0 queue
    let next := pushAll (fun i => room (i+1)) (if ok then queue ++ [x] else queue) xs
    (next.1,.push x ok :: next.2)

@[simp] theorem attempted_pushAll (room : Room α) (queue xs : List α) :
    attempted (pushAll room queue xs).2 = xs := by
  induction xs generalizing room queue with
  | nil => rfl
  | cons x xs ih => simp [pushAll, ih]

@[simp] theorem popped_pushAll (room : Room α) (queue xs : List α) :
    popped (pushAll room queue xs).2 = [] := by
  induction xs generalizing room queue with
  | nil => rfl
  | cons x xs ih => simp [pushAll, ih]

/-- The queue grows at its back by exactly the accepted items. -/
theorem pushAll_queue (room : Room α) (queue xs : List α) :
    (pushAll room queue xs).1 = queue ++ accepted (pushAll room queue xs).2 := by
  induction xs generalizing room queue with
  | nil => simp [pushAll]
  | cons x xs ih =>
    simp only [pushAll]
    cases h : room 0 queue
    · simp [ih]
    · simp [ih]

theorem refused_pushAll_unbounded (queue xs : List α) :
    refused (pushAll Room.unbounded queue xs).2 = [] := by
  induction xs generalizing queue with
  | nil => rfl
  | cons x xs ih => exact ih _

theorem mem_attempted_iff {ops : List (Op α)} {x : α} :
    x ∈ attempted ops ↔ ∃ ok, Op.push x ok ∈ ops := by
  induction ops with
  | nil => simp
  | cons op ops ih =>
    cases op with
    | push y ok =>
      rw [attempted_push, List.mem_cons, ih]
      constructor
      · rintro (rfl | ⟨ok',h⟩)
        · exact ⟨ok,List.mem_cons_self⟩
        · exact ⟨ok',List.mem_cons_of_mem _ h⟩
      · rintro ⟨ok',h⟩
        rcases List.mem_cons.mp h with heq | h
        · cases heq
          exact .inl rfl
        · exact .inr ⟨ok',h⟩
    | pop y => simp [ih]

theorem mem_popped_iff {ops : List (Op α)} {x : α} : x ∈ popped ops ↔ Op.pop x ∈ ops := by
  induction ops with
  | nil => simp
  | cons op ops ih => cases op <;> simp [ih]

@[simp] theorem attempted_map_push (xs : List α) (ok : Bool) :
    attempted (xs.map (fun x => Op.push x ok)) = xs := by
  induction xs with
  | nil => rfl
  | cons x xs ih => rw [List.map_cons, attempted_push, ih]

@[simp] theorem accepted_map_push (xs : List α) (ok : Bool) :
    accepted (xs.map (Op.push · ok)) = if ok then xs else [] := by
  induction xs with
  | nil => simp
  | cons x xs ih => cases ok <;> simpa using ih

@[simp] theorem refused_map_push (xs : List α) (ok : Bool) :
    refused (xs.map (Op.push · ok)) = if ok then [] else xs := by
  induction xs with
  | nil => simp
  | cons x xs ih => cases ok <;> simpa using ih

/-- Pushes to a bounded queue succeed until its free slots are used up, and fail from then on. -/
theorem pushAll_capacity (n : ℕ) (queue xs : List α) :
    (pushAll (Room.capacity n) queue xs).2 =
      (xs.take (n - queue.length)).map (Op.push · true) ++
        (xs.drop (n - queue.length)).map (Op.push · false) := by
  induction xs generalizing queue with
  | nil => simp [pushAll]
  | cons x xs ih =>
    have htail : (fun i => Room.capacity (α := α) n (i+1)) = Room.capacity n := rfl
    simp only [pushAll, htail]
    by_cases h : queue.length < n
    · have hok : Room.capacity n 0 queue = true := decide_eq_true h
      obtain ⟨k,hk⟩ : ∃ k, n - queue.length = k + 1 := ⟨n - queue.length - 1,by omega⟩
      have hk' : n - (queue ++ [x]).length = k := by
        rw [List.length_append, List.length_singleton]
        omega
      simp only [hok, if_true, ih, hk, hk', List.take_succ_cons, List.drop_succ_cons,
        List.map_cons, List.cons_append]
    · have hok : Room.capacity n 0 queue = false := decide_eq_false h
      have hk : n - queue.length = 0 := by omega
      simp [hok, ih, hk]

/-- What does not fit into the free slots is refused. -/
theorem refused_pushAll_capacity (n : ℕ) (queue xs : List α) :
    refused (pushAll (Room.capacity n) queue xs).2 = xs.drop (n - queue.length) := by
  simp only [pushAll_capacity, refused_append, refused_map_push, if_true, Bool.false_eq_true,
    if_false, List.nil_append]

/-- What fits into the free slots is accepted. -/
theorem accepted_pushAll_capacity (n : ℕ) (queue xs : List α) :
    accepted (pushAll (Room.capacity n) queue xs).2 = xs.take (n - queue.length) := by
  simp only [pushAll_capacity, accepted_append, accepted_map_push, if_true, Bool.false_eq_true,
    if_false, List.append_nil]

/-- Every item that satisfies `q` comes after an item that satisfies `p`. -/
def PrecededBy (p q : α → Bool) (xs : List α) : Prop :=
  ∀ l x r, xs = l ++ x :: r → q x = true → ∃ y ∈ l, p y = true

theorem PrecededBy.of_append {p q : α → Bool} {xs ys : List α}
    (h : PrecededBy p q (xs ++ ys)) : PrecededBy p q xs := by
  intro l x r hx hq
  exact h l x (r ++ ys) (by simp [hx]) hq

theorem PrecededBy.append_of_exists {p q : α → Bool} {xs ys : List α} (h : PrecededBy p q xs)
    (hp : ∃ x ∈ xs, p x = true) : PrecededBy p q (xs ++ ys) := by
  intro l x r hx hq
  obtain ⟨w,hw,hpw⟩ := hp
  rcases List.append_eq_append_iff.mp hx with ⟨m,rfl,-⟩ | ⟨m,rfl,hm⟩
  · exact ⟨w,List.mem_append_left _ hw,hpw⟩
  · cases m with
    | nil =>
      rw [List.append_nil] at hw
      exact ⟨w,hw,hpw⟩
    | cons y m =>
      rw [List.cons_append, List.cons.injEq] at hm
      exact h l x m (by rw [hm.1]) hq

theorem PrecededBy.append_of_none {p q : α → Bool} {xs ys : List α} (h : PrecededBy p q xs)
    (hq : ∀ y ∈ ys, q y = false) : PrecededBy p q (xs ++ ys) := by
  intro l x r hx hqx
  rcases List.append_eq_append_iff.mp hx with ⟨m,rfl,hm⟩ | ⟨m,rfl,hm⟩
  · have hmem : x ∈ ys := by
      rw [hm]
      exact List.mem_append_right _ List.mem_cons_self
    rw [hq x hmem] at hqx
    contradiction
  · cases m with
    | nil =>
      have hmem : x ∈ ys := by
        rw [List.nil_append] at hm
        rw [← hm]
        exact List.mem_cons_self
      rw [hq x hmem] at hqx
      contradiction
    | cons y m =>
      rw [List.cons_append, List.cons.injEq] at hm
      exact h l x m (by rw [hm.1]) hqx

/-- A later item with `q` has a `p` before it, in the earlier part if there is none in the
later one. -/
theorem PrecededBy.exists_left {p q : α → Bool} {xs ys : List α}
    (h : PrecededBy p q (xs ++ ys)) {y : α} (hy : y ∈ ys) (hq : q y = true)
    (hp : ∀ z ∈ ys, p z = false) : ∃ x ∈ xs, p x = true := by
  obtain ⟨l,r,rfl⟩ := List.append_of_mem hy
  obtain ⟨w,hw,hpw⟩ := h (xs ++ l) y r (List.append_assoc _ _ _).symm hq
  rcases List.mem_append.mp hw with hw | hw
  · exact ⟨w,hw,hpw⟩
  · rw [hp w (List.mem_append_left _ hw)] at hpw
    contradiction

theorem precededBy_cons {p q : α → Bool} {x : α} {xs : List α} :
    PrecededBy p q (x :: xs) ↔ q x = false ∧ (p x = true ∨ PrecededBy p q xs) := by
  constructor
  · intro h
    have hx : q x = false := by
      rw [Bool.eq_false_iff]
      intro hq
      obtain ⟨y,hy,-⟩ := h [] x xs rfl hq
      exact List.not_mem_nil hy
    refine ⟨hx,?_⟩
    by_cases hp : p x = true
    · exact .inl hp
    · right
      intro l y r hy hq
      obtain ⟨z,hz,hpz⟩ := h (x :: l) y r (by rw [hy, List.cons_append]) hq
      rcases List.mem_cons.mp hz with rfl | hz
      · exact absurd hpz hp
      · exact ⟨z,hz,hpz⟩
  · rintro ⟨hx,hrest⟩ l y r hy hq
    cases l with
    | nil =>
      rw [List.nil_append, List.cons.injEq] at hy
      rw [← hy.1, hx] at hq
      contradiction
    | cons z l =>
      rw [List.cons_append, List.cons.injEq] at hy
      obtain ⟨rfl,hy⟩ := hy
      rcases hrest with hp | hrest
      · exact ⟨x,List.mem_cons_self,hp⟩
      · obtain ⟨w,hw,hpw⟩ := hrest l y r hy hq
        exact ⟨w,List.mem_cons_of_mem _ hw,hpw⟩

instance decidablePrecededBy (p q : α → Bool) : (xs : List α) → Decidable (PrecededBy p q xs)
  | [] => isTrue fun l x r h _ => absurd h (by simp)
  | x :: xs =>
    have := decidablePrecededBy p q xs
    decidable_of_iff (q x = false ∧ (p x = true ∨ PrecededBy p q xs)) precededBy_cons.symm

end HftEngine.Fifo
