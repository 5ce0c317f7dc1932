import HftEngine.Foundation.Machine

/-! The bounded first-in first-out queue as a list with a capacity, and the answers of its
calls. -/
namespace HftEngine.Bounded
variable {α : Type*}

inductive Request (α : Type*)
  | push (item : α)
  | pop
  | size
  deriving DecidableEq, Repr

inductive Answer (α : Type*)
  | pushed (ok : Bool)
  | popped (item : Option α)
  | sized (n : ℕ)
  deriving DecidableEq, Repr

/-- A push appends while there is room, a pop takes the oldest item, and a call that fails
changes nothing. -/
def call (capacity : ℕ) (queue : List α) : Request α → List α × List (Answer α)
  | .push item =>
    if queue.length < capacity then (queue ++ [item],[.pushed true]) else (queue,[.pushed false])
  | .pop => (queue.tail,[.popped queue.head?])
  | .size => (queue,[.sized queue.length])

def machine (capacity : ℕ) : Machine (List α) (Request α) (Answer α) := ⟨call capacity⟩

def Request.isPush : Request α → Bool
  | .push _ => true
  | .pop => false
  | .size => false

/-- A push that stored its item. -/
def Answer.isEntered : Answer α → Bool
  | .pushed ok => ok
  | .popped _ => false
  | .sized _ => false

/-- A pop that returned an item. -/
def Answer.isReturned : Answer α → Bool
  | .pushed _ => false
  | .popped item => item.isSome
  | .sized _ => false

def pushCount (requests : List (Request α)) : ℕ := requests.countP Request.isPush

def enteredCount (answers : List (Answer α)) : ℕ := answers.countP Answer.isEntered

def returnedCount (answers : List (Answer α)) : ℕ := answers.countP Answer.isReturned

@[simp] theorem enteredCount_pushed (ok : Bool) :
    enteredCount ([.pushed ok] : List (Answer α)) = ok.toNat := by cases ok <;> rfl

@[simp] theorem enteredCount_popped (item : Option α) : enteredCount [.popped item] = 0 := rfl

@[simp] theorem enteredCount_sized (n : ℕ) :
    enteredCount ([.sized n] : List (Answer α)) = 0 := rfl

@[simp] theorem returnedCount_pushed (ok : Bool) :
    returnedCount ([.pushed ok] : List (Answer α)) = 0 := rfl

@[simp] theorem returnedCount_popped (item : Option α) :
    returnedCount [.popped item] = item.toList.length := by cases item <;> rfl

@[simp] theorem returnedCount_sized (n : ℕ) :
    returnedCount ([.sized n] : List (Answer α)) = 0 := rfl

@[simp] theorem enteredCount_append (xs ys : List (Answer α)) :
    enteredCount (xs ++ ys) = enteredCount xs + enteredCount ys := List.countP_append

@[simp] theorem returnedCount_append (xs ys : List (Answer α)) :
    returnedCount (xs ++ ys) = returnedCount xs + returnedCount ys := List.countP_append

theorem pushCount_cons (request : Request α) (requests : List (Request α)) :
    pushCount (request :: requests) = pushCount [request] + pushCount requests := by
  rw [pushCount, ← List.singleton_append, List.countP_append]
  rfl

/-- What enters the queue leaves it again or is still stored. -/
theorem call_ledger (capacity : ℕ) (queue : List α) (request : Request α) :
    queue.length + enteredCount (call capacity queue request).2 =
      returnedCount (call capacity queue request).2 + (call capacity queue request).1.length := by
  cases request with
  | push item =>
    simp only [call]
    split_ifs <;> simp
  | pop =>
    cases queue with
    | nil => rfl
    | cons x queue => simp [call, Nat.add_comm]
  | size => simp [call]

/-- A call enters an item exactly if it is a push and there is room. -/
theorem enteredCount_call (capacity : ℕ) (queue : List α) (request : Request α) :
    enteredCount (call capacity queue request).2 =
      if queue.length < capacity then pushCount [request] else 0 := by
  cases request with
  | push item =>
    simp only [call]
    split_ifs <;> rfl
  | pop => exact (ite_self 0).symm
  | size => exact (ite_self 0).symm

theorem run_ledger (capacity : ℕ) (queue : List α) (requests : List (Request α)) :
    queue.length + enteredCount ((machine capacity).run queue requests).2 =
      returnedCount ((machine capacity).run queue requests).2 +
        ((machine capacity).run queue requests).1.length := by
  induction requests generalizing queue with
  | nil => exact Nat.add_comm _ _
  | cons request requests ih =>
    have hcall := call_ledger capacity queue request
    have hrest := ih (call capacity queue request).1
    rw [Machine.run_cons, enteredCount_append, returnedCount_append]
    simp only [machine] at hrest ⊢
    omega

end HftEngine.Bounded
