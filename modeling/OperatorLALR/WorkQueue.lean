/-!
# Work queues

A first-in, first-out queue that ignores a value that is already waiting in it. Its view is the
list of the waiting values; a value that does not wait yet is added at the end (`push_of_not_mem`).
-/

namespace OperatorLALR

/-- A queue of distinct waiting values, the next one first. -/
structure WorkQueue (α : Type) where
  /-- The waiting values in the order in which they came. -/
  waiting : List α
  deriving DecidableEq, Repr

namespace WorkQueue

variable {α : Type}

/-- The queue in which nothing waits. -/
def empty : WorkQueue α := ⟨[]⟩

/-- Whether a value was added, and the queue after the attempt. -/
def push [DecidableEq α] (q : WorkQueue α) (x : α) : Bool × WorkQueue α :=
  if x ∈ q.waiting then (false, q) else (true, ⟨q.waiting ++ [x]⟩)

/-- The value that came first, and the queue without it. -/
def pop (q : WorkQueue α) : Option α × WorkQueue α :=
  match q.waiting with
  | [] => (none, q)
  | x :: rest => (some x, ⟨rest⟩)

/-- Whether nothing waits. -/
def isEmpty (q : WorkQueue α) : Bool := q.waiting.isEmpty

/-- The queue of the values of a list, pushed in order. -/
def ofList [DecidableEq α] (xs : List α) : WorkQueue α := xs.foldl (fun q x => (q.push x).2) empty

/-- A value that does not wait yet is added at the end. -/
theorem push_of_not_mem [DecidableEq α] {q : WorkQueue α} {x : α} (h : x ∉ q.waiting) :
    q.push x = (true, ⟨q.waiting ++ [x]⟩) := if_neg h

end WorkQueue

end OperatorLALR
