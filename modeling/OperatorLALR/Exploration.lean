import OperatorLALR.Numbering
import OperatorLALR.WorkQueue

/-!
# Breadth-first exploration

Places are numbered in the order of their discovery and wait in a queue until they are processed:
what is reached from a place is added to the numbering, and what is new waits in turn. An
exploration that is given enough steps ends when no place waits.
-/

namespace OperatorLALR

variable {α : Type} [Keyed α] [DecidableEq α]

/-- Number the places of a list that are new, and let them wait. -/
def discover (pending : WorkQueue α) (found : Numbering α) : List α → WorkQueue α × Numbering α
  | [] => (pending, found)
  | x :: xs =>
    match found.number? x with
    | some _ => discover pending found xs
    | none => discover (pending.push x).2 (found.add x) xs

/-- The places found after processing at most `steps` of the waiting places and of those that are
found on the way. -/
def explore (next : α → List α) : (steps : Nat) → WorkQueue α → Numbering α → Numbering α
  | 0, _, found => found
  | steps + 1, pending, found =>
    match pending.pop with
    | (none, _) => found
    | (some x, pending) =>
      let (pending, found) := discover pending found (next x)
      explore next steps pending found

/-- The places found from one place in at most `steps` steps. -/
def exploreFrom (next : α → List α) (steps : Nat) (start : α) : Numbering α :=
  explore next steps (.ofList [start]) (.ofList [start])

end OperatorLALR
