import OperatorLALR.Parser.Basic

/-!
# Backtracking

Every entry of the stack and of the trail bears the time at which it was made, and every choice
point the time from which on entries depend on it. To return to a choice point, the entries from
its time on are taken from the stack, the latest first: a token goes back to the input, and a node
is replaced by the handle that its reduction consumed.
-/

namespace OperatorLALR

variable {τ ν ε σ : Type}

/-- The stack without the tokens on top that were shifted at or after a time. -/
def unshift (stamp : Nat) : List (StackEntry τ ν) → List (StackEntry τ ν)
  | [] => []
  | top :: below =>
    if stamp ≤ top.stamp ∧ top.item.isNode = false then unshift stamp below else top :: below

/-- Undo all shifts and reductions made at or after a time: the stack and the trail that are left,
and the number of reductions undone. -/
def undoSince (stamp : Nat) (stack : List (StackEntry τ ν)) :
    List (Reduction τ ν) → List (StackEntry τ ν) × List (Reduction τ ν) × Nat
  | [] =>
    match unshift stamp stack with
    | [] => ([], [], 0)
    | top :: below => (if stamp ≤ top.stamp then below else top :: below, [], 0)
  | last :: trail =>
    match unshift stamp stack with
    | [] => ([], last :: trail, 0)
    | top :: below =>
      if stamp ≤ top.stamp then
        let (stack, trail, undone) := undoSince stamp (last.handle.reverse ++ below) trail
        (stack, trail, undone + 1)
      else (top :: below, last :: trail, 0)

/-- The next way to try, the choice point that leaves it open, and the choice points that stay
pending. A choice point goes with its last way. -/
def nextWay? :
    List (ChoicePoint τ) → Option (Way × ChoicePoint τ × List (ChoicePoint τ))
  | [] => none
  | c :: outer =>
    match c.ways.pop? with
    | none => nextWay? outer
    | some (way, rest) =>
      some (way, c, if rest.isEmpty then outer else { c with ways := rest } :: outer)

namespace Machine

/-- The machine back at a choice point, to go on in the given way. -/
def resume (m : Machine τ ν ε σ) (way : Way) (c : ChoicePoint τ)
    (pending : List (ChoicePoint τ)) : Machine τ ν ε σ :=
  let (stack, trail, undone) := undoSince c.stamp m.stack m.trail
  { m with
    stack := stack
    choices := pending
    trail := if pending.isEmpty then [] else trail
    position := c.position
    lookahead := match way with
      | .action _ => some c.lookahead
      | .reading r => some (c.lookahead.reread r m.clock)
    forced := match way with
      | .action a => some a
      | .reading _ => none
    counts := { m.counts with
      backtracks := m.counts.backtracks + 1
      undoneReductions := m.counts.undoneReductions + undone } }

/-- The machine at the next way that a pending choice point leaves open, if there is one. -/
def backtrack? (m : Machine τ ν ε σ) : Option (Machine τ ν ε σ) :=
  (nextWay? m.choices).map fun (way, c, pending) => m.resume way c pending

end Machine

end OperatorLALR
