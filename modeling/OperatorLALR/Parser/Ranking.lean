import OperatorLALR.Parser.Outcome
import OperatorLALR.Sorting

/-!
# Ranking of candidates

Where operators decide between candidates, those that the operators forbid are dropped. A reduction
needs an operator in its handle that the lookahead accepts as its left argument, and a shift needs
some such reduction whose operator accepts the lookahead in its right argument. The candidates that
are compared come first, the tightest operator in front.
-/

namespace OperatorLALR

/-- Whether a priority respects a bound, if there is one. -/
def withinBound (priority : Nat) : Option Nat → Bool
  | none => true
  | some bound => priority ≤ bound

/-- A priority is within a bound if it is at most the limit, where there is one. -/
theorem withinBound_iff {priority : Nat} {bound : Option Nat} :
    withinBound priority bound = true ↔ ∀ limit ∈ bound, priority ≤ limit := by
  cases bound <;> simp [withinBound]

/-- A candidate with the operator in the handle of its reduction. -/
structure Candidate where
  action : Action
  operator : Option Operator
  deriving DecidableEq, Repr

/-- A candidate with the key by which it is ordered. -/
structure RankedAction where
  /-- The priority of the operator. -/
  priority : Nat
  /-- Reductions come before shifts. -/
  order : Nat
  action : Action
  deriving DecidableEq, Repr

namespace RankedAction

/-- Ranked candidates are ordered by priority, reductions before shifts. -/
def compare (a b : RankedAction) : Ordering :=
  (Ord.compare a.priority b.priority).then (Ord.compare a.order b.order)

end RankedAction

/-- What the comparison with the lookahead makes of a candidate. -/
inductive Standing where
  | ranked (r : RankedAction)
  | dropped
  | unranked (a : Action)
  deriving DecidableEq, Repr

namespace Standing

/-- The ranked candidate, if it is one. -/
def ranked? : Standing → Option RankedAction
  | .ranked r => some r
  | _ => none

/-- The candidate that takes no part in the comparison, if it is one. -/
def unranked? : Standing → Option Action
  | .unranked a => some a
  | _ => none

end Standing

namespace Candidate

/-- Whether some operator in a handle accepts another in its right argument. -/
def shiftAllowed (incoming : Operator) (candidates : List Candidate) : Bool :=
  candidates.any fun c => c.operator.any fun op => withinBound incoming.priority op.rightLimit

/-- What the comparison with the operator of the lookahead makes of a candidate. -/
def standing (incoming : Operator) (candidates : List Candidate) (c : Candidate) : Standing :=
  match c.action, c.operator with
  | .reduce _, some op =>
    if withinBound op.priority incoming.leftLimit then .ranked ⟨op.priority, 0, c.action⟩
    else .dropped
  | .shift _, _ =>
    if candidates.any fun other => other.operator.isSome then
      if shiftAllowed incoming candidates then .ranked ⟨incoming.priority, 1, c.action⟩
      else .dropped
    else .unranked c.action
  | _, _ => .unranked c.action

/-- The candidates in the order in which they are to be tried. -/
def rank (incoming : Option Operator) (candidates : List Candidate) : List Action :=
  match incoming with
  | none => candidates.map Candidate.action
  | some incoming =>
    let standings := candidates.map (standing incoming candidates)
    (sortBy RankedAction.compare (standings.filterMap Standing.ranked?)).map RankedAction.action ++
      standings.filterMap Standing.unranked?

end Candidate

namespace Parser

variable {τ ν β ε σ : Type}

/-- The operator in the handle that a reduction by a rule would take from a stack. -/
def operatorInHandle (shape : RuleShape) (stack : List (StackEntry τ ν)) : Option Operator :=
  match shape.operator with
  | none => none
  | some place =>
    if stack.length < shape.length then none
    else (((stack.take shape.length).reverse[place]?).bind fun e => e.item.operator?)

/-- A candidate with the operator in its handle. -/
def candidate (p : Parser τ ν β σ) (stack : List (StackEntry τ ν)) :
    Action → Except (ParseError ε β) Candidate
  | .reduce r =>
    match p.table.rule r with
    | none => .error (.unknownRule r)
    | some shape => .ok ⟨.reduce r, operatorInHandle shape stack⟩
  | a => .ok ⟨a, none⟩

/-- The candidates of a list, ranked by the operators in the handles and of the lookahead. -/
def rank (p : Parser τ ν β σ) (stack : List (StackEntry τ ν)) (d : CandidatesId)
    (lookahead : Lookahead τ) : Except (ParseError ε β) (List Action) :=
  match p.table.candidates d with
  | none => .error (.unknownCandidates d)
  | some actions =>
    (actions.mapM (p.candidate stack)).map fun candidates =>
      Candidate.rank lookahead.operator? candidates

end Parser

end OperatorLALR
