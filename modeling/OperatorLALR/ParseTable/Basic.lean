import OperatorLALR.Operator.Table

/-!
# Parse tables

What a parser has to know: the actions of each state, where reductions lead, the shape of the
rules, and the operators. Where the table leaves more than one action open, it gives the index of
a list of candidates.
-/

namespace OperatorLALR

/-- What a parser does in a state on a lookahead terminal. -/
inductive Action where
  /-- Read the lookahead and go to a state. -/
  | shift (next : StateId)
  /-- Reduce by a rule. -/
  | reduce (rule : RuleId)
  /-- Accept the input. -/
  | accept
  /-- Decide among candidates by the operators involved. -/
  | dynamic (candidates : CandidatesId)
  /-- Try candidates one after the other. -/
  | choice (candidates : CandidatesId)
  /-- Refuse the lookahead. -/
  | error
  deriving DecidableEq, Repr

namespace Action

/-- Whether the lookahead is refused. -/
def isError : Action → Bool
  | .error => true
  | _ => false

/-- The action as lists of candidates show it. -/
def text : Action → String
  | .shift next => s!"Shift({next.text})"
  | .reduce rule => s!"Reduce({rule.text})"
  | .accept => "Accept"
  | .dynamic candidates => s!"Dynamic({candidates.text})"
  | .choice candidates => s!"Choice({candidates.text})"
  | .error => "Error"

end Action

/-- What a parser has to know about a rule. -/
structure RuleShape where
  /-- The nonterminal that the rule derives from. -/
  left : NonterminalId
  /-- The number of symbols in the body. -/
  length : Nat
  /-- The place in the body of the operator that governs the rule. -/
  operator : Option Nat
  deriving DecidableEq, Repr

/-- A parse table, as a parser consults it. -/
structure ParseTable where
  /-- The state before the first token. -/
  initial : StateId
  /-- What to do in a state on a lookahead terminal. -/
  action : StateId → TerminalId → Action
  /-- Where a reduction to a nonterminal leads from the state below it. -/
  goto : StateId → NonterminalId → Option StateId
  /-- The shape of a rule. -/
  rule : RuleId → Option RuleShape
  /-- A list of candidates. -/
  candidates : CandidatesId → Option (List Action)
  /-- The terminals that are not refused in a state. -/
  expected : StateId → List TerminalId
  /-- The operators known before any input is parsed. -/
  operators : OperatorTable
  /-- The terminal for the operators of a category at a place. -/
  operatorTerminal : NonterminalId → Fixity → Option TerminalId
  /-- The name of a nonterminal. -/
  nonterminalName : NonterminalId → Option String

end OperatorLALR
