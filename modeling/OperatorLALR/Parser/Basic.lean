import OperatorLALR.ParseTable.Basic

/-!
# The parser and its machine

A parser drives a parse table over a list of tokens. Where the table, or the readings of a token as
operators, leave more than one way to go on, it leaves a choice point and takes the first; at a
dead end it returns to the innermost choice point with the help of a trail of the reductions made
since. This module holds the state of such a run.
-/

namespace OperatorLALR

/-- What a parser asks of a token. -/
class Token (τ : Type) where
  /-- The terminal the token is read as, if not as an operator. -/
  terminal : τ → TerminalId
  /-- The name under which the token may denote an operator. -/
  operatorName : τ → Option String

/-- One way to read a token: as a terminal, and as an operator if that is what it denotes. -/
structure Reading where
  terminal : TerminalId
  operator : Option Operator
  deriving DecidableEq, Repr

/-- A token with the way in which it is read. -/
structure TokenView (τ : Type) where
  token : τ
  reading : Reading
  /-- The place of the token in the input. -/
  position : Nat
  /-- The time at which the reading was chosen. -/
  stamp : Nat
  deriving DecidableEq, Repr

/-- A part of a handle: a token or the node of a reduction. -/
inductive HandleItem (τ ν : Type) where
  | token (view : TokenView τ)
  | node (n : ν)
  deriving DecidableEq, Repr

namespace HandleItem

variable {τ ν : Type}

/-- Whether the item is the node of a reduction. -/
def isNode : HandleItem τ ν → Bool
  | .token _ => false
  | .node _ => true

/-- The operator as which the item is read, if it is a token read as one. -/
def operator? : HandleItem τ ν → Option Operator
  | .token view => view.reading.operator
  | .node _ => none

end HandleItem

/-- An entry of the parser stack. -/
structure StackEntry (τ ν : Type) where
  state : StateId
  item : HandleItem τ ν
  /-- The priority of the operator that governs a node; 0 for a token or without an operator. -/
  priority : Nat
  /-- The time at which the entry was made. -/
  stamp : Nat
  deriving DecidableEq, Repr

/-- What comes next in the input. -/
inductive Lookahead (τ : Type) where
  | token (view : TokenView τ)
  | inputEnd
  deriving DecidableEq, Repr

namespace Lookahead

variable {τ : Type}

/-- The terminal that the lookahead is read as. -/
def terminal : Lookahead τ → TerminalId
  | .token view => view.reading.terminal
  | .inputEnd => endOfInput

/-- The operator that the lookahead is read as, if any. -/
def operator? : Lookahead τ → Option Operator
  | .token view => view.reading.operator
  | .inputEnd => none

/-- The same lookahead in another reading, chosen at the given time. -/
def reread (reading : Reading) (stamp : Nat) : Lookahead τ → Lookahead τ
  | .token view => .token { view with reading := reading, stamp := stamp }
  | .inputEnd => .inputEnd

end Lookahead

/-- The ways that a choice point leaves open: actions or readings of its lookahead. -/
inductive OpenWays where
  | actions (as : List Action)
  | readings (rs : List Reading)
  deriving DecidableEq, Repr

/-- One of the ways that a choice point leaves open. -/
inductive Way where
  | action (a : Action)
  | reading (r : Reading)
  deriving DecidableEq, Repr

namespace OpenWays

/-- The first way and the others. -/
def pop? : OpenWays → Option (Way × OpenWays)
  | .actions (a :: as) => some (.action a, .actions as)
  | .readings (r :: rs) => some (.reading r, .readings rs)
  | _ => none

/-- Whether no way is left. -/
def isEmpty : OpenWays → Bool
  | .actions as => as.isEmpty
  | .readings rs => rs.isEmpty

end OpenWays

/-- A point to which the parser may return, with the ways not tried yet. -/
structure ChoicePoint (τ : Type) where
  /-- The time of the choice. -/
  stamp : Nat
  position : Nat
  lookahead : Lookahead τ
  ways : OpenWays
  deriving DecidableEq, Repr

/-- The record of a reduction that may have to be undone. -/
structure Reduction (τ ν : Type) where
  stamp : Nat
  rule : RuleId
  /-- The stack entries that the reduction consumed, the lowest first. -/
  handle : List (StackEntry τ ν)
  deriving DecidableEq, Repr

/-- A place from which the parser could not go on. -/
structure DeadEnd where
  position : Nat
  state : StateId
  lookahead : TerminalId
  deriving DecidableEq, Repr

/-- Counters of a parse. -/
structure ParseCounts where
  reductions : Nat
  choicePoints : Nat
  backtracks : Nat
  undoneReductions : Nat
  /-- The largest number of pending choice points. -/
  maxChoiceDepth : Nat
  /-- The number of pending choice points when the input was accepted. -/
  choicesAtAccept : Nat
  /-- The length of the trail when the input was accepted. -/
  trailAtAccept : Nat
  deriving DecidableEq, Repr

/-- The counters before a parse. -/
def ParseCounts.zero : ParseCounts := ⟨0, 0, 0, 0, 0, 0, 0⟩

/-- A maker of nodes. It has a memory of its own, which backtracking does not restore. -/
structure NodeMaker (τ ν β σ : Type) where
  /-- The node of a reduction by a rule, from the items of its handle. -/
  reduce : RuleId → List (HandleItem τ ν) → σ → Except β ν × σ

/-- A parser: a table, a maker of nodes, and the operators defined at present. -/
structure Parser (τ ν β σ : Type) where
  table : ParseTable
  maker : NodeMaker τ ν β σ
  /-- The largest number of pending choice points, if there is a limit. -/
  maxChoiceDepth : Option Nat
  operators : OperatorTable

/-- The state of a parse. -/
structure Machine (τ ν ε σ : Type) where
  /-- The parser stack, the top first. -/
  stack : List (StackEntry τ ν)
  /-- The pending choice points, the innermost first. -/
  choices : List (ChoicePoint τ)
  /-- The reductions since the outermost pending choice point, the latest first. -/
  trail : List (Reduction τ ν)
  /-- The number of choice points so far. -/
  clock : Nat
  /-- The tokens read from the source. -/
  pulled : List τ
  /-- What the source still holds: tokens, or a failure to give one. -/
  source : List (Except ε τ)
  /-- Whether the source has been found empty. -/
  exhausted : Bool
  /-- The number of tokens on the stack and in its nodes. -/
  position : Nat
  /-- The lookahead, once its reading has been decided. -/
  lookahead : Option (Lookahead τ)
  /-- The action to take next, whatever the table says. -/
  forced : Option Action
  /-- The first of the farthest dead ends. -/
  farthest : Option DeadEnd
  counts : ParseCounts
  /-- The memory of the maker of nodes. -/
  memory : σ

namespace Machine

variable {τ ν ε σ : Type}

/-- The state before the first token of a source. -/
def start (source : List (Except ε τ)) (memory : σ) : Machine τ ν ε σ where
  stack := []
  choices := []
  trail := []
  clock := 0
  pulled := []
  source := source
  exhausted := false
  position := 0
  lookahead := none
  forced := none
  farthest := none
  counts := .zero
  memory := memory

/-- The state with all traces of the parse removed, counters and memory apart. -/
def cleared (m : Machine τ ν ε σ) : Machine τ ν ε σ :=
  { start m.source m.memory with counts := m.counts }

/-- The token at the current position, if it has been read. -/
def currentToken? (m : Machine τ ν ε σ) : Option τ := m.pulled[m.position]?

end Machine

namespace Parser

variable {τ ν β ε σ : Type}

/-- A parser over a table, with the operators of the table. -/
def ofTable (table : ParseTable) (maker : NodeMaker τ ν β σ) (maxChoiceDepth : Option Nat) :
    Parser τ ν β σ :=
  ⟨table, maker, maxChoiceDepth, table.operators⟩

/-- The state of the automaton on top of a stack. -/
def stateOn (p : Parser τ ν β σ) : List (StackEntry τ ν) → StateId
  | [] => p.table.initial
  | top :: _ => top.state

/-- The definition of an operator for further parses. -/
def operatorFor (p : Parser τ ν β σ) (name specifier : String) (priority : Nat)
    (category : NonterminalId) : Except OperatorError Operator :=
  match Specifier.parse specifier with
  | .error e => .error e
  | .ok spec =>
    match p.table.operatorTerminal category spec.fixity with
    | none => .error (.missingTerminal category spec.fixity)
    | some t =>
      let categoryName := (p.table.nonterminalName category).getD "<unknown>"
      Operator.checked ⟨name, category, categoryName, spec, priority, t⟩

/-- Define an operator for further parses: the definition it displaces, and the parser after
it. -/
def define (p : Parser τ ν β σ) (name specifier : String) (priority : Nat)
    (category : NonterminalId) : Except OperatorError (Option Operator × Parser τ ν β σ) :=
  (p.operatorFor name specifier priority category).map fun op =>
    (p.operators.displaced op, { p with operators := p.operators.define op })

end Parser

end OperatorLALR
