import OperatorLALR.Parser.Backtrack
import OperatorLALR.Parser.Ranking

/-!
# Steps of a parse

A step decides on the reading of the next token, unless that has been done, and carries out one
action: it shifts, reduces, accepts, branches or meets a dead end.
-/

namespace OperatorLALR.Parser

variable {τ ν β ε σ : Type}

/-- The token at the current position, read from the source if that has not been done: the token,
none at the end, or the failure of the source. -/
def readToken (m : Machine τ ν ε σ) : Except ε (Option τ) × Machine τ ν ε σ :=
  match m.currentToken? with
  | some token => (.ok (some token), m)
  | none =>
    if m.exhausted then (.ok none, m)
    else
      match m.source with
      | [] => (.ok none, { m with exhausted := true })
      | .ok token :: rest =>
        (.ok (some token), { m with pulled := m.pulled ++ [token], source := rest })
      | .error e :: rest => (.error e, { m with source := rest })

/-- The readings of a token that a state does not refuse: as its own terminal, then as each of the
operators that its name denotes. -/
def readings [Token τ] (p : Parser τ ν β σ) (q : StateId) (token : τ) : List Reading :=
  let named := match Token.operatorName token with
    | none => []
    | some name => (p.operators.lookup name).map fun op => ⟨op.terminal, some op⟩
  (⟨Token.terminal token, none⟩ :: named).filter fun r => !(p.table.action q r.terminal).isError

/-- Leave a choice point, unless there are as many as the limit allows. -/
def leaveChoice (p : Parser τ ν β σ) (m : Machine τ ν ε σ) (lookahead : Lookahead τ)
    (ways : OpenWays) : Except (ParseError ε β) (Machine τ ν ε σ) :=
  match p.maxChoiceDepth.filter fun depth => depth ≤ m.choices.length with
  | some depth => .error (.choiceLimit depth)
  | none =>
    let clock := m.clock + 1
    let choices := ⟨clock, m.position, lookahead, ways⟩ :: m.choices
    .ok { m with
      clock := clock
      choices := choices
      counts := { m.counts with
        choicePoints := m.counts.choicePoints + 1
        maxChoiceDepth := max m.counts.maxChoiceDepth choices.length } }

/-- Decide how the next token is read in a state. It is read in the first way that the state does
not refuse, and a choice point keeps the others. -/
def look [Token τ] (p : Parser τ ν β σ) (q : StateId) (m : Machine τ ν ε σ) :
    Attempt τ ν ε β σ :=
  match m.lookahead with
  | some _ => .done m
  | none =>
    match readToken m with
    | (.error e, m) => .failed (.source e) m
    | (.ok none, m) => .done { m with lookahead := some .inputEnd }
    | (.ok (some token), m) =>
      match p.readings q token with
      | [] => .refused m
      | [reading] =>
        .done { m with lookahead := some (.token ⟨token, reading, m.position, m.clock⟩) }
      | reading :: others =>
        let view : TokenView τ := ⟨token, reading, m.position, m.clock⟩
        match p.leaveChoice m (.token view) (.readings others) with
        | .error e => .failed e m
        | .ok m => .done { m with lookahead := some (.token { view with stamp := m.clock }) }

/-- Go on with the first of some actions, and let a choice point keep the others. -/
def tryInTurn (p : Parser τ ν β σ) (m : Machine τ ν ε σ) (lookahead : Lookahead τ) :
    List Action → Attempt τ ν ε β σ
  | [] => .refused m
  | [a] => .done { m with forced := some a }
  | a :: others =>
    match p.leaveChoice m lookahead (.actions others) with
    | .error e => .failed e m
    | .ok m => .done { m with forced := some a }

/-- Put a token on the stack. -/
def shift (m : Machine τ ν ε σ) (next : StateId) (view : TokenView τ) : Machine τ ν ε σ :=
  { m with
    stack := ⟨next, .token view, 0, m.clock⟩ :: m.stack
    position := m.position + 1
    lookahead := none }

/-- Whether an argument respects a bound. Only nodes are bounded. -/
def argumentFits (handle : List (StackEntry τ ν)) (place : Nat) (bound : Option Nat) : Bool :=
  match handle[place]? with
  | some e => !e.item.isNode || withinBound e.priority bound
  | none => true

/-- The priority of a node: that of the operator at its place in the handle, or 0 without one. There
is none if an argument of the operator does not respect its bound. -/
def nodePriority? (shape : RuleShape) (handle : List (StackEntry τ ν)) : Option Nat :=
  match shape.operator.bind fun place =>
      ((handle[place]?).bind fun e => e.item.operator?).map fun op => (place, op) with
  | none => some 0
  | some (place, op) =>
    if (place == 0 || argumentFits handle (place - 1) op.leftLimit) &&
        argumentFits handle (place + 1) op.rightLimit then
      some op.priority
    else none

/-- Put the node of a reduction on the stack in place of its handle, and on the trail if some
choice is pending. -/
def pushNode (m : Machine τ ν ε σ) (r : RuleId) (handle below : List (StackEntry τ ν))
    (next : StateId) (node : ν) (priority : Nat) : Machine τ ν ε σ :=
  { m with
    stack := ⟨next, .node node, priority, m.clock⟩ :: below
    trail := if m.choices.isEmpty then m.trail else ⟨m.clock, r, handle⟩ :: m.trail
    counts := { m.counts with reductions := m.counts.reductions + 1 } }

/-- Reduce by a rule, unless the operator in the handle does not accept its arguments. -/
def reduce (p : Parser τ ν β σ) (m : Machine τ ν ε σ) (r : RuleId) : Attempt τ ν ε β σ :=
  match p.table.rule r with
  | none => .failed (.unknownRule r) m
  | some shape =>
    if m.stack.length < shape.length then .failed .emptyStack m
    else
      let handle := (m.stack.take shape.length).reverse
      let below := m.stack.drop shape.length
      match nodePriority? shape handle with
      | none => .refused m
      | some priority =>
        match p.maker.reduce r (handle.map StackEntry.item) m.memory with
        | (.error e, memory) => .failed (.maker e) { m with stack := below, memory := memory }
        | (.ok node, memory) =>
          let q := p.stateOn below
          match p.table.goto q shape.left with
          | none =>
            .failed (.missingGoto q shape.left) { m with stack := below, memory := memory }
          | some next =>
            .done (pushNode { m with memory := memory } r handle below next node priority)

/-- Accept the input: the node on top of the stack is the result. -/
def accept (m : Machine τ ν ε σ) : StepResult τ ν ε β σ :=
  let m := { m with counts := { m.counts with
    choicesAtAccept := m.choices.length
    trailAtAccept := m.trail.length } }
  match m.stack with
  | [] => .halt (.error .emptyStack) m
  | top :: _ =>
    match top.item with
    | .node n => .halt (.ok n) m.cleared
    | .token _ => .halt (.error .unexpectedItem) m.cleared

/-- The dead end at which a machine stands. -/
def deadEndAt [Token τ] (q : StateId) (m : Machine τ ν ε σ) : DeadEnd :=
  let terminal := match m.lookahead with
    | some lookahead => lookahead.terminal
    | none => (m.currentToken?.map Token.terminal).getD endOfInput
  ⟨m.position, q, terminal⟩

/-- The farther of two dead ends, the earlier one on equal positions. -/
def fartherOf (earlier : Option DeadEnd) (here : DeadEnd) : DeadEnd :=
  match earlier with
  | some e => if e.position < here.position then here else e
  | none => here

/-- Return to the innermost choice point, or reject the input if there is none. -/
def retreat [Token τ] (p : Parser τ ν β σ) (q : StateId) (m : Machine τ ν ε σ) :
    StepResult τ ν ε β σ :=
  let farthest := fartherOf m.farthest (deadEndAt q m)
  match Machine.backtrack? { m with farthest := some farthest } with
  | some m => .next m
  | none =>
    .halt
      (.error (.rejected farthest.position farthest.lookahead (p.table.expected farthest.state)))
      m.cleared

/-- Go on after a part of a step, at a dead end if it was refused. -/
def proceed [Token τ] (p : Parser τ ν β σ) (q : StateId) : Attempt τ ν ε β σ → StepResult τ ν ε β σ
  | .done m => .next m
  | .refused m => p.retreat q m
  | .failed e m => .halt (.error e) m

/-- Carry out an action in a state on a lookahead. -/
def perform [Token τ] (p : Parser τ ν β σ) (q : StateId) (lookahead : Lookahead τ)
    (m : Machine τ ν ε σ) : Action → StepResult τ ν ε β σ
  | .shift next =>
    match lookahead with
    | .token view => .next (shift m next view)
    | .inputEnd => .halt (.error .unexpectedEnd) m
  | .reduce r => p.proceed q (p.reduce m r)
  | .accept => accept m
  | .dynamic d =>
    match p.rank m.stack d lookahead with
    | .error e => .halt (.error e) m
    | .ok candidates => p.proceed q (p.tryInTurn m lookahead candidates)
  | .choice d =>
    match p.table.candidates d with
    | none => .halt (.error (.unknownCandidates d)) m
    | some candidates => p.proceed q (p.tryInTurn m lookahead candidates)
  | .error => p.retreat q m

/-- One step of a parse. -/
def step [Token τ] (p : Parser τ ν β σ) (m : Machine τ ν ε σ) : StepResult τ ν ε β σ :=
  let q := p.stateOn m.stack
  match p.look q m with
  | .failed e m => .halt (.error e) m
  | .refused m => p.retreat q m
  | .done m =>
    let lookahead := m.lookahead.getD .inputEnd
    let action := m.forced.getD (p.table.action q lookahead.terminal)
    p.perform q lookahead { m with forced := none } action

end OperatorLALR.Parser
