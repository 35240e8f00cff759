import OperatorLALR.Automaton.Lookahead
import OperatorLALR.ParseTable.Resolution

/-!
# Generated tables

The parse table of an automaton: for each state its actions on terminals, in the order in which
the terminals are met among its transitions and reductions, and its transitions across
nonterminals. Equal lists of candidates share one index.
-/

namespace OperatorLALR

/-- The actions and transitions of a state. -/
structure TableRow where
  actions : OrderedMap TerminalId Action
  gotos : OrderedMap NonterminalId StateId
  deriving DecidableEq, Repr

/-- A table generated from a grammar. -/
structure GeneratedTable where
  /-- The rows by the numbers of the states. -/
  rows : Array TableRow
  rules : List RuleShape
  candidates : List (List Action)
  /-- Every conflict that was met, those left to the parser included. -/
  conflicts : List Conflict
  operators : OperatorTable
  operatorTerminals : OrderedMap (NonterminalId × Fixity) TerminalId
  /-- The names of the nonterminals. -/
  nonterminals : List String
  deriving DecidableEq, Repr

namespace TableRow

/-- The action on a terminal; what has none is refused. -/
def action (row : TableRow) (t : TerminalId) : Action := (row.actions.find? t).getD .error

/-- The terminals that are not refused, in ascending order. -/
def expected (row : TableRow) : List TerminalId :=
  sortBy compare <| row.actions.entries.filterMap fun (t, a) => if a.isError then none else some t

end TableRow

namespace GeneratedTable

/-- The numbers of the states. -/
def stateIds (table : GeneratedTable) : List StateId := Index.below table.rows.size

/-- The rows with the numbers of their states. -/
def numbered (table : GeneratedTable) : List (StateId × TableRow) :=
  table.stateIds.zip table.rows.toList

/-- The row of a state. -/
def row? (table : GeneratedTable) (q : StateId) : Option TableRow := table.rows[q.val]?

/-- The table as a parser consults it. -/
def toParseTable (table : GeneratedTable) : ParseTable where
  initial := ⟨0⟩
  action q t := ((table.row? q).map fun row => row.action t).getD .error
  goto q n := (table.row? q).bind fun row => row.gotos.find? n
  rule r := table.rules[r.val]?
  candidates d := table.candidates[d.val]?
  expected q := ((table.row? q).map TableRow.expected).getD []
  operators := table.operators
  operatorTerminal category fixity := table.operatorTerminals.find? (category, fixity)
  nonterminalName n := table.nonterminals[n.val]?

end GeneratedTable

/-- No action. -/
def Competition.none : Competition := ⟨.none, [], []⟩

/-- The competition with one more reduction. -/
def Competition.addReduce (c : Competition) (r : RuleId) : Competition :=
  { c with reduces := c.reduces ++ [r] }

/-- The competition with a shift of the items of some rules. -/
def Competition.addShift (c : Competition) (next : StateId) (rules : List RuleId) : Competition :=
  { c with shift := some next, shiftRules := c.shiftRules ++ rules }

/-- The competing actions of a state by terminals. -/
abbrev Competitions := OrderedMap TerminalId Competition

namespace State

/-- The competitions with the shift of a transition. -/
def addShift (s : State) (cs : Competitions) (t : Transition) : Competitions :=
  match t.marker, t.next with
  | some (.terminal symbol), some next =>
    let rules := t.items.filterMap fun place => s.items[place]?.map Item.rule
    cs.update symbol fun c => (c.getD .none).addShift next rules
  | _, _ => cs

/-- The competitions with the reduction by a rule on some terminals. -/
def addReduce (r : RuleId) (terminals : List TerminalId) (cs : Competitions) : Competitions :=
  terminals.foldl (fun cs t => cs.update t fun c => (c.getD .none).addReduce r) cs

/-- The terminals on which a state reduces by a rule. -/
def reduceTerminals (l : LookaheadSets) (q : StateId) (r : RuleId) : List TerminalId :=
  if r = acceptRule then [endOfInput] else ((l.get? q r).map IndexSet.toList).getD []

/-- The competing actions of a state by terminals, in the order in which these are met. -/
def competitions (s : State) (l : LookaheadSets) (q : StateId) : Competitions :=
  s.completeItems.foldl (fun cs (_, item) => addReduce item.rule (reduceTerminals l q item.rule) cs)
    (s.transitions.foldl s.addShift ∅)

end State

/-- What is settled for a state on a terminal. -/
structure Cell where
  terminal : TerminalId
  /-- The competing actions, the reductions in ascending order. -/
  competition : Competition
  verdict : Verdict
  /-- The cause for a record of the conflict, where one is due. -/
  cause : Option ConflictCause
  deriving DecidableEq, Repr

/-- What is settled for a state, and its transitions across nonterminals. -/
structure SettledState where
  state : StateId
  cells : List Cell
  gotos : List (NonterminalId × StateId)
  deriving DecidableEq, Repr

/-- The competition with its reductions in ascending order. -/
def Competition.ordered (c : Competition) : Competition :=
  { c with reduces := sortDistinct compare c.reduces }

/-- Settle what a state does on a terminal. -/
def Grammar.settleCell (g : Grammar) (options : BuildOptions) (q : StateId) (t : TerminalId)
    (c : Competition) : Except TableError Cell :=
  (g.settle options q t c.ordered).map fun (verdict, cause) => ⟨t, c.ordered, verdict, cause⟩

/-- Settle what a state does on every terminal. -/
def Grammar.settleState (g : Grammar) (options : BuildOptions) (l : LookaheadSets) (q : StateId)
    (s : State) : Except TableError SettledState :=
  ((s.competitions l q).entries.mapM fun (t, c) => g.settleCell options q t c).map fun cells =>
    ⟨q, cells, s.gotos⟩

/-- The candidates that a verdict leaves to the parser. -/
def Verdict.candidates? : Verdict → Option (List Action)
  | .action _ => none
  | .dynamic list | .choice list => some list

/-- The action of a verdict, which names candidates by the place of their list. -/
def Verdict.toAction (lists : List (List Action)) : Verdict → Action
  | .action a => a
  | .dynamic list => .dynamic ⟨lists.idxOf list⟩
  | .choice list => .choice ⟨lists.idxOf list⟩

/-- The record of the conflict in a cell, where one is due. -/
def Cell.conflict? (c : Cell) (q : StateId) (lists : List (List Action)) : Option Conflict :=
  c.cause.map fun cause =>
    ⟨q, c.terminal, c.competition.shift, c.competition.reduces, cause, c.verdict.toAction lists⟩

namespace SettledState

/-- The distinct lists of candidates of some states, in the order in which they are met. -/
def distinctCandidates (settled : List SettledState) : List (List Action) :=
  fresh [] (settled.flatMap fun s => s.cells.filterMap fun c => c.verdict.candidates?)

/-- The row of a state. -/
def row (s : SettledState) (lists : List (List Action)) : TableRow where
  actions := ⟨s.cells.map fun c => (c.terminal, c.verdict.toAction lists)⟩
  gotos := .ofList s.gotos

/-- The conflicts of a state. -/
def conflicts (s : SettledState) (lists : List (List Action)) : List Conflict :=
  s.cells.filterMap fun c => c.conflict? s.state lists

end SettledState

/-- What a parser has to know about a rule of a grammar. -/
def Rule.shape (rule : Rule) (g : Grammar) : RuleShape :=
  ⟨rule.left, rule.body.length, rule.governingPlace g⟩

/-- The number of different indices of lists of candidates. -/
def candidatesNumbers : Nat := 65536

/-- The table with the given settled states. -/
def GeneratedTable.ofSettled (g : Grammar) (settled : List SettledState) : GeneratedTable :=
  let lists := SettledState.distinctCandidates settled
  { rows := (settled.map fun s => s.row lists).toArray
    rules := g.rules.map fun rule => rule.shape g
    candidates := lists
    conflicts := settled.flatMap fun s => s.conflicts lists
    operators := g.operators
    operatorTerminals := g.operatorTerminals
    nonterminals := g.nonterminals }

/-- The table of an automaton, without regard to the number of conflicts. -/
def Automaton.generate (m : Automaton) (g : Grammar) (l : LookaheadSets) (options : BuildOptions) :
    Except TableError GeneratedTable :=
  match m.numbered.mapM fun (q, s) => g.settleState options l q s with
  | .error e => .error e
  | .ok settled =>
    let table := GeneratedTable.ofSettled g settled
    if candidatesNumbers < table.candidates.length then
      .error (.tooManyCandidateLists candidatesNumbers)
    else .ok table

end OperatorLALR
