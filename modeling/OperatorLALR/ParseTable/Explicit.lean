import OperatorLALR.OrderedMap
import OperatorLALR.ParseTable.Basic

/-!
# Tables written out

A parse table given cell by cell. What is not listed is absent, and of two entries for one cell
the later counts; of two terminals for one category and place the earlier counts.
-/

namespace OperatorLALR

/-- The cells of a parse table. -/
structure ExplicitTable where
  initial : StateId
  actions : List ((StateId × TerminalId) × Action)
  gotos : List ((StateId × NonterminalId) × StateId)
  /-- The rules; the index of a rule is its place. -/
  rules : List RuleShape
  /-- The lists of candidates; the index of a list is its place. -/
  candidates : List (List Action)
  operators : OperatorTable
  operatorTerminals : List ((NonterminalId × Fixity) × TerminalId)
  names : List (NonterminalId × String)

namespace ExplicitTable

/-- The terminals that are not refused in a state, in ascending order. -/
def expected (l : ExplicitTable) (actions : OrderedMap (StateId × TerminalId) Action)
    (q : StateId) : List TerminalId :=
  let refused := fun t => ((actions.find? (q, t)).getD .error).isError
  let listed := l.actions.filterMap fun (cell, _) => if cell.1 = q then some cell.2 else none
  sortDistinct compare (listed.filter fun t => !refused t)

/-- The parse table with the listed cells. -/
def toParseTable (l : ExplicitTable) : ParseTable :=
  let actions := OrderedMap.ofList l.actions
  let gotos := OrderedMap.ofList l.gotos
  let names := OrderedMap.ofList l.names
  { initial := l.initial
    action := fun q t => (actions.find? (q, t)).getD .error
    goto := fun q n => gotos.find? (q, n)
    rule := fun r => l.rules[r.val]?
    candidates := fun d => l.candidates[d.val]?
    expected := l.expected actions
    operators := l.operators
    operatorTerminal := fun category fixity =>
      OrderedMap.findIn (category, fixity) l.operatorTerminals
    nonterminalName := names.find? }

end ExplicitTable

end OperatorLALR
