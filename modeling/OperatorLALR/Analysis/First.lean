import OperatorLALR.FixedPoint
import OperatorLALR.Grammar.Basic

/-!
# Nullability and first sets

The nonterminals that derive the empty string, and for each nonterminal the terminals that begin
what it derives. Both are the least ones closed under the rules, reached by adding what the rules
demand until nothing changes. What they demand of the first sets is read off them once.
-/

namespace OperatorLALR

/-- Whether every symbol of a list is a nonterminal of the set. -/
def allNullable (nullable : NonterminalSet) (symbols : List Symbol) : Bool :=
  symbols.all fun
    | .terminal _ => false
    | .nonterminal n => nullable.contains n

/-- The terminals that begin what a list of symbols derives, given those of the nonterminals and
the nullable ones. -/
def firstOfSymbols (nullable : NonterminalSet) (firsts : List TerminalSet) :
    List Symbol → TerminalSet
  | [] => ∅
  | .terminal t :: _ => .ofList [t]
  | .nonterminal n :: rest =>
    let first := (firsts[n.val]?).getD ∅
    if nullable.contains n then first ∪ firstOfSymbols nullable firsts rest else first

/-- The terminals that begin what one symbol derives, given those of the nonterminals. -/
def firstOfSymbol (firsts : List TerminalSet) : Symbol → TerminalSet
  | .terminal t => .ofList [t]
  | .nonterminal n => (firsts[n.val]?).getD ∅

/-- The symbols of a body whose terminals belong to the first set of its head: those up to the first
one that is not nullable. The head itself would demand nothing. -/
def leadingDemands (nullable : NonterminalSet) (head : NonterminalId) : List Symbol → List Symbol
  | [] => []
  | .terminal t :: _ => [.terminal t]
  | .nonterminal n :: rest =>
    let later := if nullable.contains n then leadingDemands nullable head rest else []
    if n = head then later else .nonterminal n :: later

/-- The first sets after each demand has been met once. -/
def extendFirsts (demands : List (NonterminalId × Symbol)) (firsts : List TerminalSet) :
    List TerminalSet :=
  demands.foldl (fun fs (n, symbol) => fs.modify n.val (· ∪ firstOfSymbol fs symbol)) firsts

namespace Grammar

/-- The set with the heads of those rules whose bodies it makes vanish. -/
def extendNullable (g : Grammar) (nullable : NonterminalSet) : NonterminalSet :=
  g.rules.foldl (fun s rule => if allNullable s rule.body then s.insert rule.left else s) nullable

/-- The nonterminals that derive the empty string. -/
def nullableSet (g : Grammar) : NonterminalSet :=
  stabilize g.extendNullable (g.nonterminals.length + 1) ∅

/-- What the first set of each nonterminal must contain: the terminals of these symbols. -/
def firstDemands (g : Grammar) (nullable : NonterminalSet) : List (NonterminalId × Symbol) :=
  g.rules.flatMap fun rule =>
    (leadingDemands nullable rule.left rule.body).map fun symbol => (rule.left, symbol)

/-- The first set of each nonterminal. -/
def firstSets (g : Grammar) (nullable : NonterminalSet) : List TerminalSet :=
  stabilize (extendFirsts (g.firstDemands nullable))
    (g.nonterminals.length * g.terminals.length + 1) (g.nonterminals.map fun _ => ∅)

end Grammar

end OperatorLALR
