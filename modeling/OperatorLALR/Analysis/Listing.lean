import OperatorLALR.Analysis.Basic
import OperatorLALR.Grammar.Listing

/-!
# The listing of an analysis

Nullable nonterminals, first sets, and the chains between nonterminals, each in the order of names.
-/

namespace OperatorLALR

/-- The names of a set of terminals in their order, between braces. -/
def Grammar.setText (g : Grammar) (s : TerminalSet) : String :=
  let names := sortBy Text.nameOrder (s.toList.map g.terminalName)
  "\x7b" ++ ", ".intercalate names ++ "\x7d"

namespace Analysis

/-- The line for the chains between two nonterminals, if there are any. -/
def chainsLine? (a : Analysis) (g : Grammar) (source target : NonterminalId) : Option String :=
  (a.chains? source target).map fun bucket =>
    s!"- {g.nonterminalName source} -> {g.nonterminalName target}: {g.setText bucket.first}" ++
      if bucket.nullable then " (nullable)" else ""

/-- The line for the first set of a nonterminal. -/
def firstLine? (a : Analysis) (g : Grammar) (n : NonterminalId) : Option String :=
  (a.first? n).map fun first => s!"- {g.nonterminalName n}: {g.setText first}"

/-- The listing of an analysis. -/
def text (a : Analysis) (g : Grammar) : String :=
  let symbols := g.nonterminalsByName
  Text.lines <|
    ["## nullables:"] ++
    (symbols.filter a.isNullable).map (fun n => "- " ++ g.nonterminalName n) ++
    ["\n## first sets:"] ++ symbols.filterMap (a.firstLine? g) ++
    ["\n## rule paths:"] ++
    symbols.flatMap fun source => symbols.filterMap (a.chainsLine? g source)

end Analysis

end OperatorLALR
