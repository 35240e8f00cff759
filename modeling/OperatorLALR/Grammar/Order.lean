import OperatorLALR.Grammar.Basic

/-!
# The order of symbols in reports

Terminals come before nonterminals, and each kind is listed in the order of names. Where names tie,
as only symbols without a declaration do, the index decides.
-/

namespace OperatorLALR

namespace Text.Folding

variable (folding : Folding) (g : Grammar)

/-- The order of symbols in reports. -/
def symbolOrder : Symbol → Symbol → Ordering
  | .terminal _, .nonterminal _ => .lt
  | .nonterminal _, .terminal _ => .gt
  | .terminal a, .terminal b =>
    (folding.nameOrder (g.terminalName a) (g.terminalName b)).then (compare a b)
  | .nonterminal a, .nonterminal b =>
    (folding.nameOrder (g.nonterminalName a) (g.nonterminalName b)).then (compare a b)

/-- The terminals in the order of reports. -/
def terminalsByName : List TerminalId :=
  sortBy (fun a b => folding.symbolOrder g (.terminal a) (.terminal b)) g.terminalIds

/-- The nonterminals in the order of reports. -/
def nonterminalsByName : List NonterminalId :=
  sortBy (fun a b => folding.symbolOrder g (.nonterminal a) (.nonterminal b)) g.nonterminalIds

end Text.Folding

namespace Grammar

variable (g : Grammar)

/-- The order of symbols in reports under the Unicode rules. -/
def symbolOrder : Symbol → Symbol → Ordering := Text.unicode.symbolOrder g

/-- The terminals in the order of reports under the Unicode rules. -/
def terminalsByName : List TerminalId := Text.unicode.terminalsByName g

/-- The nonterminals in the order of reports under the Unicode rules. -/
def nonterminalsByName : List NonterminalId := Text.unicode.nonterminalsByName g

end Grammar

end OperatorLALR
