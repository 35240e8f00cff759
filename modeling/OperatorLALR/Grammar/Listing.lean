import OperatorLALR.Grammar.Order
import OperatorLALR.Text.Layout

/-!
# The listing of a grammar

A grammar is listed in sections: terminals and nonterminals in the order of names, operators if
there are any, and rules in declaration order.
-/

namespace OperatorLALR

namespace Grammar

/-- What a terminal is for, where it is not a kind of token. -/
def roleText (g : Grammar) : TerminalRole → String
  | .plain => ""
  | .tag => " (tag)"
  | .operator category fixity => s!" ({fixity.text} operators of {g.nonterminalName category})"

/-- A precedence behind the name of its terminal. -/
def precedenceText : Option Precedence → String
  | none => ""
  | some p => s!" (priority={p.priority}, assoc={p.assoc.text})"

/-- The line of a terminal. -/
def terminalLine (g : Grammar) (t : TerminalId) : String :=
  match g.terminal? t with
  | some terminal =>
    terminal.name ++ g.roleText terminal.role ++ precedenceText terminal.precedence
  | none => g.terminalName t

/-- The line of a nonterminal. -/
def nonterminalLine (g : Grammar) (n : NonterminalId) : String :=
  g.nonterminalName n ++ if n = g.start then " (start)" else ""

/-- The listing of a grammar. -/
def text (g : Grammar) : String :=
  let operators :=
    if g.operators.isEmpty then []
    else "\n## operators:" :: g.operators.sorted.map Operator.text
  Text.lines <|
    ["## terminals:"] ++ g.terminalsByName.map g.terminalLine ++
    ["\n## nonterminals:"] ++ g.nonterminalsByName.map g.nonterminalLine ++
    operators ++
    ["\n## rules:"] ++ g.rules.map fun rule => rule.text g

end Grammar

end OperatorLALR
