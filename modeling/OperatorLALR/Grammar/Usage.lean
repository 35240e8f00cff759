import OperatorLALR.Exploration
import OperatorLALR.Grammar.Basic

/-!
# Symbols without use

Terminals that no rule mentions, and nonterminals that no derivation from the augmented start
symbol reaches. Reached are the nonterminals met by an exploration along the bodies of the rules.
-/

namespace OperatorLALR.Grammar

/-- The terminals declared but used in no body; tags are used elsewhere. -/
def terminalsWithoutUse (g : Grammar) : List TerminalId :=
  let used : TerminalSet :=
    .ofList (g.rules.flatMap fun rule => rule.body.filterMap Symbol.terminal?)
  g.terminalIds.filter fun t =>
    t ≠ endOfInput && !(g.terminal? t).any Terminal.isTag && !used.contains t

/-- The nonterminals in the bodies of the rules of a nonterminal. -/
def successors (g : Grammar) (n : NonterminalId) : List NonterminalId :=
  (g.rulesOf n).flatMap fun r => (g.body r).filterMap Symbol.nonterminal?

/-- The nonterminals that derivations from the augmented start symbol reach. They are processed
first in, first out. A stack of waiting nonterminals would process them in another order and number
them differently, but find the same ones: only which are found is used below, not when. -/
def reachableNonterminals (g : Grammar) : Numbering NonterminalId :=
  exploreFrom g.successors (g.nonterminals.length + 1) augmentedStart

/-- The nonterminals that no derivation from the augmented start symbol reaches. -/
def nonterminalsWithoutUse (g : Grammar) : List NonterminalId :=
  let reachable := g.reachableNonterminals
  g.nonterminalIds.filter fun n => (reachable.number? n).isNone

end OperatorLALR.Grammar
