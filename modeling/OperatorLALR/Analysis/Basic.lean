import OperatorLALR.Analysis.RuleChain

/-!
# Grammar analysis

Nullability, first sets and rule chains of a grammar, as the construction of the automaton and of
the lookahead sets consults them.
-/

namespace OperatorLALR

/-- What is known about the derivations of a grammar. -/
structure Analysis where
  /-- The nonterminals that derive the empty string. -/
  nullable : NonterminalSet
  /-- The first set of each nonterminal. -/
  firsts : List TerminalSet
  /-- For each nonterminal the chains to it, by their sources. -/
  buckets : List ChainBuckets
  deriving DecidableEq, Repr

/-- The analysis of a grammar. It fails for the first nonterminal that is found to derive
itself. -/
def Grammar.analyse (g : Grammar) : Except CyclicDerivation Analysis :=
  let nullable := g.nullableSet
  let firsts := g.firstSets nullable
  match g.nonterminalIds.mapM (g.chainsTo nullable firsts) with
  | .ok buckets => .ok ⟨nullable, firsts, buckets⟩
  | .error e => .error e

namespace Analysis

/-- Whether a nonterminal derives the empty string. -/
def isNullable (a : Analysis) (n : NonterminalId) : Bool := a.nullable.contains n

/-- The terminals that begin what a nonterminal derives. -/
def first? (a : Analysis) (n : NonterminalId) : Option TerminalSet := a.firsts[n.val]?

/-- The terminals that begin what a list of symbols derives. -/
def firstTerminals (a : Analysis) (symbols : List Symbol) : TerminalSet :=
  firstOfSymbols a.nullable a.firsts symbols

/-- Whether a list of symbols derives the empty string. -/
def vanishes (a : Analysis) (symbols : List Symbol) : Bool := allNullable a.nullable symbols

/-- The chains between two nonterminals, if there are any. -/
def chains? (a : Analysis) (source target : NonterminalId) : Option ChainBucket :=
  (a.buckets[target.val]?).bind fun buckets => buckets.find? source

/-- The nonterminals to which chains lead from one, with the chains. -/
def chainsFrom (a : Analysis) (source : NonterminalId) : List (NonterminalId × ChainBucket) :=
  (Index.below a.buckets.length).filterMap fun target =>
    (a.chains? source target).map fun bucket => (target, bucket)

/-- The nonterminals whose rules enter the closure of an item with its dot before a nonterminal,
that nonterminal included. -/
def leadingSymbols (a : Analysis) (n : NonterminalId) : List NonterminalId :=
  (a.chainsFrom n).map Prod.fst

end Analysis

end OperatorLALR
