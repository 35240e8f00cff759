import OperatorLALR.Analysis.First

/-!
# Rule chains

A rule chain from `A` to `C` is a chain of rules `A := B β₁`, `B := … β₂`, up to `… := C βₖ`, each
body led by the head of the next rule. Along it `A` derives `C βₖ … β₁`. The chains to `C` are found
backward from the empty one, so that the first set and the nullability of the symbols behind `C`
grow by one rule at a time. A chain that adds nothing to the chains between its ends found before is
dropped. A chain from a nonterminal back to itself behind which everything may vanish shows that
the nonterminal derives itself, and no analysis is given.
-/

namespace OperatorLALR

/-- A chain of rules, each led by the head of the next. -/
structure RuleChain where
  /-- The head of the outermost rule. -/
  source : NonterminalId
  /-- The leading symbol of the innermost rule. -/
  target : NonterminalId
  /-- The rules, the innermost first. -/
  rules : List RuleId
  /-- The terminals that begin what stands behind the target. -/
  first : TerminalSet
  /-- Whether everything behind the target may vanish. -/
  nullable : Bool
  deriving DecidableEq, Repr

/-- The chain of no rules from a nonterminal to itself. -/
def RuleChain.empty (n : NonterminalId) : RuleChain := ⟨n, n, [], ∅, true⟩

/-- The chain with an outer rule whose tail has the given first set and nullability. -/
def RuleChain.extend (chain : RuleChain) (r : RuleId) (left : NonterminalId) (first : TerminalSet)
    (nullable : Bool) : RuleChain where
  source := left
  target := chain.target
  rules := chain.rules ++ [r]
  first := if chain.nullable then chain.first ∪ first else chain.first
  nullable := chain.nullable && nullable

/-- The chains kept between two nonterminals, and what they have in common. -/
structure ChainBucket where
  /-- The chains in the order in which they were found. -/
  chains : List RuleChain
  /-- The terminals of the first sets of all of them. -/
  first : TerminalSet
  /-- Whether one of them is nullable. -/
  nullable : Bool
  deriving DecidableEq, Repr

namespace ChainBucket

/-- The bucket without chains. -/
def empty : ChainBucket := ⟨[], ∅, false⟩

/-- Whether the chains of the bucket make a further one superfluous. -/
def subsumes (bucket : ChainBucket) (chain : RuleChain) : Bool :=
  !bucket.chains.isEmpty && chain.first.isSubset bucket.first &&
    (bucket.nullable || !chain.nullable)

/-- The bucket with one more chain. -/
def add (bucket : ChainBucket) (chain : RuleChain) : ChainBucket where
  chains := bucket.chains ++ [chain]
  first := bucket.first ∪ chain.first
  nullable := bucket.nullable || chain.nullable

end ChainBucket

/-- The buckets of the chains to one nonterminal, by their sources. -/
abbrev ChainBuckets := OrderedMap NonterminalId ChainBucket

/-- A nonterminal that derives itself. -/
structure CyclicDerivation where
  symbol : NonterminalId
  name : String
  deriving DecidableEq, Repr

/-- The wording of the error. -/
def CyclicDerivation.message (e : CyclicDerivation) : String :=
  s!"cyclic derivation: `{e.name}' derives itself"

namespace Grammar

/-- The rules whose bodies are led by a nonterminal. -/
def rulesLedBy (g : Grammar) (n : NonterminalId) : List RuleId :=
  g.ruleIds.filter fun r => (g.body r).head? == some (.nonterminal n)

/-- The chain with a rule in front that is led by its source. -/
def extendChain (g : Grammar) (nullable : NonterminalSet) (firsts : List TerminalSet)
    (chain : RuleChain) (r : RuleId) : RuleChain :=
  let tail := (g.body r).tail
  chain.extend r (g.left r) (firstOfSymbols nullable firsts tail) (allNullable nullable tail)

/-- Put the extensions of a chain by some rules into the buckets. The chains that were kept come
back in order; the result is none if an extension leads from a nonterminal to itself with nothing
behind it. -/
def extendBuckets (g : Grammar) (nullable : NonterminalSet) (firsts : List TerminalSet)
    (chain : RuleChain) : List RuleId → ChainBuckets → Option (List RuleChain × ChainBuckets)
  | [], buckets => some ([], buckets)
  | r :: rs, buckets =>
    let longer := g.extendChain nullable firsts chain r
    if longer.source = longer.target ∧ longer.nullable = true then none
    else
      let bucket := (buckets.find? longer.source).getD .empty
      if bucket.subsumes longer then g.extendBuckets nullable firsts chain rs buckets
      else
        (g.extendBuckets nullable firsts chain rs
          (buckets.insert longer.source (bucket.add longer))).map
            fun (kept, buckets) => (longer :: kept, buckets)

/-- Extend the waiting chains backward, the earliest first, for at most the given number of
chains. -/
def searchChains (g : Grammar) (nullable : NonterminalSet) (firsts : List TerminalSet) :
    Nat → List RuleChain → ChainBuckets → Option ChainBuckets
  | 0, _, buckets => some buckets
  | _ + 1, [], buckets => some buckets
  | n + 1, chain :: waiting, buckets =>
    match g.extendBuckets nullable firsts chain (g.rulesLedBy chain.source) buckets with
    | none => none
    | some (kept, buckets) => g.searchChains nullable firsts n (waiting ++ kept) buckets

/-- A bound on the chains kept to one nonterminal: each bucket takes one chain to begin with, one
for each terminal, and one for being nullable. -/
def chainLimit (g : Grammar) : Nat := g.nonterminals.length * (g.terminals.length + 2) + 1

/-- The buckets of the chains to a nonterminal, unless it derives itself. -/
def chainsTo (g : Grammar) (nullable : NonterminalSet) (firsts : List TerminalSet)
    (target : NonterminalId) : Except CyclicDerivation ChainBuckets :=
  let chain := RuleChain.empty target
  match g.searchChains nullable firsts g.chainLimit [chain]
      (OrderedMap.insert ∅ target (ChainBucket.empty.add chain)) with
  | some buckets => .ok buckets
  | none => .error ⟨target, g.nonterminalName target⟩

end Grammar

end OperatorLALR
