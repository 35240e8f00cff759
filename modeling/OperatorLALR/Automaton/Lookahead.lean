import OperatorLALR.Automaton.Predecessors

/-!
# Lookahead sets

The follow set of a nonterminal in a state holds the terminals that may come once the nonterminal
has been reduced there. It is derived from the kernel items of the state and the rule chains to the
nonterminal, and it refers to the follow sets of the predecessors, so it is iterated until nothing
changes. A reduction by a rule then has as its lookahead set the follow sets of its head in the
predecessors of its item.
-/

namespace OperatorLALR

/-- The follow sets of each state. -/
abbrev FollowSets := Array (OrderedMap NonterminalId TerminalSet)

/-- The follow set of a nonterminal in a state, if the state can reduce to it. -/
def FollowSets.get? (follows : FollowSets) (q : StateId) (n : NonterminalId) :
    Option TerminalSet :=
  (follows[q.val]?).bind fun row => row.find? n

/-- The union of a list of sets. -/
def TerminalSet.unionAll (sets : List TerminalSet) : TerminalSet := sets.foldl (· ∪ ·) ∅

/-- What may come once the rule of an item has been reduced: the end of the input for the rule of
the augmented start symbol, and else what follows its head in the predecessors of the item. -/
def Automaton.afterRule (m : Automaton) (g : Grammar) (follows : FollowSets) (q : StateId)
    (item : Item) (place : Nat) : TerminalSet :=
  if item.rule = acceptRule then .ofList [endOfInput]
  else .unionAll ((m.predsAt q place).toList.filterMap fun p => follows.get? p (g.left item.rule))

/-- The terminals that a kernel item lets follow the target of some rule chains: those behind the
target on the chains, then those behind the leading symbol in the item, then those behind the rule
of the item. -/
def Grammar.followedBy (g : Grammar) (a : Analysis) (item : Item) (outer : TerminalSet)
    (bucket : ChainBucket) : TerminalSet :=
  let rest := item.rest g
  let inner := if a.vanishes rest then a.firstTerminals rest ∪ outer else a.firstTerminals rest
  if bucket.nullable then bucket.first ∪ inner else bucket.first

namespace Automaton

variable (m : Automaton) (g : Grammar) (a : Analysis)

/-- The follow sets with what a kernel item adds to them. -/
def addFollows (q : StateId) (follows : FollowSets) (item : Item) (place : Nat) : FollowSets :=
  match item.next? g with
  | some (.nonterminal n) =>
    let outer := m.afterRule g follows q item place
    follows.modify q.val fun row =>
      (a.chainsFrom n).foldl
        (fun row (target, bucket) =>
          row.update target fun set => set.getD ∅ ∪ g.followedBy a item outer bucket)
        row
  | _ => follows

/-- The follow sets with what each kernel item of each state adds to them. -/
def extendFollows (follows : FollowSets) : FollowSets :=
  m.numbered.foldl
    (fun follows (q, s) =>
      s.kernel.zipIdx.foldl (fun follows (item, place) => m.addFollows g a q follows item place)
        follows)
    follows

/-- The follow sets closed under the kernel items. No state has more of them than there are
nonterminals, and none holds more than all terminals. -/
def followSets : FollowSets :=
  stabilize (m.extendFollows g a)
    (m.states.size * (g.nonterminals.length * (g.terminals.length + 1)) + 1)
    (m.states.map fun _ => ∅)

end Automaton

/-- The lookahead sets of the reductions of an automaton. -/
structure LookaheadSets where
  follows : FollowSets
  /-- For each state the rules that can be reduced there, with their lookahead sets. -/
  reduces : Array (OrderedMap RuleId TerminalSet)
  deriving DecidableEq, Repr

/-- The lookahead sets of an automaton. -/
def Automaton.lookaheadSets (m : Automaton) (g : Grammar) (a : Analysis) : LookaheadSets :=
  let follows := m.followSets g a
  let reduces := m.numbered.map fun (q, s) =>
    .ofList <| s.completeItems.map fun (place, item) =>
      (item.rule, m.afterRule g follows q item place)
  ⟨follows, reduces.toArray⟩

namespace LookaheadSets

/-- The lookahead set of the reduction by a rule in a state. -/
def get? (l : LookaheadSets) (q : StateId) (r : RuleId) : Option TerminalSet :=
  (l.reduces[q.val]?).bind fun row => row.find? r

/-- The follow set of a nonterminal in a state, if the state can reduce to it. -/
def followSet? (l : LookaheadSets) (q : StateId) (n : NonterminalId) : Option TerminalSet :=
  l.follows.get? q n

end LookaheadSets

end OperatorLALR
