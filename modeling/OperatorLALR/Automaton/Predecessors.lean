import OperatorLALR.Automaton.Basic
import OperatorLALR.FixedPoint

/-!
# Predecessors of items

A state is its own predecessor for each of its items with the dot in front. Across a transition
an item hands its predecessors on to the item with the dot one symbol further. The sets of an
automaton are closed under both rules.
-/

namespace OperatorLALR

/-- No predecessors for any item of the states. -/
def noPredecessors (states : Array State) : Predecessors :=
  states.map fun s => s.items.map fun _ => ∅

/-- The predecessors of an item of a state, with the state added if the dot is in front. -/
def addOwnState (q : StateId) (item : Item) (set : StateSet) : StateSet :=
  if item.dot = 0 then set.insert q else set

/-- What the items of a state hand on, given their predecessors: the state behind the transition,
the item there, and the predecessors. -/
def State.handsOn (s : State) (sets : List StateSet) : List (StateId × Item × StateSet) :=
  s.transitions.flatMap fun t =>
    match t.next with
    | none => []
    | some next =>
      t.items.filterMap fun place =>
        match s.items[place]?, sets[place]? with
        | some item, some set => some (next, item.advance, set)
        | _, _ => none

/-- The sets after an item of a kernel has received further predecessors. -/
def receive (states : Array State) (preds : Predecessors) :
    StateId × Item × StateSet → Predecessors
  | (q, item, set) =>
    match (states[q.val]?).bind fun s => s.kernel.idxOf? item with
    | some place => preds.modify q.val fun sets => sets.modify place (· ∪ set)
    | none => preds

/-- The sets with each state added for its items with the dot in front. -/
def addOwnStates (states : Array State) (preds : Predecessors) : Predecessors :=
  preds.mapIdx fun q sets =>
    match states[q]? with
    | some s => List.zipWith (addOwnState ⟨q⟩) s.items sets
    | none => sets

/-- What the items of all states hand on, given their predecessors. -/
def handovers (states : Array State) (preds : Predecessors) : List (StateId × Item × StateSet) :=
  states.toList.zipIdx.flatMap fun (s, q) => s.handsOn ((preds[q]?).getD [])

/-- One round of both rules over all states. What is handed on is read off before any of it is
received. -/
def extendPredecessors (states : Array State) (preds : Predecessors) : Predecessors :=
  let own := addOwnStates states preds
  (handovers states own).foldl (receive states) own

/-- The number of items of some states. -/
def totalItems (states : Array State) : Nat := states.foldl (fun n s => n + s.items.length) 0

/-- The sets closed under both rules. Each of them holds at most all states. -/
def predecessors (states : Array State) : Predecessors :=
  stabilize (extendPredecessors states) (totalItems states * states.size + 1)
    (noPredecessors states)

/-- The automaton of a grammar with its predecessor sets. -/
def Grammar.automaton (g : Grammar) (a : Analysis) : Automaton :=
  let states := g.states a
  ⟨states, predecessors states⟩

namespace Automaton

/-- The automaton after one more round. -/
def extend (m : Automaton) : Automaton := { m with preds := extendPredecessors m.states m.preds }

/-- Whether one more round would change anything. -/
def isUnsettled (m : Automaton) : Bool := m.extend.preds != m.preds

end Automaton

end OperatorLALR
