import OperatorLALR.Automaton.Item

/-!
# The automaton of item sets

The states of the automaton are the item sets that are reached from the initial one, numbered in
the order of their discovery. Numbers of states have 16 bits: a state beyond the last number takes
the number, and the place, of an earlier one.
-/

namespace OperatorLALR

/-- The items of a state with the same symbol behind the dot, and where it leads. -/
structure Transition where
  /-- The symbol behind the dots, none for the items with the dot at the end. -/
  marker : Option Symbol
  /-- The places of the items in the state. -/
  items : List Nat
  /-- The state behind the symbol. -/
  next : Option StateId
  deriving DecidableEq, Repr

/-- A state of the automaton. -/
structure State where
  /-- The items, those of the kernel first. -/
  items : List Item
  /-- The number of items of the kernel. -/
  kernelSize : Nat
  transitions : List Transition
  deriving DecidableEq, Repr

namespace State

/-- The items from which the state is closed. -/
def kernel (s : State) : Kernel := s.items.take s.kernelSize

/-- The transitions across terminals. -/
def shifts (s : State) : List (TerminalId × StateId) :=
  s.transitions.filterMap fun t =>
    match t.marker, t.next with
    | some (.terminal symbol), some next => some (symbol, next)
    | _, _ => none

/-- The transitions across nonterminals. -/
def gotos (s : State) : List (NonterminalId × StateId) :=
  s.transitions.filterMap fun t =>
    match t.marker, t.next with
    | some (.nonterminal symbol), some next => some (symbol, next)
    | _, _ => none

/-- The places of the items with the dot at the end. -/
def completePlaces (s : State) : List Nat :=
  (s.transitions.filter fun t => t.marker.isNone).flatMap Transition.items

/-- The items with the dot at the end and their places. -/
def completeItems (s : State) : List (Nat × Item) :=
  s.completePlaces.filterMap fun place => s.items[place]?.map fun item => (place, item)

end State

/-- The number of different state numbers. -/
def stateNumbers : Nat := 65536

/-- The number of the state that was discovered at a place, counting from 0. -/
def StateId.ofPlace (place : Nat) : StateId := ⟨place % stateNumbers⟩

/-- The states by their numbers, given those in the order of discovery: a later state with the
number of an earlier one takes its place. -/
def numberStates (discovered : List State) : Array State :=
  (discovered.drop stateNumbers).zipIdx.foldl
    (fun states (s, i) => states.setIfInBounds (i % stateNumbers) s)
    (discovered.take stateNumbers).toArray

/-- The sets of predecessors of the items, by states and places. -/
abbrev Predecessors := Array (List StateSet)

/-- The automaton of a grammar. -/
structure Automaton where
  /-- The states by their numbers. -/
  states : Array State
  /-- For each item the states from which a walk over the symbols before its dot leads here. -/
  preds : Predecessors
  deriving DecidableEq, Repr

namespace Grammar

variable (g : Grammar) (a : Analysis)

/-- The transition across a marker. The numbering of the kernels gives the state behind it. -/
def transition (kernels : Numbering Kernel) (items : List Item) (marker : Option Symbol) :
    Transition where
  marker := marker
  items := g.placesOf items marker
  next := marker.map fun symbol =>
    .ofPlace ((kernels.number? (g.kernelAfter items symbol)).getD kernels.items.size)

/-- The state with a kernel, given the numbering of the kernels. -/
def stateOf (kernels : Numbering Kernel) (kernel : Kernel) : State :=
  let items := g.itemsOf a kernel
  { items := items
    kernelSize := kernel.length
    transitions := (g.markersOf items).map (g.transition kernels items) }

/-- The states of the automaton. -/
def states : Array State :=
  let kernels := g.kernels a
  numberStates (kernels.toList.map (g.stateOf a kernels))

end Grammar

namespace Automaton

/-- The state with a number. -/
def state? (m : Automaton) (q : StateId) : Option State := m.states[q.val]?

/-- The numbers of the states. -/
def stateIds (m : Automaton) : List StateId := Index.below m.states.size

/-- The states with their numbers. -/
def numbered (m : Automaton) : List (StateId × State) := m.stateIds.zip m.states.toList

/-- The predecessors of the item at a place of a state. -/
def predsAt (m : Automaton) (q : StateId) (place : Nat) : StateSet :=
  ((m.preds[q.val]?).bind (·[place]?)).getD ∅

end Automaton

end OperatorLALR
