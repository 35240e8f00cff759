import OperatorLALR.Automaton.Lookahead
import OperatorLALR.Grammar.Listing

/-!
# The listing of an automaton

Each state is listed with its items, their predecessors, and its transitions, and each reduction
with its lookahead set.
-/

namespace OperatorLALR

namespace Automaton

/-- The line of the item at a place: kernel items are starred. -/
def itemLine (m : Automaton) (g : Grammar) (q : StateId) (s : State) (item : Item)
    (place : Nat) : String :=
  let mark := if place < s.kernelSize then "*" else "-"
  let preds := Text.bracketed ((m.predsAt q place).toList.map Index.text)
  s!"{mark} {item.text g} preds={preds}"

/-- The line of a transition. -/
def transitionLine (g : Grammar) (t : Transition) : String :=
  match t.marker, t.next with
  | some symbol, some next => s!"- {g.symbolName symbol} => {next.text}"
  | _, _ => "- (reduce) " ++ Text.bracketed (t.items.map toString)

/-- The listing of a state. -/
def stateText (m : Automaton) (g : Grammar) (q : StateId) (s : State) : String :=
  Text.lines <|
    [s!"#### State {q.text}", "## items:"] ++
    (s.items.zipIdx.map fun (item, place) => m.itemLine g q s item place) ++
    ["## transitions:"] ++ s.transitions.map (transitionLine g)

/-- The listing of an automaton. -/
def text (m : Automaton) (g : Grammar) : String :=
  "\n".intercalate (m.numbered.map fun (q, s) => m.stateText g q s)

end Automaton

/-- The listing of lookahead sets. -/
def LookaheadSets.text (l : LookaheadSets) (g : Grammar) : String :=
  Text.lines <| l.reduces.toList.zipIdx.flatMap fun (row, q) =>
    let state : StateId := ⟨q⟩
    row.entries.map fun (r, set) =>
      let names := Text.bracketed (set.toList.map g.terminalName)
      s!"- {state.text}: {g.ruleText r} on {names}"

end OperatorLALR
