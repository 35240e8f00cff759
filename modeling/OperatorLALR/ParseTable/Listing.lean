import OperatorLALR.Automaton.Listing
import OperatorLALR.ParseTable.Generated

/-!
# The listing of a generated table

Each state is listed with its actions and its transitions across nonterminals in the order of
names; lists of candidates and conflicts follow where there are any.
-/

namespace OperatorLALR

/-- The action as the listing of a table shows it. -/
def Action.lineText (a : Action) (g : Grammar) : String :=
  match a with
  | .shift next => s!"shift({next.text})"
  | .reduce r => s!"reduce({g.ruleText r})"
  | .accept => "accept"
  | .dynamic d => s!"dynamic({d.text})"
  | .choice d => s!"choice({d.text})"
  | .error => "error"

namespace GeneratedTable

/-- The listing of the row of a state. -/
def rowText (g : Grammar) (q : StateId) (row : TableRow) : String :=
  let actions := sortBy (fun a b => g.symbolOrder (.terminal a.1) (.terminal b.1))
    row.actions.entries
  let gotos := sortBy (fun a b => g.symbolOrder (.nonterminal a.1) (.nonterminal b.1))
    row.gotos.entries
  Text.lines <|
    [s!"#### State {q.text}", "## actions"] ++
    (actions.map fun (t, a) => s!"- {g.terminalName t} => {a.lineText g}") ++
    ["## gotos"] ++
    gotos.map fun (n, next) => s!"- {g.nonterminalName n} => goto({next.text})"

/-- The line of a list of candidates. -/
def candidatesLine (list : List Action) (place : Nat) : String :=
  let d : CandidatesId := ⟨place⟩
  s!"- {d.text} => {Text.bracketed (list.map Action.text)}"

/-- The listing of a table. -/
def text (table : GeneratedTable) (g : Grammar) : String :=
  let rows := "\n".intercalate (table.numbered.map fun (q, row) => rowText g q row)
  let candidates :=
    if table.candidates.isEmpty then []
    else "\n#### Candidates" :: table.candidates.zipIdx.map fun (list, i) => candidatesLine list i
  let conflicts :=
    if table.conflicts.isEmpty then []
    else "\n#### Conflicts" :: table.conflicts.map fun c => "- " ++ c.text g
  rows ++ Text.lines (candidates ++ conflicts)

end GeneratedTable

end OperatorLALR
