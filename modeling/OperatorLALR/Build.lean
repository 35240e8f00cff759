import OperatorLALR.Grammar.Usage
import OperatorLALR.ParseTable.Generated
import OperatorLALR.Diagnostic

/-!
# From grammars to tables

The table of a grammar is built in stages: analysis, automaton, lookahead sets, table. Symbols
without use and conflicts that were settled are reported as warnings, and what ends the
construction as an error.
-/

namespace OperatorLALR

/-- Why a grammar has no table. -/
inductive BuildError where
  | analysis (cause : CyclicDerivation)
  | table (cause : TableError)
  deriving DecidableEq, Repr

/-- The wording of an error. -/
def BuildError.message : BuildError → String
  | .analysis cause => "grammar analysis failed: " ++ cause.message
  | .table cause => "table construction failed: " ++ cause.message

namespace Grammar

/-- The warnings for symbols without use. -/
def usageWarnings (g : Grammar) : List Diagnostic :=
  (g.terminalsWithoutUse.map fun t => .warning s!"unused terminal `{g.terminalName t}'") ++
  g.nonterminalsWithoutUse.map fun n =>
    .warning s!"unreachable nonterminal `{g.nonterminalName n}'"

/-- The conflicts of a table that were not left to the parser by design. -/
def reportedConflicts (table : GeneratedTable) : List Conflict :=
  table.conflicts.filter fun c => !c.isLeftToParser

/-- The error of more conflicts than are tolerated. -/
def conflictExcess? (options : BuildOptions) (count : Nat) : Option TableError :=
  match options.maxConflicts with
  | some max => if max < count then some (.tooManyConflicts count max) else none
  | none => none

/-- The diagnostics of the construction of a table, and the table. -/
def build (g : Grammar) (options : BuildOptions) :
    List Diagnostic × Except BuildError GeneratedTable :=
  match g.analyse with
  | .error e => (g.usageWarnings ++ [.error e.message], .error (.analysis e))
  | .ok a =>
    let m := g.automaton a
    match m.generate g (m.lookaheadSets g a) options with
    | .error e => (g.usageWarnings, .error (.table e))
    | .ok table =>
      let conflicts := reportedConflicts table
      let warnings := g.usageWarnings ++ conflicts.map fun c => .warning (c.text g)
      match conflictExcess? options conflicts.length with
      | some e => (warnings ++ [.error e.message], .error (.table e))
      | none => (warnings, .ok table)

end Grammar

end OperatorLALR
