import OperatorLALR.Grammar.Basic
import OperatorLALR.ParseTable.Basic

/-!
# Conflicts

A conflict is met where a state leaves more than one action on a terminal. How conflicts are
settled is configured by two policies; where operators are involved, the decision is left to the
parser.
-/

namespace OperatorLALR

/-- How a conflict of a shift with reductions is settled where precedences do not decide. -/
inductive ShiftPolicy where
  | preferShift
  /-- Let the parser try every action in turn. -/
  | tryAll
  deriving DecidableEq, Repr

/-- How a conflict among reductions is settled. -/
inductive ReducePolicy where
  /-- Reduce by the rule declared first. -/
  | earliestRule
  /-- Let the parser try every reduction in turn. -/
  | tryAll
  deriving DecidableEq, Repr

/-- How tables are built. -/
structure BuildOptions where
  shiftPolicy : ShiftPolicy
  reducePolicy : ReducePolicy
  /-- The number of reported conflicts that are tolerated, if there is a limit. -/
  maxConflicts : Option Nat
  deriving DecidableEq, Repr

/-- Prefer shifts and earlier rules, and tolerate any number of conflicts. -/
def BuildOptions.default : BuildOptions := ⟨.preferShift, .earliestRule, none⟩

/-- Why a conflict is on record. -/
inductive ConflictCause where
  /-- One of the competing actions has no precedence. -/
  | missingPrecedence
  /-- Equal priorities come with different associativities. -/
  | associativityMismatch
  /-- The reductions compare differently with the shift. -/
  | inconsistentShiftResolution
  /-- There are several reductions and no shift. -/
  | multipleReductions
  /-- The decision depends on operators that are known only when parsing. -/
  | dynamicOperator
  deriving DecidableEq, Repr

/-- The name of a cause in reports. -/
def ConflictCause.text : ConflictCause → String
  | .missingPrecedence => "MissingPrecedence"
  | .associativityMismatch => "AssociativityMismatch"
  | .inconsistentShiftResolution => "InconsistentShiftResolution"
  | .multipleReductions => "MultipleReductions"
  | .dynamicOperator => "DynamicOperator"

/-- A conflict and the action it was settled by. -/
structure Conflict where
  state : StateId
  terminal : TerminalId
  shift : Option StateId
  reduces : List RuleId
  cause : ConflictCause
  resolution : Action
  deriving DecidableEq, Repr

namespace Conflict

/-- Whether the decision is left to the parser by design. -/
def isLeftToParser (c : Conflict) : Bool := c.cause == .dynamicOperator

/-- The conflict as reports show it. -/
def text (c : Conflict) (g : Grammar) : String :=
  let shift := match c.shift with
    | some next => s!" shift({next.text})"
    | none => ""
  let reduces := String.join (c.reduces.map fun r => s!" reduce({g.ruleText r})")
  s!"{c.cause.text} conflict in {c.state.text} on `{g.terminalName c.terminal}':" ++
    shift ++ reduces ++ " => " ++ c.resolution.text

end Conflict

end OperatorLALR
