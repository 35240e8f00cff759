import OperatorLALR.ParseTable.Conflict

/-!
# Resolution of conflicts

What a table does in a state on a terminal is decided from the shift and the reductions that the
automaton has there. A single action stands. Several are left to the parser where operators are
involved, and are settled by precedences and policies elsewhere. `settle` gives the verdict and,
where one is due, the cause for a record of the conflict.
-/

namespace OperatorLALR

/-- The actions that an automaton has in a state on a terminal. -/
structure Competition where
  /-- The state that a shift leads to. -/
  shift : Option StateId
  /-- The rules of the items that are shifted. -/
  shiftRules : List RuleId
  /-- The rules that can be reduced. -/
  reduces : List RuleId
  deriving DecidableEq, Repr

/-- The actions as candidates: the shift, then the reductions. -/
def Competition.candidates (c : Competition) : List Action :=
  c.shift.toList.map .shift ++ c.reduces.map .reduce

/-- What a table is to do: a single action, or one of several candidates. -/
inductive Verdict where
  | action (a : Action)
  | dynamic (candidates : List Action)
  | choice (candidates : List Action)
  deriving DecidableEq, Repr

/-- Why no table can be built. -/
inductive TableError where
  | shiftAccept (state : StateId) (terminal : String)
  | reduceAccept (state : StateId) (terminal : String)
  | tooManyConflicts (count max : Nat)
  | tooManyCandidateLists (count : Nat)
  deriving DecidableEq, Repr

/-- The wording of an error. -/
def TableError.message : TableError → String
  | .shiftAccept state terminal =>
    s!"detected shift/accept conflict in {state.text} on `{terminal}'"
  | .reduceAccept state terminal =>
    s!"detected reduce/accept conflict in {state.text} on `{terminal}'"
  | .tooManyConflicts count max => s!"too many conflicts ({count} > {max})"
  | .tooManyCandidateLists count => s!"too many candidate lists ({count})"

/-- How the precedences of a shift and a reduction compare. -/
inductive Preference where
  | shift
  | reduce
  | neither
  deriving DecidableEq, Repr

/-- Compare the precedence of the terminal to shift with that of a rule to reduce. Of equal
priorities with different associativities the rule declared first decides, and the comparison is
marked as a mismatch. -/
def Precedence.prefers (shift reduce : Precedence) (rule : RuleId) (shiftRules : List RuleId) :
    Preference × Bool :=
  if reduce.priority < shift.priority then (.shift, false)
  else if shift.priority < reduce.priority then (.reduce, false)
  else if shift.assoc = reduce.assoc then
    match shift.assoc with
    | .left => (.reduce, false)
    | .right => (.shift, false)
    | .nonassoc => (.neither, false)
  else if !shiftRules.isEmpty && shiftRules.all fun other => rule.val < other.val then
    (.reduce, true)
  else (.shift, true)

/-- How the precedences settle a conflict of a shift with reductions. -/
inductive Comparison where
  /-- Nothing has been compared yet. -/
  | pending
  /-- All reductions compare the same way; the flag tells of a mismatch among them. -/
  | uniform (preference : Preference) (mismatch : Bool)
  /-- A precedence is missing. -/
  | missing
  /-- The reductions compare differently. -/
  | inconsistent
  deriving DecidableEq, Repr

/-- Add the next reduction to a comparison. The first missing precedence or difference ends it. -/
def Comparison.add (g : Grammar) (t : TerminalId) (shiftRules : List RuleId) :
    Comparison → RuleId → Comparison
  | .missing, _ => .missing
  | .inconsistent, _ => .inconsistent
  | soFar, r =>
    match g.terminalPrecedence t, g.rulePrecedence r with
    | some shift, some reduce =>
      let (preference, mismatch) := shift.prefers reduce r shiftRules
      match soFar with
      | .uniform p m => if p = preference then .uniform p (m || mismatch) else .inconsistent
      | _ => .uniform preference mismatch
    | _, _ => .missing

/-- Compare a shift on a terminal with reductions. -/
def Grammar.compareReductions (g : Grammar) (t : TerminalId) (shiftRules reduces : List RuleId) :
    Comparison :=
  reduces.foldl (Comparison.add g t shiftRules) .pending

/-- Whether operators that are known only when parsing decide between the actions. -/
def Grammar.isDynamic (g : Grammar) (t : TerminalId) (reduces : List RuleId) : Bool :=
  g.isOperatorTerminal t || reduces.any fun r => (g.governingPlace r).isSome

/-- The verdict of the policy on a conflict of a shift with reductions. -/
def BuildOptions.shiftVerdict (options : BuildOptions) (next : StateId) (c : Competition) :
    Verdict :=
  match options.shiftPolicy with
  | .preferShift => .action (.shift next)
  | .tryAll => .choice c.candidates

/-- The verdict of the policy on a conflict among reductions, of which `first` comes first. -/
def BuildOptions.reduceVerdict (options : BuildOptions) (first : RuleId) (c : Competition) :
    Verdict :=
  match options.reducePolicy with
  | .earliestRule => .action (.reduce first)
  | .tryAll => .choice c.candidates

/-- Settle a conflict of a shift with reductions by precedences, and by the policy where these do
not decide. -/
def Grammar.settleShiftReduce (g : Grammar) (options : BuildOptions) (t : TerminalId)
    (next : StateId) (c : Competition) : Verdict × Option ConflictCause :=
  let policy := options.shiftVerdict next c
  let cause := fun mismatch =>
    if mismatch = true then some ConflictCause.associativityMismatch else none
  match g.compareReductions t c.shiftRules c.reduces with
  | .missing => (policy, some .missingPrecedence)
  | .uniform .shift mismatch => (.action (.shift next), cause mismatch)
  | .uniform .neither mismatch => (.action .error, cause mismatch)
  | .uniform .reduce mismatch =>
    match c.reduces with
    | [r] => (.action (.reduce r), cause mismatch)
    | _ => (policy, some .inconsistentShiftResolution)
  | _ => (policy, some .inconsistentShiftResolution)

/-- Settle what a table does in a state on a terminal. -/
def Grammar.settle (g : Grammar) (options : BuildOptions) (q : StateId) (t : TerminalId)
    (c : Competition) : Except TableError (Verdict × Option ConflictCause) :=
  match c.shift, c.reduces with
  | some next, [] => .ok (.action (.shift next), none)
  | none, [] => .ok (.action .error, none)
  | none, [r] => .ok (.action (if r = acceptRule then .accept else .reduce r), none)
  | shift, first :: others =>
    if acceptRule ∈ first :: others then
      match shift with
      | some _ => .error (.shiftAccept q (g.terminalName t))
      | none => .error (.reduceAccept q (g.terminalName t))
    else if g.isDynamic t c.reduces then
      let candidates := c.candidates
      let verdict := if candidates.length ≤ 2 then .dynamic candidates else .choice candidates
      .ok (verdict, some .dynamicOperator)
    else
      match shift with
      | some next => .ok (g.settleShiftReduce options t next c)
      | none => .ok (options.reduceVerdict first c, some .multipleReductions)

end OperatorLALR
