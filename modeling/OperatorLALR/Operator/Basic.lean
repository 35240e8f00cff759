import OperatorLALR.Index
import OperatorLALR.Operator.Specifier
import OperatorLALR.Text.NameOrder

/-!
# Operators

An operator is a name with a specifier and a priority in a category of the grammar. A smaller
priority binds tighter. The parser reads an operator as the terminal that stands for all operators
of its category and fixity.
-/

namespace OperatorLALR

/-- An operator definition. -/
structure Operator where
  /-- The name under which tokens denote the operator. -/
  name : String
  /-- The nonterminal whose phrases the operator combines. -/
  category : NonterminalId
  /-- The name of that nonterminal. -/
  categoryName : String
  /-- The places and bounds of the arguments. -/
  specifier : Specifier
  /-- How tightly the operator binds; zero stands for the removal of a definition. -/
  priority : Nat
  /-- The terminal the operator is read as. -/
  terminal : TerminalId
  deriving DecidableEq, Repr

/-- Why an operator cannot be defined. -/
inductive OperatorError where
  | badSpecifier (text : String)
  | priorityOutOfRange (priority : Nat)
  | missingTerminal (category : NonterminalId) (fixity : Fixity)
  deriving DecidableEq, Repr

/-- The largest priority of an operator. -/
def maxPriority : Nat := 1200

/-- The wording of an error. -/
def OperatorError.message : OperatorError → String
  | .badSpecifier text => s!"bad operator specifier: `{text}'"
  | .priorityOutOfRange priority =>
    s!"operator priority {priority} is out of range (0..={maxPriority})"
  | .missingTerminal category fixity =>
    s!"the grammar has no {fixity.text} operators for category {category.text}"

/-- Read a specifier, or say that there is none of this name. -/
def Specifier.parse (text : String) : Except OperatorError Specifier :=
  match Specifier.ofName? text with
  | some spec => .ok spec
  | none => .error (.badSpecifier text)

/-- Where an operator stands among its arguments. -/
def Operator.fixity (op : Operator) : Fixity := op.specifier.fixity

/-- The order of operators: by category name, priority and name without regard to case, then by
the code points of the name, the category and the fixity. -/
def Text.Folding.operatorOrder (folding : Text.Folding) (a b : Operator) : Ordering :=
  (folding.caselessOrder a.categoryName.toList b.categoryName.toList).then <|
  (compare a.priority b.priority).then <|
  (folding.caselessOrder a.name.toList b.name.toList).then <|
  (Text.codePointOrder a.name b.name).then <|
  (compare a.category b.category).then <|
  compare a.fixity.rank b.fixity.rank

namespace Operator

/-- The operator, unless its priority is out of range. -/
def checked (op : Operator) : Except OperatorError Operator :=
  if maxPriority < op.priority then .error (.priorityOutOfRange op.priority) else .ok op

/-- The largest priority accepted for the left argument, if there is one. -/
def leftLimit (op : Operator) : Option Nat :=
  op.specifier.leftArgument.map fun bound => bound.maxPriority op.priority

/-- The largest priority accepted for the right argument, if there is one. -/
def rightLimit (op : Operator) : Option Nat :=
  op.specifier.rightArgument.map fun bound => bound.maxPriority op.priority

/-- The operator as reports show it, such as `op(500, yfx, +) in expr`. -/
def text (op : Operator) : String :=
  s!"op({op.priority}, {op.specifier.name}, {op.name}) in {op.categoryName}"

/-- The order of operators under the Unicode rules. -/
def compare (a b : Operator) : Ordering := Text.unicode.operatorOrder a b

/-- Whether an operator takes the place of another one with its name: same category and fixity. -/
def replaces (a b : Operator) : Bool := a.category == b.category && a.fixity == b.fixity

/-- Whether two operators compete for one place: same name, category and fixity. -/
def SameSlot (a b : Operator) : Prop :=
  a.name = b.name ∧ a.category = b.category ∧ a.fixity = b.fixity

instance (a b : Operator) : Decidable (a.SameSlot b) :=
  inferInstanceAs (Decidable (_ ∧ _ ∧ _))

theorem replaces_iff {a b : Operator} :
    a.replaces b = true ↔ a.category = b.category ∧ a.fixity = b.fixity := by
  rw [replaces, Bool.and_eq_true, beq_iff_eq, beq_iff_eq]

theorem replaces_comm (a b : Operator) : a.replaces b = b.replaces a := by
  rw [replaces, replaces, Bool.beq_comm, Bool.beq_comm (a := a.fixity)]

end Operator

end OperatorLALR
