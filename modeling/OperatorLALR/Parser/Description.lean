import OperatorLALR.Parser.Basic
import OperatorLALR.Text.Layout
import OperatorLALR.Text.Quoted

/-!
# Descriptions of parsers and tokens

A one-line description of a parser and its machine for debugging: records are written with the
names of their fields between braces.
-/

namespace OperatorLALR

/-- A fixity as descriptions name it. -/
def Fixity.label : Fixity → String
  | .prefixOp => "Prefix"
  | .infixOp => "Infix"
  | .postfixOp => "Postfix"

/-- An associativity as descriptions name it. -/
def Assoc.label : Assoc → String
  | .left => "Left"
  | .right => "Right"
  | .nonassoc => "Nonassoc"

/-- The description of a specifier. -/
def Specifier.description (s : Specifier) : String :=
  Text.record "Specifier" [("fixity", s.fixity.label), ("assoc", s.assoc.label)]

/-- The description of an operator. -/
def Operator.description (op : Operator) : String :=
  Text.record "Operator"
    [ ("name", Text.quoted op.name),
      ("category", op.category.text),
      ("category_name", Text.quoted op.categoryName),
      ("specifier", op.specifier.description),
      ("priority", toString op.priority),
      ("terminal", op.terminal.text) ]

/-- The description of the bucket of a name. -/
def OperatorTable.bucketDescription (entry : String × List Operator) : String :=
  Text.quoted entry.1 ++ ": " ++ Text.bracketed (entry.2.map Operator.description)

/-- The description of an operator table. -/
def OperatorTable.description (table : OperatorTable) : String :=
  let buckets := ", ".intercalate (table.byName.entries.map bucketDescription)
  Text.record "OperatorTable" [("by_name", "\x7b" ++ buckets ++ "\x7d")]

/-- The description of the counters of a parse. -/
def ParseCounts.description (s : ParseCounts) : String :=
  Text.record "ParseStats"
    [ ("reductions", toString s.reductions),
      ("choice_points", toString s.choicePoints),
      ("backtracks", toString s.backtracks),
      ("undone_reductions", toString s.undoneReductions),
      ("max_choice_depth", toString s.maxChoiceDepth),
      ("choices_at_accept", toString s.choicesAtAccept),
      ("trail_at_accept", toString s.trailAtAccept) ]

variable {τ ν β ε σ : Type}

/-- The description of a parser whose last parse left a machine. -/
def Parser.description (p : Parser τ ν β σ) (m : Machine τ ν ε σ) : String :=
  Text.openRecord "Parser"
    [ ("operators", p.operators.description),
      ("config", Text.record "ParserConfig"
        [("max_choice_depth", Text.optional (p.maxChoiceDepth.map toString))]),
      ("stack_depth", toString m.stack.length),
      ("choice_depth", toString m.choices.length),
      ("trail_len", toString m.trail.length),
      ("position", toString m.position),
      ("stats", m.counts.description) ]

/-- The description of a token in its reading, given that of the token itself. -/
def TokenView.description (view : TokenView τ) (token : String) : String :=
  Text.record "DynamicToken"
    [ ("original", token),
      ("terminal", view.reading.terminal.text),
      ("operator", Text.optional (view.reading.operator.map fun op => Text.quoted op.name)),
      ("position", toString view.position) ]

end OperatorLALR
