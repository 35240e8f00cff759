/-!
# Layout of listings and descriptions

How several texts stand together: one below the other, between brackets, or as the named fields
of a record.
-/

namespace OperatorLALR.Text

/-- Each text on a line of its own. -/
def lines (texts : List String) : String := String.join (texts.map (· ++ "\n"))

/-- Texts between square brackets, separated by commas. -/
def bracketed (texts : List String) : String := "[" ++ ", ".intercalate texts ++ "]"

/-- Names with their values, separated by commas. -/
def fields (values : List (String × String)) : String :=
  ", ".intercalate (values.map fun (name, value) => name ++ ": " ++ value)

/-- A record with its fields between braces. -/
def record (name : String) (values : List (String × String)) : String :=
  name ++ " \x7b " ++ fields values ++ " \x7d"

/-- A record of which some fields are not shown. -/
def openRecord (name : String) (values : List (String × String)) : String :=
  name ++ " \x7b " ++ fields values ++ ", .. \x7d"

/-- A value that may be absent. -/
def optional : Option String → String
  | none => "None"
  | some value => s!"Some({value})"

end OperatorLALR.Text
