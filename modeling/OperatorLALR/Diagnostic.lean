/-!
# Diagnostics

What building a table has to say besides its result: errors, warnings and deprecations, kept in
the order in which they were reported.
-/

namespace OperatorLALR

/-- A message for the author of a grammar. -/
inductive Diagnostic where
  | error (message : String)
  | warning (message : String)
  | deprecation (message : String)
  deriving DecidableEq, Repr

namespace Diagnostic

/-- The message of an error. -/
def error? : Diagnostic → Option String
  | .error message => some message
  | _ => none

/-- The message of a warning. -/
def warning? : Diagnostic → Option String
  | .warning message => some message
  | _ => none

/-- The message of a deprecation. -/
def deprecation? : Diagnostic → Option String
  | .deprecation message => some message
  | _ => none

end Diagnostic

/-- The diagnostics reported so far. -/
structure Log where
  /-- All diagnostics, the earliest first. -/
  messages : List Diagnostic
  deriving DecidableEq, Repr

namespace Log

/-- The log without diagnostics. -/
def empty : Log := ⟨[]⟩

/-- The log with one more diagnostic. -/
def report (log : Log) (d : Diagnostic) : Log := ⟨log.messages ++ [d]⟩

/-- Whether nothing has been reported. -/
def isEmpty (log : Log) : Bool := log.messages.isEmpty

/-- The messages of the errors. -/
def errors (log : Log) : List String := log.messages.filterMap Diagnostic.error?

/-- The messages of the warnings. -/
def warnings (log : Log) : List String := log.messages.filterMap Diagnostic.warning?

/-- The messages of the deprecations. -/
def deprecations (log : Log) : List String := log.messages.filterMap Diagnostic.deprecation?

/-- A count with its noun in the singular or plural. -/
def counted (n : Nat) (noun : String) : String :=
  toString n ++ " " ++ noun ++ (if n = 1 then "" else "s")

/-- The counts by kind, such as `1 error, 2 warnings`; deprecations only if there are any. -/
def summary (log : Log) : String :=
  let deprecations := log.deprecations.length
  counted log.errors.length "error" ++ ", " ++ counted log.warnings.length "warning" ++
    (if deprecations = 0 then "" else ", " ++ counted deprecations "deprecation")

end Log

end OperatorLALR
