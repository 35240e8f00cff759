import OperatorLALR.Parser.Basic

/-!
# Outcomes of a parse

A parse ends with a node or with an error. Apart from the rejection of an input, errors come from
the source of the tokens, from the maker of nodes, from the limit on choice points, or from a table
that no grammar gives.
-/

namespace OperatorLALR

/-- Why a parse ends without a node. -/
inductive ParseError (ε β : Type) where
  /-- The source failed to give a token. -/
  | source (cause : ε)
  /-- The maker of nodes failed. -/
  | maker (cause : β)
  /-- Every way was tried; the first of the farthest dead ends is shown. -/
  | rejected (position : Nat) (lookahead : TerminalId) (expected : List TerminalId)
  | choiceLimit (depth : Nat)
  | unexpectedEnd
  | emptyStack
  | missingGoto (state : StateId) (n : NonterminalId)
  | unknownRule (r : RuleId)
  | unknownCandidates (d : CandidatesId)
  | unexpectedItem
  deriving DecidableEq, Repr

namespace ParseError

/-- Whether the input itself is at fault. -/
def isRejection {ε β : Type} : ParseError ε β → Bool
  | .rejected _ _ _ => true
  | _ => false

/-- The wording of an error. -/
def message : ParseError String String → String
  | .source cause => "from lexer: " ++ cause
  | .maker cause => "from node builder: " ++ cause
  | .rejected position lookahead _ =>
    s!"rejected the input at token {position} (lookahead {lookahead.text})"
  | .choiceLimit depth => s!"exceeded the maximum number of pending choice points ({depth})"
  | .unexpectedEnd => "unexpected EOI"
  | .emptyStack => "empty parser stack"
  | .missingGoto state n => s!"missing goto from {state.text} on {n.text}"
  | .unknownRule r => s!"unknown rule {r.text}"
  | .unknownCandidates d => s!"unknown candidate list {d.text}"
  | .unexpectedItem => "unexpected item on the parser stack"

end ParseError

/-- What a part of a step gives. -/
inductive Attempt (τ ν ε β σ : Type) where
  /-- The part has been carried out. -/
  | done (m : Machine τ ν ε σ)
  /-- The part cannot be carried out here. -/
  | refused (m : Machine τ ν ε σ)
  /-- The parse ends with an error. -/
  | failed (e : ParseError ε β) (m : Machine τ ν ε σ)

/-- What a step of a parse gives. -/
inductive StepResult (τ ν ε β σ : Type) where
  /-- The parse goes on. -/
  | next (m : Machine τ ν ε σ)
  /-- The parse ends. -/
  | halt (result : Except (ParseError ε β) ν) (m : Machine τ ν ε σ)

end OperatorLALR
