/-!
# Dense indices

Terminals, nonterminals, rules, states and candidate lists are numbered from 0, each kind on its
own. An index carries its kind in its type, so that a number of one kind is never used as one of
another. Index 0 is reserved in three kinds: the end of the input among the terminals, the
augmented start symbol among the nonterminals, and the rule of that symbol among the rules.
-/

namespace OperatorLALR

/-- The kinds of objects that are numbered. -/
inductive IndexKind where
  | terminal
  | nonterminal
  | rule
  | state
  | candidates
  deriving DecidableEq, Repr

/-- The letter that marks the kind in reports. -/
def IndexKind.letter : IndexKind → String
  | .terminal => "T"
  | .nonterminal => "N"
  | .rule => "R"
  | .state => "S"
  | .candidates => "D"

/-- The number of an object among those of its kind. -/
@[ext] structure Index (kind : IndexKind) where
  /-- The position in declaration order, from 0. -/
  val : Nat
  deriving DecidableEq, Repr

/-- The number of a terminal symbol. -/
abbrev TerminalId := Index .terminal

/-- The number of a nonterminal symbol. -/
abbrev NonterminalId := Index .nonterminal

/-- The number of a production rule. -/
abbrev RuleId := Index .rule

/-- The number of a state of the automaton. -/
abbrev StateId := Index .state

/-- The number of a list of candidate actions. -/
abbrev CandidatesId := Index .candidates

/-- The terminal that stands for the end of the input. -/
def endOfInput : TerminalId := ⟨0⟩

/-- The augmented start symbol. -/
def augmentedStart : NonterminalId := ⟨0⟩

/-- The rule of the augmented start symbol. -/
def acceptRule : RuleId := ⟨0⟩

namespace Index

variable {kind : IndexKind}

/-- Indices of one kind are ordered by their numbers. -/
instance : Ord (Index kind) := ⟨fun a b => compare a.val b.val⟩

/-- The text of an index: the letter of its kind and at least three digits. -/
def text (i : Index kind) : String :=
  let digits := toString i.val
  kind.letter ++ "#" ++ "".pushn '0' (3 - digits.length) ++ digits

/-- The indices below `n`, in ascending order. -/
def below (n : Nat) : List (Index kind) := (List.range n).map Index.mk

theorem mem_below {n : Nat} {i : Index kind} : i ∈ below n ↔ i.val < n := by
  cases i
  simp [below]

theorem length_below (n : Nat) : (below n : List (Index kind)).length = n := by
  simp [below]

theorem getElem?_below {n k : Nat} (h : k < n) :
    (below n : List (Index kind))[k]? = some ⟨k⟩ := by
  simp [below, h]

end Index

/-- A grammar symbol. -/
inductive Symbol where
  | terminal (t : TerminalId)
  | nonterminal (n : NonterminalId)
  deriving DecidableEq, Repr

/-- The terminal that a symbol is, if it is one. -/
def Symbol.terminal? : Symbol → Option TerminalId
  | .terminal t => some t
  | .nonterminal _ => none

/-- The nonterminal that a symbol is, if it is one. -/
def Symbol.nonterminal? : Symbol → Option NonterminalId
  | .terminal _ => none
  | .nonterminal n => some n

end OperatorLALR
