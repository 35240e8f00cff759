import OperatorLALR.IndexSet
import OperatorLALR.Operator.Table
import OperatorLALR.OrderedMap

/-!
# Grammars

Symbols and rules stand in lists, and the index of each is its place in its list. The first
terminal is the end of the input, the first nonterminal the augmented start symbol, and the first
rule derives the start symbol from it.
-/

namespace OperatorLALR

/-- A static precedence. A higher priority binds tighter. -/
structure Precedence where
  priority : Nat
  assoc : Assoc
  deriving DecidableEq, Repr

/-- The precedence that a declaration without details gives. -/
def Precedence.default : Precedence := ⟨0, .nonassoc⟩

/-- What a terminal is for. -/
inductive TerminalRole where
  /-- A kind of token. -/
  | plain
  /-- The bearer of a precedence for rules that name it. -/
  | tag
  /-- All operators of a category that stand at the same place. -/
  | operator (category : NonterminalId) (fixity : Fixity)
  deriving DecidableEq, Repr

/-- A terminal symbol. -/
structure Terminal where
  name : String
  precedence : Option Precedence
  role : TerminalRole
  deriving DecidableEq, Repr

/-- Whether the terminal only bears a precedence. -/
def Terminal.isTag (t : Terminal) : Bool :=
  match t.role with
  | .tag => true
  | _ => false

/-- Whether the terminal stands for operators. -/
def Terminal.isOperator (t : Terminal) : Bool :=
  match t.role with
  | .operator _ _ => true
  | _ => false

/-- The terminal for the end of the input. -/
def Terminal.endOfInput : Terminal := ⟨"$eoi", none, .plain⟩

/-- The name of the augmented start symbol. -/
def augmentedStartName : String := "$start"

/-- A production rule. -/
structure Rule where
  /-- The nonterminal that the rule derives from. -/
  left : NonterminalId
  /-- The symbols that it derives. -/
  body : List Symbol
  /-- The terminal whose precedence the rule takes in place of its own. -/
  tag : Option TerminalId
  deriving DecidableEq, Repr

namespace Rule

/-- The terminals of a body with their places, in order. -/
def terminalPlaces (rule : Rule) : List (TerminalId × Nat) :=
  rule.body.zipIdx.filterMap fun (symbol, place) => symbol.terminal?.map fun t => (t, place)

/-- The last terminal of the body and its place. -/
def lastTerminal (rule : Rule) : Option (TerminalId × Nat) := rule.terminalPlaces.getLast?

/-- The terminal whose precedence the rule takes: its tag, or else the last of its body. -/
def precedenceBearer (rule : Rule) : Option TerminalId :=
  match rule.tag with
  | some tag => some tag
  | none => rule.lastTerminal.map Prod.fst

end Rule

/-- A grammar with its operators. -/
structure Grammar where
  terminals : List Terminal
  /-- The names of the nonterminals. -/
  nonterminals : List String
  rules : List Rule
  /-- The symbol that the augmented start symbol derives. -/
  start : NonterminalId
  /-- The operators known before any input is parsed. -/
  operators : OperatorTable
  /-- The terminal for each category and fixity that has one, in declaration order. -/
  operatorTerminals : OrderedMap (NonterminalId × Fixity) TerminalId
  deriving DecidableEq, Repr

namespace Grammar

/-- The terminal with an index. -/
def terminal? (g : Grammar) (t : TerminalId) : Option Terminal := g.terminals[t.val]?

/-- The name of the nonterminal with an index. -/
def nonterminalName? (g : Grammar) (n : NonterminalId) : Option String := g.nonterminals[n.val]?

/-- The rule with an index. -/
def rule? (g : Grammar) (r : RuleId) : Option Rule := g.rules[r.val]?

/-- The indices of the terminals. -/
def terminalIds (g : Grammar) : List TerminalId := Index.below g.terminals.length

/-- The indices of the nonterminals. -/
def nonterminalIds (g : Grammar) : List NonterminalId := Index.below g.nonterminals.length

/-- The indices of the rules. -/
def ruleIds (g : Grammar) : List RuleId := Index.below g.rules.length

/-- The nonterminal that a rule derives from. -/
def left (g : Grammar) (r : RuleId) : NonterminalId :=
  ((g.rule? r).map Rule.left).getD augmentedStart

/-- The symbols that a rule derives. -/
def body (g : Grammar) (r : RuleId) : List Symbol := ((g.rule? r).map Rule.body).getD []

theorem left_eq {g : Grammar} {r : RuleId} {rule : Rule} (h : g.rule? r = some rule) :
    g.left r = rule.left := by
  rw [left, h]
  rfl

theorem body_eq {g : Grammar} {r : RuleId} {rule : Rule} (h : g.rule? r = some rule) :
    g.body r = rule.body := by
  rw [body, h]
  rfl

/-- The rules of a nonterminal in declaration order. -/
def rulesOf (g : Grammar) (n : NonterminalId) : List RuleId :=
  g.ruleIds.filter fun r => (g.rule? r).any fun rule => decide (rule.left = n)

/-- The rules of a nonterminal are those with it on the left. -/
theorem mem_rulesOf {g : Grammar} {n : NonterminalId} {r : RuleId} :
    r ∈ g.rulesOf n ↔ ∃ rule, g.rule? r = some rule ∧ rule.left = n := by
  rw [rulesOf, List.mem_filter, ruleIds, Index.mem_below, Option.any_eq_true]
  simp only [decide_eq_true_eq]
  refine ⟨fun h => h.2, fun h => ⟨?_, h⟩⟩
  obtain ⟨rule, hrule, -⟩ := h
  exact (List.getElem?_eq_some_iff.mp hrule).1

/-- The name of a symbol in reports. -/
def symbolName (g : Grammar) : Symbol → String
  | .terminal t => ((g.terminal? t).map Terminal.name).getD "<unknown>"
  | .nonterminal n => (g.nonterminalName? n).getD "<unknown>"

/-- The name of a terminal in reports. -/
def terminalName (g : Grammar) (t : TerminalId) : String := g.symbolName (.terminal t)

/-- The name of a nonterminal in reports. -/
def nonterminalName (g : Grammar) (n : NonterminalId) : String := g.symbolName (.nonterminal n)

/-- The precedence of a terminal, if it was declared with one. -/
def terminalPrecedence (g : Grammar) (t : TerminalId) : Option Precedence :=
  (g.terminal? t).bind Terminal.precedence

/-- Whether a terminal stands for operators. -/
def isOperatorTerminal (g : Grammar) (t : TerminalId) : Bool :=
  (g.terminal? t).any Terminal.isOperator

/-- The terminal for the operators of a category at a place. -/
def operatorTerminal? (g : Grammar) (category : NonterminalId) (fixity : Fixity) :
    Option TerminalId :=
  g.operatorTerminals.find? (category, fixity)

end Grammar

namespace Rule

/-- The precedence of the rule, if its terminal has one. -/
def precedence (rule : Rule) (g : Grammar) : Option Precedence :=
  rule.precedenceBearer.bind g.terminalPrecedence

/-- The place in the body of the operator that governs the rule when it is parsed: the last
terminal, if it stands for operators and no tag takes its place. -/
def governingPlace (rule : Rule) (g : Grammar) : Option Nat :=
  match rule.tag, rule.lastTerminal with
  | none, some (t, place) => if g.isOperatorTerminal t then some place else none
  | _, _ => none

/-- The rule as reports show it. -/
def text (rule : Rule) (g : Grammar) : String :=
  let body := if rule.body.isEmpty then ["%empty"] else rule.body.map g.symbolName
  let tag := match rule.tag with
    | some tag => ["%prec", g.terminalName tag]
    | none => []
  " ".intercalate ([g.nonterminalName rule.left, ":="] ++ body ++ tag)

end Rule

namespace Grammar

/-- The precedence of a rule, if it has one. -/
def rulePrecedence (g : Grammar) (r : RuleId) : Option Precedence :=
  (g.rule? r).bind fun rule => rule.precedence g

/-- The place in the body of the operator that governs a rule when it is parsed. -/
def governingPlace (g : Grammar) (r : RuleId) : Option Nat :=
  (g.rule? r).bind fun rule => rule.governingPlace g

/-- A rule as reports show it. -/
def ruleText (g : Grammar) (r : RuleId) : String := ((g.rule? r).map fun r => r.text g).getD ""

end Grammar

end OperatorLALR
