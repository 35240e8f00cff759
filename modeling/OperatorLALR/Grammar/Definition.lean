import OperatorLALR.Grammar.Basic

/-!
# Defining a grammar

A grammar is defined by a sequence of declarations, each of which adds a symbol, an operator or a
rule, or names the start symbol. A declaration that fails says why; what it had changed before it
failed stays changed. `Grammar.define` ends with the first failure, `Grammar.defineLeniently`
skips the declarations that fail.
-/

namespace OperatorLALR

/-- Why a declaration or a whole definition fails. -/
inductive GrammarError where
  | operator (cause : OperatorError)
  | emptyTerminalName
  | duplicateTerminal (name : String)
  | emptyNonterminalName
  | duplicateNonterminal (name : String)
  | tooManyTerminals
  | tooManyNonterminals
  | tooManyRules
  | unknownCategory (category : NonterminalId)
  | unrankedOperator (name : String)
  | invalidLeft (left : NonterminalId)
  | longBody (length : Nat)
  | tagInBody (name : String)
  | invalidBodyTerminal (t : TerminalId)
  | invalidBodyNonterminal (n : NonterminalId)
  | invalidTag (t : TerminalId)
  | duplicateRule
  | invalidStart (n : NonterminalId)
  | noNonterminals
  | missingRules (name : String)
  deriving DecidableEq, Repr

namespace GrammarError

/-- What went wrong, without the heading. -/
def detail : GrammarError → String
  | .operator cause => cause.message
  | .emptyTerminalName => "empty terminal name"
  | .duplicateTerminal name => s!"The terminal `{name}' has already been declared"
  | .emptyNonterminalName => "empty nonterminal name"
  | .duplicateNonterminal name => s!"The nonterminal `{name}' has already been declared"
  | .tooManyTerminals => "too many terminals"
  | .tooManyNonterminals => "too many nonterminals"
  | .tooManyRules => "too many rules"
  | .unknownCategory category => s!"unknown operator category: {category.text}"
  | .unrankedOperator name => s!"the operator `{name}' must have a positive priority"
  | .invalidLeft left => s!"invalid left-hand side: {left.text}"
  | .longBody length => s!"too long right-hand side ({length} symbols)"
  | .tagInBody name => s!"The tag `{name}' cannot appear in a right-hand side"
  | .invalidBodyTerminal t => s!"invalid terminal in rule: {t.text}"
  | .invalidBodyNonterminal n => s!"invalid nonterminal in rule: {n.text}"
  | .invalidTag t => s!"invalid precedence tag: {t.text}"
  | .duplicateRule => "Duplicate production rule detected"
  | .invalidStart n => s!"invalid start symbol: {n.text}"
  | .noNonterminals => "empty nonterminal symbols"
  | .missingRules name => s!"The nonterminal `{name}' is used but has no production rules"

/-- The wording of an error. -/
def message : GrammarError → String
  | .operator cause => "operator error: " ++ cause.message
  | e => "Other error: " ++ e.detail

end GrammarError

/-- The number of indices of each kind: they fit into 16 bits. -/
def indexLimit : Nat := 65535

/-- What has been declared so far. -/
structure Definition where
  terminals : List Terminal
  /-- The names of the nonterminals. -/
  nonterminals : List String
  /-- The declared rules; their indices count from 1. -/
  rules : List Rule
  /-- The start symbol, if it has been named. -/
  start : Option NonterminalId
  operators : OperatorTable
  operatorTerminals : OrderedMap (NonterminalId × Fixity) TerminalId
  deriving DecidableEq, Repr

/-- One step of a definition. -/
inductive Declaration where
  /-- A kind of token. -/
  | terminal (name : String) (precedence : Option Precedence)
  /-- A bearer of a precedence for rules that name it. -/
  | tag (name : String) (precedence : Precedence)
  /-- A nonterminal. -/
  | nonterminal (name : String)
  /-- The terminal for the operators of a category at a place. -/
  | operatorTerminal (category : NonterminalId) (fixity : Fixity)
  /-- An operator known before any input is parsed. -/
  | operator (name specifier : String) (priority : Nat) (category : NonterminalId)
  /-- A production rule. -/
  | rule (left : NonterminalId) (body : List Symbol) (tag : Option TerminalId)
  /-- The choice of the start symbol. -/
  | start (n : NonterminalId)
  deriving DecidableEq, Repr

/-- What a declaration introduced. -/
inductive Declared where
  | terminal (t : TerminalId)
  | nonterminal (n : NonterminalId)
  | operator (op : Operator)
  | rule (r : RuleId)
  | start
  deriving DecidableEq, Repr

namespace Definition

/-- The definition before the first declaration: only the reserved symbols are there. -/
def initial : Definition where
  terminals := [.endOfInput]
  nonterminals := [augmentedStartName]
  rules := []
  start := none
  operators := ∅
  operatorTerminals := ∅

/-- Whether a nonterminal has been declared by the author of the grammar. -/
def declaresNonterminal (d : Definition) (n : NonterminalId) : Bool :=
  n ≠ augmentedStart && n.val < d.nonterminals.length

/-- Whether a terminal has been declared by the author of the grammar. -/
def declaresTerminal (d : Definition) (t : TerminalId) : Bool :=
  t ≠ endOfInput && t.val < d.terminals.length

/-- Add a terminal with a new name. -/
def addTerminal (d : Definition) (t : Terminal) : Except GrammarError TerminalId × Definition :=
  if t.name.isEmpty then (.error .emptyTerminalName, d)
  else if d.terminals.any fun other => other.name == t.name then
    (.error (.duplicateTerminal t.name), d)
  else if indexLimit ≤ d.terminals.length then (.error .tooManyTerminals, d)
  else (.ok ⟨d.terminals.length⟩, { d with terminals := d.terminals ++ [t] })

/-- Add a nonterminal with a new name. -/
def addNonterminal (d : Definition) (name : String) :
    Except GrammarError NonterminalId × Definition :=
  if name.isEmpty then (.error .emptyNonterminalName, d)
  else if d.nonterminals.any fun other => other == name then
    (.error (.duplicateNonterminal name), d)
  else if indexLimit ≤ d.nonterminals.length then (.error .tooManyNonterminals, d)
  else (.ok ⟨d.nonterminals.length⟩, { d with nonterminals := d.nonterminals ++ [name] })

/-- The name of the terminal for the operators of a category at a place. -/
def operatorTerminalName (category : String) (fixity : Fixity) : String :=
  category ++ "$" ++ fixity.text

/-- The terminal for the operators of a category at a place, added on first use. -/
def addOperatorTerminal (d : Definition) (category : NonterminalId) (fixity : Fixity) :
    Except GrammarError TerminalId × Definition :=
  match d.operatorTerminals.find? (category, fixity) with
  | some t => (.ok t, d)
  | none =>
    match d.nonterminals[category.val]? with
    | some name =>
      if category = augmentedStart then (.error (.unknownCategory category), d)
      else
        match d.addTerminal ⟨operatorTerminalName name fixity, none, .operator category fixity⟩ with
        | (.error e, d) => (.error e, d)
        | (.ok t, d) =>
          (.ok t, { d with operatorTerminals := d.operatorTerminals.insert (category, fixity) t })
    | none => (.error (.unknownCategory category), d)

/-- Add an operator, and the terminal for its category and place if there is none yet. The
terminal stays even if the priority turns out to be too large. -/
def addOperator (d : Definition) (name specifier : String) (priority : Nat)
    (category : NonterminalId) : Except GrammarError Operator × Definition :=
  match Specifier.parse specifier with
  | .error e => (.error (.operator e), d)
  | .ok spec =>
    if priority = 0 then (.error (.unrankedOperator name), d)
    else
      match d.addOperatorTerminal category spec.fixity with
      | (.error e, d) => (.error e, d)
      | (.ok t, d) =>
        let categoryName := (d.nonterminals[category.val]?).getD ""
        match Operator.checked ⟨name, category, categoryName, spec, priority, t⟩ with
        | .error e => (.error (.operator e), d)
        | .ok op => (.ok op, { d with operators := d.operators.define op })

/-- Why a symbol cannot stand in the body of a rule, if so. -/
def bodyFault (d : Definition) : Symbol → Option GrammarError
  | .terminal t =>
    match d.terminals[t.val]? with
    | some terminal =>
      if terminal.isTag then some (.tagInBody terminal.name)
      else if t = endOfInput then some (.invalidBodyTerminal t)
      else none
    | none => some (.invalidBodyTerminal t)
  | .nonterminal n => if d.declaresNonterminal n then none else some (.invalidBodyNonterminal n)

/-- Why a rule cannot be added, if so. -/
def ruleFault (d : Definition) (rule : Rule) : Option GrammarError :=
  if !d.declaresNonterminal rule.left then some (.invalidLeft rule.left)
  else if indexLimit < rule.body.length then some (.longBody rule.body.length)
  else
    match rule.body.findSome? d.bodyFault with
    | some e => some e
    | none =>
      match rule.tag.filter fun t => !d.declaresTerminal t with
      | some t => some (.invalidTag t)
      | none =>
        if d.rules.any fun other => other.left == rule.left && other.body == rule.body then
          some .duplicateRule
        else if indexLimit ≤ d.rules.length + 1 then some .tooManyRules
        else none

/-- Add a rule. -/
def addRule (d : Definition) (rule : Rule) : Except GrammarError RuleId × Definition :=
  match d.ruleFault rule with
  | some e => (.error e, d)
  | none => (.ok ⟨d.rules.length + 1⟩, { d with rules := d.rules ++ [rule] })

/-- Name the start symbol. -/
def setStart (d : Definition) (n : NonterminalId) : Except GrammarError Unit × Definition :=
  if d.declaresNonterminal n then (.ok (), { d with start := some n })
  else (.error (.invalidStart n), d)

/-- Carry out one declaration. -/
def declare (d : Definition) : Declaration → Except GrammarError Declared × Definition
  | .terminal name precedence =>
    let (result, d) := d.addTerminal ⟨name, precedence, .plain⟩
    (result.map .terminal, d)
  | .tag name precedence =>
    let (result, d) := d.addTerminal ⟨name, some precedence, .tag⟩
    (result.map .terminal, d)
  | .nonterminal name =>
    let (result, d) := d.addNonterminal name
    (result.map .nonterminal, d)
  | .operatorTerminal category fixity =>
    let (result, d) := d.addOperatorTerminal category fixity
    (result.map .terminal, d)
  | .operator name specifier priority category =>
    let (result, d) := d.addOperator name specifier priority category
    (result.map .operator, d)
  | .rule left body tag =>
    let (result, d) := d.addRule ⟨left, body, tag⟩
    (result.map .rule, d)
  | .start n =>
    let (result, d) := d.setStart n
    (result.map fun _ => .start, d)

/-- Carry out declarations until one fails: what each one gave, and the definition after them. -/
def declareAll (d : Definition) :
    List Declaration → List (Except GrammarError Declared) × Definition
  | [] => ([], d)
  | step :: steps =>
    match d.declare step with
    | (.error e, d) => ([.error e], d)
    | (.ok declared, d) =>
      let (results, d) := d.declareAll steps
      (.ok declared :: results, d)

/-- Carry out declarations, going on after one that fails. -/
def declareLeniently (d : Definition) :
    List Declaration → List (Except GrammarError Declared) × Definition
  | [] => ([], d)
  | step :: steps =>
    let (result, d) := d.declare step
    let (results, d) := d.declareLeniently steps
    (result :: results, d)

/-- The start symbol: the one that was named, or else the first that was declared. -/
def chosenStart (d : Definition) : Except GrammarError NonterminalId :=
  match d.start with
  | some n => .ok n
  | none => if 1 < d.nonterminals.length then .ok ⟨1⟩ else .error .noNonterminals

/-- The first nonterminal that occurs in a body but heads no rule. -/
def ruleless? (rules : List Rule) : Option NonterminalId :=
  (rules.flatMap fun rule => rule.body.filterMap Symbol.nonterminal?).find? fun n =>
    !rules.any fun rule => rule.left == n

/-- Finish a definition. -/
def finish (d : Definition) : Except GrammarError Grammar :=
  match d.chosenStart with
  | .error e => .error e
  | .ok start =>
    let rules := ⟨augmentedStart, [.nonterminal start], none⟩ :: d.rules
    match ruleless? rules with
    | some n => .error (.missingRules ((d.nonterminals[n.val]?).getD ""))
    | none =>
      .ok
        { terminals := d.terminals
          nonterminals := d.nonterminals
          rules := rules
          start := start
          operators := d.operators
          operatorTerminals := d.operatorTerminals }

end Definition

namespace Grammar

/-- Finish a definition unless one of its declarations failed. -/
def ofDeclared (results : List (Except GrammarError Declared)) (d : Definition) :
    Except GrammarError Grammar :=
  match results.getLast? with
  | some (.error e) => .error e
  | _ => d.finish

/-- What each declaration gave up to the first that fails, and the grammar defined. -/
def define (steps : List Declaration) :
    List (Except GrammarError Declared) × Except GrammarError Grammar :=
  let (results, d) := Definition.initial.declareAll steps
  (results, ofDeclared results d)

/-- What each declaration gave, and the grammar defined by those that did not fail. -/
def defineLeniently (steps : List Declaration) :
    List (Except GrammarError Declared) × Except GrammarError Grammar :=
  let (results, d) := Definition.initial.declareLeniently steps
  (results, d.finish)

end Grammar

end OperatorLALR
