import OperatorLALR.Proofs.Grammar.Consistency
import OperatorLALR.Proofs.Operators.Independence
import OperatorLALR.Proofs.Operators.Tables
import OperatorLALR.Proofs.Soundness.Parses

/-!
# Definitions with operators that may be left out

An operator for which there is a terminal may be declared with the grammar, or left to the parser.
A `Script` is a definition with such operators at any places. Declared, they add nothing to the
definition but themselves, and no other declaration gives anything else for them
(`declareLeniently_full`). So the grammar is the same but for its operators (`Script.define_full`).
-/

namespace OperatorLALR

/-- A step of a definition with operators that may be left out. -/
inductive ScriptStep where
  /-- It is declared in any case. -/
  | fixed (step : Declaration)
  /-- The operator is declared with the grammar, or left to the parser. -/
  | movable (call : OperatorCall)

/-- A definition with operators that may be left out. -/
abbrev Script := List ScriptStep

/-- The declaration of the operator that a call describes. -/
def OperatorCall.declaration (c : OperatorCall) : Declaration :=
  .operator c.name c.specifier c.priority c.category

/-- The name, the category and the place of the operator that a call describes, if its specifier is
one. -/
def OperatorCall.slot? (c : OperatorCall) : Option (String × NonterminalId × Fixity) :=
  (Specifier.ofName? c.specifier).map fun spec => (c.name, c.category, spec.fixity)

/-- The call for the operator that a declaration adds. -/
def Declaration.call? : Declaration → Option OperatorCall
  | .operator name specifier priority category => some ⟨name, specifier, priority, category⟩
  | _ => none

namespace Script

/-- The definition without the movable operators. -/
def base : Script → List Declaration
  | [] => []
  | .fixed step :: script => step :: base script
  | .movable _ :: script => base script

/-- The definition with all operators. -/
def full : Script → List Declaration
  | [] => []
  | .fixed step :: script => step :: full script
  | .movable c :: script => c.declaration :: full script

/-- The movable operators. -/
def calls : Script → List OperatorCall
  | [] => []
  | .fixed _ :: script => calls script
  | .movable c :: script => c :: calls script

end Script

/-- A call is valid where its specifier is one, its priority in range and the terminal for its
category and place declared. -/
structure OperatorCall.Valid (c : OperatorCall) (d : Definition) : Prop where
  pos : 0 < c.priority
  le_max : c.priority ≤ maxPriority
  terminal : ∃ spec t, Specifier.ofName? c.specifier = some spec ∧
    d.operatorTerminals.find? (c.category, spec.fixity) = some t

/-- Each movable operator is valid at its place, without the other movable ones. -/
def Script.Valid : Script → Definition → Prop
  | [], _ => True
  | .fixed step :: script, d => Valid script (d.declare step).2
  | .movable c :: script, d => c.Valid d ∧ Valid script d

/-- A fixed operator that follows a movable one does not take its place. -/
def ScriptStep.Spares : ScriptStep → ScriptStep → Prop
  | .movable c, .fixed step => ∀ own, step.call? = some own → own.slot? ≠ c.slot?
  | _, _ => True

namespace Definition

variable {d d' : Definition}

/-- The definition with other operators. -/
def withOperators (d : Definition) (operators : OperatorTable) : Definition :=
  { d with operators := operators }

/-- The operator that a call describes, where there is a terminal for it. -/
def operator? (d : Definition) (c : OperatorCall) : Option Operator :=
  (Specifier.ofName? c.specifier).bind fun spec =>
    (d.operatorTerminals.find? (c.category, spec.fixity)).map fun t =>
      d.declaredOperator c.name spec c.priority c.category t

end Definition

/-- The operators after a declaration that gave a result. -/
def OperatorTable.after (operators : OperatorTable) :
    Except GrammarError Declared → OperatorTable
  | .ok (.operator op) => operators.define op
  | _ => operators

namespace Definition

variable {d d' : Definition} (operators : OperatorTable)

/-- A terminal is added whatever the operators are. -/
theorem addTerminal_withOperators (d : Definition) (t : Terminal) :
    (d.withOperators operators).addTerminal t =
      ((d.addTerminal t).1, (d.addTerminal t).2.withOperators operators) := by
  unfold addTerminal withOperators
  dsimp only
  split
  · rfl
  · split
    · rfl
    · split <;> rfl

/-- A nonterminal is added whatever the operators are. -/
theorem addNonterminal_withOperators (d : Definition) (name : String) :
    (d.withOperators operators).addNonterminal name =
      ((d.addNonterminal name).1, (d.addNonterminal name).2.withOperators operators) := by
  unfold addNonterminal withOperators
  dsimp only
  split
  · rfl
  · split
    · rfl
    · split <;> rfl

/-- The terminal for operators is provided whatever the operators are. -/
theorem addOperatorTerminal_withOperators (d : Definition) (category : NonterminalId)
    (fixity : Fixity) :
    (d.withOperators operators).addOperatorTerminal category fixity =
      ((d.addOperatorTerminal category fixity).1,
        (d.addOperatorTerminal category fixity).2.withOperators operators) := by
  have hfind : (d.withOperators operators).operatorTerminals = d.operatorTerminals := rfl
  have hnames : (d.withOperators operators).nonterminals = d.nonterminals := rfl
  rw [addOperatorTerminal, addOperatorTerminal, hfind, hnames]
  cases d.operatorTerminals.find? (category, fixity) with
  | some t => rfl
  | none =>
    dsimp only
    cases d.nonterminals[category.val]? with
    | none => rfl
    | some name =>
      dsimp only
      rw [addTerminal_withOperators]
      split
      · rfl
      · rcases d.addTerminal ⟨operatorTerminalName name fixity, none,
          .operator category fixity⟩ with ⟨e | t, d'⟩ <;> rfl

/-- An operator is added to other operators in the same way. -/
theorem addOperator_withOperators (d : Definition) (name specifier : String) (priority : Nat)
    (category : NonterminalId) :
    (d.withOperators operators).addOperator name specifier priority category =
      let (result, d') := d.addOperator name specifier priority category
      (result, d'.withOperators (operators.after (result.map .operator))) := by
  rw [addOperator, addOperator]
  cases Specifier.parse specifier with
  | error e => rfl
  | ok spec =>
    dsimp only
    split
    · rfl
    · rw [addOperatorTerminal_withOperators]
      rcases d.addOperatorTerminal category spec.fixity with ⟨e | t, d'⟩
      · rfl
      · have hnames : (d'.withOperators operators).nonterminals = d'.nonterminals := rfl
        dsimp only
        rw [hnames]
        cases Operator.checked ⟨name, category, (d'.nonterminals[category.val]?).getD "", spec,
          priority, t⟩ <;> rfl

/-- A declaration does not depend on the operators, to which it adds at most the one declared. -/
theorem declare_withOperators (d : Definition) (step : Declaration) :
    (d.withOperators operators).declare step = ((d.declare step).1,
      (d.declare step).2.withOperators (operators.after (d.declare step).1)) := by
  cases step with
  | terminal name precedence =>
    rw [declare, declare, addTerminal_withOperators]
    rcases d.addTerminal ⟨name, precedence, .plain⟩ with ⟨e | t, d'⟩ <;> rfl
  | tag name precedence =>
    rw [declare, declare, addTerminal_withOperators]
    rcases d.addTerminal ⟨name, some precedence, .tag⟩ with ⟨e | t, d'⟩ <;> rfl
  | nonterminal name =>
    rw [declare, declare, addNonterminal_withOperators]
    rcases d.addNonterminal name with ⟨e | n, d'⟩ <;> rfl
  | operatorTerminal category fixity =>
    rw [declare, declare, addOperatorTerminal_withOperators]
    rcases d.addOperatorTerminal category fixity with ⟨e | t, d'⟩ <;> rfl
  | operator name specifier priority category =>
    rw [declare, declare, addOperator_withOperators]
  | rule left body tag =>
    have hfault : (d.withOperators operators).ruleFault ⟨left, body, tag⟩ =
        d.ruleFault ⟨left, body, tag⟩ := rfl
    rw [declare, declare, addRule, addRule, hfault]
    cases d.ruleFault ⟨left, body, tag⟩ <;> rfl
  | start n =>
    have hdeclares : (d.withOperators operators).declaresNonterminal n =
        d.declaresNonterminal n := rfl
    rw [declare, declare, setStart, setStart, hdeclares]
    cases d.declaresNonterminal n <;> rfl

/-- What a declaration does to the operators. -/
theorem operators_declare (d : Definition) (step : Declaration) :
    (d.declare step).2.operators = d.operators.after (d.declare step).1 :=
  congrArg (fun result => result.2.operators) (declare_withOperators d.operators d step)

/-- A definition finishes in the same way with other operators. -/
theorem finish_withOperators (d : Definition) :
    (d.withOperators operators).finish = d.finish.map fun g => g.withOperators operators := by
  have hstart : (d.withOperators operators).chosenStart = d.chosenStart := rfl
  rw [finish, finish, hstart]
  cases d.chosenStart with
  | error e => rfl
  | ok start =>
    have hrules : (d.withOperators operators).rules = d.rules := rfl
    dsimp only
    rw [hrules]
    cases ruleless? (⟨augmentedStart, [.nonterminal start], none⟩ :: d.rules) <;> rfl

end Definition

section Definitions

variable {d d' : Definition} {c : OperatorCall} {op : Operator}

/-- A call that is valid stays so. -/
theorem OperatorCall.Valid.mono (h : c.Valid d) (hwithin : d.Within d') : c.Valid d' := by
  obtain ⟨spec, t, hspec, ht⟩ := h.terminal
  exact ⟨h.pos, h.le_max, spec, t, hspec, hwithin.operatorTerminals _ _ ht⟩

/-- The operator that a call describes, by its specifier and its terminal. -/
theorem Definition.operator?_eq_some : d.operator? c = some op ↔
    ∃ spec t, Specifier.ofName? c.specifier = some spec ∧
      d.operatorTerminals.find? (c.category, spec.fixity) = some t ∧
      d.declaredOperator c.name spec c.priority c.category t = op := by
  simp only [operator?, Option.bind_eq_some_iff, Option.map_eq_some_iff]
  constructor
  · rintro ⟨spec, hspec, t, ht, heq⟩
    exact ⟨spec, t, hspec, ht, heq⟩
  · rintro ⟨spec, t, hspec, ht, heq⟩
    exact ⟨spec, hspec, t, ht, heq⟩

/-- An operator has the name, the category and the place that the call has. -/
theorem Definition.slot?_of_operator? (h : d.operator? c = some op) :
    c.slot? = some (op.name, op.category, op.fixity) := by
  obtain ⟨spec, t, hspec, -, rfl⟩ := operator?_eq_some.mp h
  rw [OperatorCall.slot?, hspec]
  rfl

/-- A valid call describes an operator, and its declaration adds this operator and nothing else. -/
theorem OperatorCall.Valid.declare (h : c.Valid d) :
    ∃ op, d.operator? c = some op ∧ d.declare c.declaration =
      (.ok (.operator op), d.withOperators (d.operators.define op)) := by
  obtain ⟨spec, t, hspec, ht⟩ := h.terminal
  refine ⟨_, Definition.operator?_eq_some.mpr ⟨spec, t, hspec, ht, rfl⟩, ?_⟩
  rw [declaration, Definition.declare, Definition.addOperator, Specifier.parse, hspec]
  dsimp only
  rw [if_neg (Nat.ne_of_gt h.pos), Definition.addOperatorTerminal, ht]
  dsimp only
  rw [Operator.checked, if_neg (Nat.not_lt_of_le h.le_max)]
  rfl

/-- What a call describes stays the same. -/
theorem Definition.operator?_mono (hd : d.Consistent) (hwithin : d.Within d')
    (h : d.operator? c = some op) : d'.operator? c = some op := by
  obtain ⟨spec, t, hspec, ht, rfl⟩ := operator?_eq_some.mp h
  refine operator?_eq_some.mpr ⟨spec, t, hspec, hwithin.operatorTerminals _ _ ht, ?_⟩
  have hlt := (declaresNonterminal_iff.mp (hd.categories _ _ _ ht)).2
  have hname := List.getElem?_eq_getElem hlt
  rw [declaredOperator, declaredOperator, hname, getElem?_of_isPrefix hwithin.nonterminals hname]

/-- The movable operators are valid at the end. -/
theorem Script.Valid.calls {script : Script} (h : script.Valid d) :
    ∀ c ∈ script.calls, c.Valid (d.declareLeniently script.base).2 := by
  induction script generalizing d with
  | nil => exact nofun
  | cons first script ih =>
    cases first with
    | fixed step => exact ih h
    | movable c =>
      obtain ⟨hc, hscript⟩ := h
      refine List.forall_mem_cons.mpr ⟨?_, ih hscript⟩
      exact hc.mono (Definition.within_declareLeniently d (Script.base script))

/-- The definition with some operators defined last. -/
def Definition.extended (d : Definition) (ops : List Operator) : Definition :=
  d.withOperators (ops.foldl OperatorTable.define d.operators)

/-- A declaration adds no operator that takes the place of one of those given. -/
def Declaration.SparesAll (step : Declaration) (ops : List Operator) : Prop :=
  ∀ own, step.call? = some own → ∀ op ∈ ops, own.slot? ≠ some (op.name, op.category, op.fixity)

/-- A declaration does the same where operators are defined last whose places it does not take. -/
theorem Definition.declare_extended {step : Declaration} {ops : List Operator}
    (htidy : d.operators.Tidy) (hspares : step.SparesAll ops) :
    (d.extended ops).declare step = ((d.declare step).1, (d.declare step).2.extended ops) := by
  have hafter : (ops.foldl OperatorTable.define d.operators).after (d.declare step).1 =
      ops.foldl OperatorTable.define (d.operators.after (d.declare step).1) := by
    have hcarried := d.carried_declare step
    generalize (d.declare step).1 = result at hcarried ⊢
    generalize (d.declare step).2 = d' at hcarried
    cases hcarried with
    | @operator name specifier priority category spec t d' hspec hpos hmax hprovides =>
      refine (htidy.foldl_define_comm fun other hother hslot => ?_).symm
      refine hspares _ rfl other hother ?_
      rw [OperatorCall.slot?, hspec, hslot.1, hslot.2.1, hslot.2.2]
      rfl
    | failed | terminal | tag | nonterminal | operatorTerminal | overreached | rule | start => rfl
  rw [extended, declare_withOperators, hafter, extended, operators_declare]

/-- A valid call adds its operator to those that are defined last. -/
theorem OperatorCall.Valid.declare_extended (h : c.Valid d) (ops : List Operator) :
    ∃ op, d.operator? c = some op ∧
      (d.extended ops).declare c.declaration = (.ok (.operator op), d.extended (ops ++ [op])) := by
  obtain ⟨op, hop, hdeclare⟩ := h.declare
  refine ⟨op, hop, ?_⟩
  rw [Definition.extended, Definition.declare_withOperators, hdeclare, Definition.extended,
    List.foldl_append]
  rfl

/-- Declarations that spare some operators spare one more where they spare its call. -/
theorem Script.sparesAll_concat {script : Script} {ops : List Operator}
    (hop : d.operator? c = some op)
    (hfirst : ∀ later ∈ script, ScriptStep.Spares (.movable c) later)
    (hspares : ∀ step, .fixed step ∈ script → step.SparesAll ops) :
    ∀ step, .fixed step ∈ script → step.SparesAll (ops ++ [op]) := by
  intro step hstep own hown other hother
  rcases List.mem_append.mp hother with hother | hother
  · exact hspares step hstep own hown other hother
  · rw [List.mem_singleton.mp hother, ← Definition.slot?_of_operator? hop]
    exact hfirst _ hstep own hown

/-- A declaration keeps the table of operators tidy. -/
theorem Definition.tidy_declare (h : d.operators.Tidy) (step : Declaration) :
    (d.declare step).2.operators.Tidy := by
  rw [operators_declare]
  unfold OperatorTable.after
  split
  · exact h.define _
  · exact h

/-- Declarations keep the table of operators tidy. -/
theorem Definition.tidy_declareLeniently (h : d.operators.Tidy) (steps : List Declaration) :
    (d.declareLeniently steps).2.operators.Tidy := by
  induction steps generalizing d with
  | nil => exact h
  | cons step steps ih => exact ih (tidy_declare h step)

/-- The first of some declarations is carried out first. -/
theorem Definition.declareLeniently_cons (d : Definition) (step : Declaration)
    (steps : List Declaration) :
    d.declareLeniently (step :: steps) =
      ((d.declare step).1 :: ((d.declare step).2.declareLeniently steps).1,
        ((d.declare step).2.declareLeniently steps).2) := rfl

/-- With the movable operators the definition is the same as without them, but for these
operators, and the same declarations fail. -/
theorem Definition.declareLeniently_full {script : Script} {ops : List Operator}
    (hd : d.Consistent) (htidy : d.operators.Tidy) (hvalid : script.Valid d)
    (hspares : script.Pairwise ScriptStep.Spares)
    (hops : ∀ step, .fixed step ∈ script → step.SparesAll ops) :
    let d' := (d.declareLeniently script.base).2
    let result := (d.extended ops).declareLeniently script.full
    result.2 = d'.extended (ops ++ script.calls.filterMap d'.operator?) ∧
      failures result.1 = failures (d.declareLeniently script.base).1 := by
  -- The movable operators met so far are those defined last.
  induction script generalizing d ops with
  | nil =>
    intro d' result
    rw [Script.calls, List.filterMap_nil, List.append_nil]
    exact ⟨rfl, rfl⟩
  | cons first script ih =>
    obtain ⟨hfirst, hrest⟩ := List.pairwise_cons.mp hspares
    cases first with
    | fixed step =>
      intro d' result
      have hdeclare := declare_extended htidy (hops step List.mem_cons_self)
      have hresult : result = _ := declareLeniently_cons _ step (Script.full script)
      obtain ⟨hsame, hfail⟩ := ih (hd.carried (d.carried_declare step))
        (tidy_declare htidy step) hvalid hrest fun step' hstep' =>
          hops step' (List.mem_cons_of_mem _ hstep')
      rw [hdeclare] at hresult
      rw [hresult, Script.base, declareLeniently_cons, failures_cons, hfail, ← failures_cons]
      exact ⟨hsame, rfl⟩
    | movable c =>
      intro d' result
      obtain ⟨hc, hvalid⟩ := hvalid
      obtain ⟨op, hop, hdeclare⟩ := hc.declare_extended ops
      have hresult : result = _ := declareLeniently_cons _ c.declaration (Script.full script)
      have hop' : d'.operator? c = some op :=
        operator?_mono hd (within_declareLeniently d (Script.base script)) hop
      obtain ⟨hsame, hfail⟩ := ih hd htidy hvalid hrest
        (Script.sparesAll_concat hop hfirst fun step hstep =>
          hops step (List.mem_cons_of_mem _ hstep))
      rw [hdeclare] at hresult
      rw [List.append_assoc] at hsame
      rw [hresult, Script.calls, List.filterMap_cons_some hop']
      exact ⟨hsame, hfail⟩

/-- With the movable operators a definition gives the same grammar but for these operators, or it
fails for the same reason. -/
theorem Script.define_full {script : Script} (hvalid : script.Valid .initial)
    (hspares : script.Pairwise ScriptStep.Spares) :
    let d := (Definition.initial.declareLeniently script.base).2
    let operators := (script.calls.filterMap d.operator?).foldl OperatorTable.define d.operators
    (Grammar.define script.full).2 =
      (Grammar.define script.base).2.map (fun g => g.withOperators operators) ∧
    (Grammar.defineLeniently script.full).2 =
      (Grammar.defineLeniently script.base).2.map fun g => g.withOperators operators := by
  intro d operators
  have hnone : ∀ step, .fixed step ∈ script → step.SparesAll [] := fun _ _ _ _ => nofun
  obtain ⟨hsame, hfail⟩ := Definition.declareLeniently_full .initial OperatorTable.Tidy.empty
    hvalid hspares hnone
  have hlenient : (Grammar.defineLeniently script.full).2 =
      (Grammar.defineLeniently script.base).2.map fun g => g.withOperators operators :=
    (congrArg Definition.finish hsame).trans (d.finish_withOperators operators)
  have hfailures : failures (Grammar.defineLeniently script.full).1 =
      failures (Grammar.defineLeniently script.base).1 := hfail
  refine ⟨?_, hlenient⟩
  rw [Grammar.define_eq, Grammar.define_eq, hfailures]
  cases failures (Grammar.defineLeniently script.base).1 with
  | nil => exact hlenient
  | cons e _ => rfl

end Definitions

end OperatorLALR
