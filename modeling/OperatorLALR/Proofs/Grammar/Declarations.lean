import OperatorLALR.Grammar.Definition

/-!
# What a declaration does

A declaration fails, or it puts one symbol, operator or rule behind those that are there, or it
names the start symbol. `Definition.Carried` lists these results with all that has been checked on
the way, so that later proofs need not look into a declaration. An operator brings along the
terminal for its category and place. That terminal is the only trace that a failure may leave:
`failed_declare_iff` says that it does so exactly if the terminal is new and the priority of the
operator turns out to be out of range.
-/

namespace OperatorLALR

/-- The category and the place of the operator that is declared, if its specifier is one. -/
def Declaration.slot? : Declaration → Option (NonterminalId × Fixity)
  | .operator _ specifier _ category =>
    (Specifier.ofName? specifier).map fun spec => (category, spec.fixity)
  | _ => none

namespace Definition

variable {d d' : Definition}

/-- A terminal may be added: its name is new and not empty, and there is an index left. -/
structure Admits (d : Definition) (t : Terminal) : Prop where
  name_ne : t.name ≠ ""
  fresh : ∀ other ∈ d.terminals, other.name ≠ t.name
  room : d.terminals.length < indexLimit

/-- A nonterminal may be added under a name. -/
structure AdmitsNonterminal (d : Definition) (name : String) : Prop where
  name_ne : name ≠ ""
  fresh : name ∉ d.nonterminals
  room : d.nonterminals.length < indexLimit

/-- The definition with a terminal for the operators of a category at a place. -/
def withOperatorTerminal (d : Definition) (category : NonterminalId) (fixity : Fixity)
    (t : Terminal) : Definition :=
  { d with
    terminals := d.terminals ++ [t]
    operatorTerminals := d.operatorTerminals.insert (category, fixity) ⟨d.terminals.length⟩ }

/-- The terminal that a definition has for the operators of a category at a place, in the definition
with that terminal. -/
inductive Provides (d : Definition) (category : NonterminalId) (fixity : Fixity) :
    TerminalId → Definition → Prop
  /-- It was there. -/
  | known {t : TerminalId} (h : d.operatorTerminals.find? (category, fixity) = some t) :
      Provides d category fixity t d
  /-- It is added, under a name made of the category and the place. -/
  | added {name : String} (hnew : d.operatorTerminals.find? (category, fixity) = none)
      (hname : d.nonterminals[category.val]? = some name) (hcategory : category ≠ augmentedStart)
      (hadmits : d.Admits
        ⟨operatorTerminalName name fixity, none, .operator category fixity⟩) :
      Provides d category fixity ⟨d.terminals.length⟩
        (d.withOperatorTerminal category fixity
          ⟨operatorTerminalName name fixity, none, .operator category fixity⟩)

/-- The operator that a declaration describes. -/
def declaredOperator (d : Definition) (name : String) (spec : Specifier) (priority : Nat)
    (category : NonterminalId) (t : TerminalId) : Operator :=
  ⟨name, category, (d.nonterminals[category.val]?).getD "", spec, priority, t⟩

/-- The declaration of an operator leaves its terminal behind when it fails: the terminal is new,
and the priority is out of range. -/
def LeavesTerminal (d : Definition) (step : Declaration) (e : GrammarError) : Prop :=
  (∃ priority, e = .operator (.priorityOutOfRange priority)) ∧
    ∃ slot, step.slot? = some slot ∧ d.operatorTerminals.find? slot = none

/-- What a declaration gives, and the definition after it. -/
inductive Carried (d : Definition) :
    Declaration → Except GrammarError Declared → Definition → Prop
  /-- It fails without a trace. -/
  | failed {step : Declaration} {e : GrammarError} (h : ¬ d.LeavesTerminal step e) :
      Carried d step (.error e) d
  | terminal {name : String} {precedence : Option Precedence}
      (h : d.Admits ⟨name, precedence, .plain⟩) :
      Carried d (.terminal name precedence) (.ok (.terminal ⟨d.terminals.length⟩))
        { d with terminals := d.terminals ++ [⟨name, precedence, .plain⟩] }
  | tag {name : String} {precedence : Precedence} (h : d.Admits ⟨name, some precedence, .tag⟩) :
      Carried d (.tag name precedence) (.ok (.terminal ⟨d.terminals.length⟩))
        { d with terminals := d.terminals ++ [⟨name, some precedence, .tag⟩] }
  | nonterminal {name : String} (h : d.AdmitsNonterminal name) :
      Carried d (.nonterminal name) (.ok (.nonterminal ⟨d.nonterminals.length⟩))
        { d with nonterminals := d.nonterminals ++ [name] }
  | operatorTerminal {category : NonterminalId} {fixity : Fixity} {t : TerminalId}
      {d' : Definition} (h : d.Provides category fixity t d') :
      Carried d (.operatorTerminal category fixity) (.ok (.terminal t)) d'
  | operator {name specifier : String} {priority : Nat} {category : NonterminalId}
      {spec : Specifier} {t : TerminalId} {d' : Definition}
      (hspec : Specifier.ofName? specifier = some spec) (hpos : 0 < priority)
      (hmax : priority ≤ maxPriority) (h : d.Provides category spec.fixity t d') :
      Carried d (.operator name specifier priority category)
        (.ok (.operator (d'.declaredOperator name spec priority category t)))
        { d' with
          operators := d'.operators.define (d'.declaredOperator name spec priority category t) }
  /-- The priority turns out to be out of range when the terminal is there. -/
  | overreached {name specifier : String} {priority : Nat} {category : NonterminalId}
      {spec : Specifier} {t : TerminalId} {d' : Definition}
      (hspec : Specifier.ofName? specifier = some spec) (hmax : maxPriority < priority)
      (h : d.Provides category spec.fixity t d') :
      Carried d (.operator name specifier priority category)
        (.error (.operator (.priorityOutOfRange priority))) d'
  | rule {left : NonterminalId} {body : List Symbol} {tag : Option TerminalId}
      (h : d.ruleFault ⟨left, body, tag⟩ = none) :
      Carried d (.rule left body tag) (.ok (.rule ⟨d.rules.length + 1⟩))
        { d with rules := d.rules ++ [⟨left, body, tag⟩] }
  | start {n : NonterminalId} (h : d.declaresNonterminal n = true) :
      Carried d (.start n) (.ok .start) { d with start := some n }

/-- Only the declaration of an operator leaves anything behind. -/
theorem not_leavesTerminal {step : Declaration} (e : GrammarError) (h : step.slot? = none) :
    ¬ d.LeavesTerminal step e := by
  rintro ⟨-, slot, hslot, -⟩
  cases h.symm.trans hslot

/-- A terminal that is admitted is added. -/
theorem Admits.addTerminal {t : Terminal} (h : d.Admits t) :
    d.addTerminal t = (.ok ⟨d.terminals.length⟩, { d with terminals := d.terminals ++ [t] }) := by
  have hfresh : ¬ (d.terminals.any fun other => other.name == t.name) = true := by
    rw [List.any_eq_true]
    rintro ⟨other, hother, heq⟩
    exact h.fresh other hother (beq_iff_eq.mp heq)
  rw [Definition.addTerminal, if_neg (by simpa using h.name_ne), if_neg hfresh,
    if_neg (Nat.not_le_of_lt h.room)]

/-- A terminal is added if it is admitted, or nothing changes. -/
theorem addTerminal_cases (d : Definition) (t : Terminal) :
    (d.Admits t ∧ d.addTerminal t =
      (.ok ⟨d.terminals.length⟩, { d with terminals := d.terminals ++ [t] })) ∨
    ∃ e, d.addTerminal t = (.error e, d) ∧ ∀ cause, e ≠ .operator cause := by
  unfold addTerminal
  split
  · exact .inr ⟨_, rfl, fun _ => nofun⟩
  · next hname =>
    split
    · exact .inr ⟨_, rfl, fun _ => nofun⟩
    · next hfresh =>
      split
      · exact .inr ⟨_, rfl, fun _ => nofun⟩
      · next hroom =>
        refine .inl ⟨⟨by simpa using hname, ?_, Nat.lt_of_not_le hroom⟩, rfl⟩
        intro other hother heq
        exact hfresh (List.any_eq_true.mpr ⟨other, hother, beq_iff_eq.mpr heq⟩)

/-- A nonterminal is added if it is admitted, or nothing changes. -/
theorem addNonterminal_cases (d : Definition) (name : String) :
    (d.AdmitsNonterminal name ∧ d.addNonterminal name =
      (.ok ⟨d.nonterminals.length⟩, { d with nonterminals := d.nonterminals ++ [name] })) ∨
    ∃ e, d.addNonterminal name = (.error e, d) := by
  unfold addNonterminal
  split
  · exact .inr ⟨_, rfl⟩
  · next hname =>
    split
    · exact .inr ⟨_, rfl⟩
    · next hfresh =>
      split
      · exact .inr ⟨_, rfl⟩
      · next hroom =>
        refine .inl ⟨⟨by simpa using hname, ?_, Nat.lt_of_not_le hroom⟩, rfl⟩
        exact fun hmem => hfresh (List.any_eq_true.mpr ⟨name, hmem, beq_self_eq_true name⟩)

/-- The terminal for the operators of a category at a place is provided, or nothing changes. -/
theorem addOperatorTerminal_cases (d : Definition) (category : NonterminalId) (fixity : Fixity) :
    (∃ t d', d.Provides category fixity t d' ∧
      d.addOperatorTerminal category fixity = (.ok t, d')) ∨
    ∃ e, d.addOperatorTerminal category fixity = (.error e, d) ∧
      ∀ cause, e ≠ .operator cause := by
  unfold addOperatorTerminal
  split
  · next t ht => exact .inl ⟨t, d, .known ht, rfl⟩
  · next hnew =>
    split
    · next name hname =>
      split
      · exact .inr ⟨_, rfl, fun _ => nofun⟩
      · next hcategory =>
        rcases d.addTerminal_cases
          ⟨operatorTerminalName name fixity, none, .operator category fixity⟩ with
          ⟨hadmits, heq⟩ | ⟨e, heq, he⟩
        · rw [heq]
          exact .inl ⟨_, _, .added hnew hname hcategory hadmits, rfl⟩
        · rw [heq]
          exact .inr ⟨e, rfl, he⟩
    · exact .inr ⟨_, rfl, fun _ => nofun⟩

/-- What the declaration of an operator comes to. -/
theorem carried_addOperator (d : Definition) (name specifier : String) (priority : Nat)
    (category : NonterminalId) :
    d.Carried (.operator name specifier priority category)
      ((d.addOperator name specifier priority category).1.map .operator)
      (d.addOperator name specifier priority category).2 := by
  unfold addOperator Specifier.parse
  cases hspec : Specifier.ofName? specifier with
  | none => exact .failed fun h => by obtain ⟨⟨_, h⟩, -⟩ := h; cases h
  | some spec =>
    dsimp only
    split
    · exact .failed fun h => by obtain ⟨⟨_, h⟩, -⟩ := h; cases h
    · next hpos =>
      rcases d.addOperatorTerminal_cases category spec.fixity with
        ⟨t, d', hprovides, heq⟩ | ⟨e, heq, he⟩
      · rw [heq]
        dsimp only
        unfold Operator.checked
        by_cases hmax : maxPriority < priority
        · rw [if_pos hmax]
          exact .overreached hspec hmax hprovides
        · rw [if_neg hmax]
          exact .operator hspec (Nat.pos_of_ne_zero hpos) (Nat.le_of_not_lt hmax) hprovides
      · rw [heq]
        exact .failed fun h => by obtain ⟨⟨priority, h⟩, -⟩ := h; exact he _ h

/-- What a declaration gives and does is one of the results listed. -/
theorem carried_declare (d : Definition) (step : Declaration) :
    d.Carried step (d.declare step).1 (d.declare step).2 := by
  cases step with
  | terminal name precedence =>
    rw [declare]
    rcases d.addTerminal_cases ⟨name, precedence, .plain⟩ with ⟨hadmits, heq⟩ | ⟨e, heq, -⟩
    · rw [heq]
      exact .terminal hadmits
    · rw [heq]
      exact .failed (not_leavesTerminal e rfl)
  | tag name precedence =>
    rw [declare]
    rcases d.addTerminal_cases ⟨name, some precedence, .tag⟩ with ⟨hadmits, heq⟩ | ⟨e, heq, -⟩
    · rw [heq]
      exact .tag hadmits
    · rw [heq]
      exact .failed (not_leavesTerminal e rfl)
  | nonterminal name =>
    rw [declare]
    rcases d.addNonterminal_cases name with ⟨hadmits, heq⟩ | ⟨e, heq⟩
    · rw [heq]
      exact .nonterminal hadmits
    · rw [heq]
      exact .failed (not_leavesTerminal e rfl)
  | operatorTerminal category fixity =>
    rw [declare]
    rcases d.addOperatorTerminal_cases category fixity with
      ⟨t, d', hprovides, heq⟩ | ⟨e, heq, -⟩
    · rw [heq]
      exact .operatorTerminal hprovides
    · rw [heq]
      exact .failed (not_leavesTerminal e rfl)
  | operator name specifier priority category =>
    exact d.carried_addOperator name specifier priority category
  | rule left body tag =>
    rw [declare, addRule]
    cases hfault : d.ruleFault ⟨left, body, tag⟩ with
    | some e => exact .failed (not_leavesTerminal e rfl)
    | none => exact .rule hfault
  | start n =>
    rw [declare, setStart]
    by_cases hn : d.declaresNonterminal n = true
    · rw [if_pos hn]
      exact .start hn
    · rw [if_neg hn]
      exact .failed (not_leavesTerminal _ rfl)

/-- The terminal that a definition provides is what its own declaration gives. -/
theorem Provides.declare {category : NonterminalId} {fixity : Fixity} {t : TerminalId}
    (h : d.Provides category fixity t d') :
    d.declare (.operatorTerminal category fixity) = (.ok (.terminal t), d') := by
  rw [Definition.declare]
  unfold addOperatorTerminal
  cases h with
  | known h =>
    rw [h]
    rfl
  | added hnew hname hcategory hadmits =>
    rw [hnew, hname]
    dsimp only
    rw [if_neg hcategory, hadmits.addTerminal]
    rfl

/-- Carrying out declarations one after the other. -/
theorem declareLeniently_append (d : Definition) (front back : List Declaration) :
    (d.declareLeniently (front ++ back)).2 =
      ((d.declareLeniently front).2.declareLeniently back).2 := by
  induction front generalizing d with
  | nil => rfl
  | cons step front ih => exact ih _

/-- A failure leaves the definition as it was, except for the terminal of an operator. Then the
definition is that in which the terminal alone is declared. -/
theorem declare_error {step : Declaration} {e : GrammarError}
    (h : (d.declare step).1 = .error e) :
    (¬ d.LeavesTerminal step e ∧ (d.declare step).2 = d) ∨
    (d.LeavesTerminal step e ∧ (d.declare step).2 ≠ d ∧
      ∃ category fixity, step.slot? = some (category, fixity) ∧
        (d.declare step).2 = (d.declare (.operatorTerminal category fixity)).2) := by
  have hcarried := d.carried_declare step
  rw [h] at hcarried
  generalize (d.declare step).2 = d' at hcarried ⊢
  cases hcarried with
  | failed hleaves => exact .inl ⟨hleaves, rfl⟩
  | overreached hspec hmax hprovides =>
    rename_i name specifier priority category spec t
    have hslot : (Declaration.operator name specifier priority category).slot? =
        some (category, spec.fixity) := by
      rw [Declaration.slot?, hspec]
      rfl
    cases hprovides with
    | known hknown =>
      refine .inl ⟨?_, rfl⟩
      rintro ⟨-, slot, hslot', hnone⟩
      obtain rfl := Option.some.inj (hslot.symm.trans hslot')
      cases hknown.symm.trans hnone
    | added hnew hname hcategory hadmits =>
      refine .inr ⟨⟨⟨priority, rfl⟩, _, hslot, hnew⟩, ?_, category, spec.fixity, hslot, ?_⟩
      · intro hsame
        have hlength := congrArg (fun d : Definition => d.terminals.length) hsame
        simp [withOperatorTerminal] at hlength
      · rw [(Provides.added hnew hname hcategory hadmits).declare]

/-- A declaration that fails after others leaves the definition as it was, unless it is that of an
operator with a priority out of range for whose category and place there is no terminal yet. In
every other case the grammar is the same without the failed declaration, whatever follows; in this
one it is the same as with the declaration of the terminal in its place. -/
theorem failed_declare_iff {front : List Declaration} {step : Declaration} {e : GrammarError}
    (h : ((initial.declareLeniently front).2.declare step).1 = .error e) :
    let d := (initial.declareLeniently front).2
    ((d.declare step).2 = d ↔ ¬ d.LeavesTerminal step e) ∧
    (¬ d.LeavesTerminal step e → ∀ back,
      (Grammar.defineLeniently (front ++ step :: back)).2 =
        (Grammar.defineLeniently (front ++ back)).2) ∧
    (d.LeavesTerminal step e → ∃ category fixity, step.slot? = some (category, fixity) ∧ ∀ back,
      (Grammar.defineLeniently (front ++ step :: back)).2 =
        (Grammar.defineLeniently (front ++ .operatorTerminal category fixity :: back)).2) := by
  intro d
  have hdefine : ∀ steps : List Declaration, (Grammar.defineLeniently (front ++ steps)).2 =
      (d.declareLeniently steps).2.finish := fun steps =>
    congrArg finish (declareLeniently_append initial front steps)
  simp only [hdefine]
  rcases declare_error h with ⟨hleaves, hsame⟩ | ⟨hleaves, hchanged, category, fixity, hslot, heq⟩
  · refine ⟨⟨fun _ => hleaves, fun _ => hsame⟩, fun _ back => ?_, fun h => absurd h hleaves⟩
    exact congrArg (fun d' : Definition => (d'.declareLeniently back).2.finish) hsame
  · refine ⟨⟨fun h => absurd h hchanged, fun h => absurd hleaves h⟩, fun h => absurd hleaves h,
      fun _ => ⟨category, fixity, hslot, fun back => ?_⟩⟩
    exact congrArg (fun d' : Definition => (d'.declareLeniently back).2.finish) heq

/-- A second start symbol that has not been declared: the failure leaves nothing behind. -/
theorem failed_declare_iff_start :
    let d := (initial.declareLeniently [.nonterminal "E", .start ⟨1⟩]).2
    (d.declare (.start ⟨2⟩)).1 = .error (.invalidStart ⟨2⟩) ∧ (d.declare (.start ⟨2⟩)).2 = d := by
  have hfail : ((initial.declareLeniently [.nonterminal "E", .start ⟨1⟩]).2.declare
      (.start ⟨2⟩)).1 = .error (.invalidStart ⟨2⟩) := rfl
  exact ⟨hfail, (failed_declare_iff hfail).1.mpr (not_leavesTerminal _ rfl)⟩

/-- An operator with a priority out of range fails, and leaves the terminal for its place, so that
the terminal declared next gets another index and the rule another body. -/
theorem failed_operator_leaves_terminal :
    let front : List Declaration := [.nonterminal "E"]
    let step : Declaration := .operator "+" "yfx" 1201 ⟨1⟩
    let back : List Declaration := [.terminal "n" none, .rule ⟨1⟩ [.terminal ⟨1⟩] none]
    let d := (initial.declareLeniently front).2
    (d.declare step).1 = .error (.operator (.priorityOutOfRange 1201)) ∧
    (d.declare step).2 ≠ d ∧
    (Grammar.defineLeniently (front ++ step :: back)).2 ≠
      (Grammar.defineLeniently (front ++ back)).2 := by
  intro front step back d
  refine ⟨rfl, by decide +kernel, fun hsame => ?_⟩
  have hsame := congrArg Except.toOption hsame
  revert hsame
  decide +kernel

end Definition

/-- The reasons for which declarations have failed, in order. -/
def failures (results : List (Except GrammarError Declared)) : List GrammarError :=
  results.filterMap fun
    | .error e => some e
    | .ok _ => none

/-- The first result comes in front of the others. -/
theorem failures_cons (result : Except GrammarError Declared)
    (results : List (Except GrammarError Declared)) :
    failures (result :: results) = failures [result] ++ failures results :=
  List.filterMap_append (l := [result])

namespace Grammar

/-- What has been declared before the last result does not matter for the grammar. -/
theorem ofDeclared_cons (declared : Declared) (results : List (Except GrammarError Declared))
    (d : Definition) : ofDeclared (.ok declared :: results) d = ofDeclared results d := by
  cases results with
  | nil => rfl
  | cons result results => rw [ofDeclared, ofDeclared, List.getLast?_cons_cons]

/-- A definition that ends with the first failure is the one with failures skipped, if there are
none. -/
theorem define_eq (steps : List Declaration) :
    (define steps).2 = match failures (defineLeniently steps).1 with
      | [] => (defineLeniently steps).2
      | e :: _ => .error e := by
  have hdeclared : ∀ (steps : List Declaration) (d : Definition),
      ofDeclared (d.declareAll steps).1 (d.declareAll steps).2 =
        match failures (d.declareLeniently steps).1 with
        | [] => (d.declareLeniently steps).2.finish
        | e :: _ => .error e := by
    intro steps
    induction steps with
    | nil => exact fun d => rfl
    | cons step steps ih =>
      intro d
      rw [Definition.declareAll, Definition.declareLeniently]
      split
      · next e d' heq =>
        rw [heq]
        rfl
      · next declared d' heq =>
        rw [heq]
        exact (ofDeclared_cons declared _ _).trans (ih d')
  exact hdeclared steps .initial

/-- A grammar that is defined without a failure is the one defined with failures skipped. -/
theorem defineLeniently_of_define {steps : List Declaration} {g : Grammar}
    (h : (define steps).2 = .ok g) : (defineLeniently steps).2 = .ok g := by
  rw [define_eq] at h
  split at h
  · exact h
  · cases h

end Grammar

end OperatorLALR
