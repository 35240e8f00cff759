import OperatorLALR.Grammar.Definition

/-!
# What a definition guarantees

Whatever declarations a definition consists of, and whether failures are skipped, every symbol in a
rule is declared and not one of the reserved ones, and no operator is read as the end of the input.
So a grammar that is defined is `WellFormed`: it has the rule of the augmented start symbol first,
and this symbol and the end of the input occur nowhere else.
-/

namespace OperatorLALR

/-- A check of an operator gives it back. -/
theorem Operator.checked_eq {op checked : Operator} (h : op.checked = .ok checked) :
    checked = op := by
  unfold Operator.checked at h
  split at h
  · cases h
  · exact (Except.ok.inj h).symm

namespace Definition

/-- Whether a symbol has been declared by the author of the grammar. -/
def declares (d : Definition) : Symbol → Bool
  | .terminal t => d.declaresTerminal t
  | .nonterminal n => d.declaresNonterminal n

/-- Every symbol in use has been declared by the author of the grammar. -/
structure WellFormed (d : Definition) : Prop where
  terminals_pos : 0 < d.terminals.length
  nonterminals_pos : 0 < d.nonterminals.length
  rules : ∀ rule ∈ d.rules, d.declaresNonterminal rule.left = true ∧
    ∀ symbol ∈ rule.body, d.declares symbol = true
  start : ∀ n, d.start = some n → d.declaresNonterminal n = true
  operatorTerminals : ∀ slot t, d.operatorTerminals.find? slot = some t →
    d.declaresTerminal t = true
  operators : ∀ op ∈ d.operators.toList, d.declaresTerminal op.terminal = true

variable {d : Definition}

theorem declaresTerminal_iff {t : TerminalId} :
    d.declaresTerminal t = true ↔ t ≠ endOfInput ∧ t.val < d.terminals.length := by
  simp [declaresTerminal]

theorem declaresNonterminal_iff {n : NonterminalId} :
    d.declaresNonterminal n = true ↔ n ≠ augmentedStart ∧ n.val < d.nonterminals.length := by
  simp [declaresNonterminal]

namespace WellFormed

/-- The reserved symbols are in no use. -/
theorem initial : WellFormed .initial where
  terminals_pos := by decide
  nonterminals_pos := by decide
  rules := by simp [Definition.initial]
  start := by simp [Definition.initial]
  operatorTerminals := by simp [Definition.initial]
  operators := by
    intro op hop
    cases hop

/-- Declared symbols stay declared when more are declared. -/
theorem grow (h : d.WellFormed) (ts : List Terminal) (ns : List String) :
    WellFormed { d with terminals := d.terminals ++ ts, nonterminals := d.nonterminals ++ ns } := by
  have hterminal : ∀ t, d.declaresTerminal t = true → declaresTerminal
      { d with terminals := d.terminals ++ ts, nonterminals := d.nonterminals ++ ns } t = true := by
    intro t ht
    rw [declaresTerminal_iff] at ht ⊢
    refine ⟨ht.1, ?_⟩
    rw [List.length_append]
    omega
  have hnonterminal : ∀ n, d.declaresNonterminal n = true → declaresNonterminal
      { d with terminals := d.terminals ++ ts, nonterminals := d.nonterminals ++ ns } n = true := by
    intro n hn
    rw [declaresNonterminal_iff] at hn ⊢
    refine ⟨hn.1, ?_⟩
    rw [List.length_append]
    omega
  constructor
  · rw [List.length_append]
    exact Nat.lt_add_right _ h.terminals_pos
  · rw [List.length_append]
    exact Nat.lt_add_right _ h.nonterminals_pos
  · intro rule hrule
    obtain ⟨hleft, hbody⟩ := h.rules rule hrule
    refine ⟨hnonterminal _ hleft, ?_⟩
    intro symbol hsymbol
    have hdeclared := hbody symbol hsymbol
    cases symbol with
    | terminal t => exact hterminal t hdeclared
    | nonterminal n => exact hnonterminal n hdeclared
  · exact fun n hn => hnonterminal n (h.start n hn)
  · exact fun slot t ht => hterminal t (h.operatorTerminals slot t ht)
  · exact fun op hop => hterminal _ (h.operators op hop)

/-- Adding a terminal, and what is known of it. -/
theorem addTerminal (h : d.WellFormed) (t : Terminal) :
    (d.addTerminal t).2.WellFormed ∧
      ∀ i, (d.addTerminal t).1 = .ok i → (d.addTerminal t).2.declaresTerminal i = true := by
  unfold Definition.addTerminal
  split
  · exact ⟨h, nofun⟩
  · split
    · exact ⟨h, nofun⟩
    · split
      · exact ⟨h, nofun⟩
      · refine ⟨by simpa using h.grow [t] [], ?_⟩
        intro i hi
        obtain rfl := Except.ok.inj hi
        have hpos := h.terminals_pos
        rw [declaresTerminal_iff]
        refine ⟨?_, by simp⟩
        intro heq
        have hval : d.terminals.length = 0 := congrArg Index.val heq
        omega

/-- Adding a nonterminal. -/
theorem addNonterminal (h : d.WellFormed) (name : String) :
    (d.addNonterminal name).2.WellFormed := by
  unfold Definition.addNonterminal
  split
  · exact h
  · split
    · exact h
    · split
      · exact h
      · simpa using h.grow [] [name]

/-- A declared terminal may be set down for the operators of a category at a place. -/
theorem insertOperatorTerminal (h : d.WellFormed) (slot : NonterminalId × Fixity)
    {t : TerminalId} (ht : d.declaresTerminal t = true) :
    { d with operatorTerminals := d.operatorTerminals.insert slot t }.WellFormed := by
  refine ⟨h.terminals_pos, h.nonterminals_pos, h.rules, h.start, ?_, h.operators⟩
  intro slot' t' ht'
  rw [OrderedMap.find?_insert] at ht'
  split at ht'
  · obtain rfl := Option.some.inj ht'
    exact ht
  · exact h.operatorTerminals slot' t' ht'

/-- Adding the terminal for the operators of a category at a place. -/
theorem addOperatorTerminal (h : d.WellFormed) (category : NonterminalId) (fixity : Fixity) :
    (d.addOperatorTerminal category fixity).2.WellFormed ∧
      ∀ t, (d.addOperatorTerminal category fixity).1 = .ok t →
        (d.addOperatorTerminal category fixity).2.declaresTerminal t = true := by
  unfold Definition.addOperatorTerminal
  split
  · next t ht =>
    refine ⟨h, ?_⟩
    intro t' ht'
    obtain rfl := Except.ok.inj ht'
    exact h.operatorTerminals _ _ ht
  · split
    · next name _ =>
      split
      · exact ⟨h, nofun⟩
      · obtain ⟨hadd, hnew⟩ :=
          h.addTerminal ⟨operatorTerminalName name fixity, none, .operator category fixity⟩
        split
        · next e d' heq =>
          rw [heq] at hadd
          exact ⟨hadd, nofun⟩
        · next t d' heq =>
          rw [heq] at hadd hnew
          have ht : d'.declaresTerminal t = true := hnew t rfl
          refine ⟨hadd.insertOperatorTerminal _ ht, fun t' ht' => ?_⟩
          obtain rfl := Except.ok.inj ht'
          exact ht
    · exact ⟨h, nofun⟩

/-- Adding an operator. -/
theorem addOperator (h : d.WellFormed) (name specifier : String) (priority : Nat)
    (category : NonterminalId) :
    (d.addOperator name specifier priority category).2.WellFormed := by
  unfold Definition.addOperator
  split
  · exact h
  · next spec _ =>
    split
    · exact h
    · obtain ⟨hadd, hnew⟩ := h.addOperatorTerminal category spec.fixity
      split
      · next e d' heq =>
        rw [heq] at hadd
        exact hadd
      · next t d' heq =>
        rw [heq] at hadd hnew
        have ht : d'.declaresTerminal t = true := hnew t rfl
        dsimp only
        split
        · exact hadd
        · next op hop =>
          refine ⟨hadd.terminals_pos, hadd.nonterminals_pos, hadd.rules, hadd.start,
            hadd.operatorTerminals, ?_⟩
          intro other hother
          rcases OperatorTable.eq_or_mem_of_mem_define hother with rfl | hother
          · rw [Operator.checked_eq hop]
            exact ht
          · exact hadd.operators other hother

/-- A symbol that may stand in a body is declared. -/
theorem declares_of_bodyFault {symbol : Symbol} (h : d.bodyFault symbol = none) :
    d.declares symbol = true := by
  cases symbol with
  | terminal t =>
    rw [bodyFault] at h
    split at h
    · next terminal ht =>
      split at h
      · cases h
      · split at h
        · cases h
        · next hne =>
          exact declaresTerminal_iff.mpr ⟨hne, (List.getElem?_eq_some_iff.mp ht).1⟩
    · cases h
  | nonterminal n =>
    rw [bodyFault] at h
    split at h
    · next hn => exact hn
    · cases h

/-- Adding a rule. -/
theorem addRule (h : d.WellFormed) (rule : Rule) : (d.addRule rule).2.WellFormed := by
  unfold Definition.addRule
  split
  · exact h
  · next hfault =>
    have hrule : d.declaresNonterminal rule.left = true ∧
        ∀ symbol ∈ rule.body, d.declares symbol = true := by
      unfold ruleFault at hfault
      split at hfault
      · cases hfault
      · next hleft =>
        split at hfault
        · cases hfault
        · split at hfault
          · cases hfault
          · next hbody =>
            rw [List.findSome?_eq_none_iff] at hbody
            exact ⟨by simpa using hleft, fun symbol hs => declares_of_bodyFault (hbody symbol hs)⟩
    refine ⟨h.terminals_pos, h.nonterminals_pos, ?_, h.start, h.operatorTerminals, h.operators⟩
    intro other hother
    rcases List.mem_append.mp hother with hother | hother
    · exact h.rules other hother
    · rw [List.mem_singleton.mp hother]
      exact hrule

/-- Naming the start symbol. -/
theorem setStart (h : d.WellFormed) (n : NonterminalId) : (d.setStart n).2.WellFormed := by
  unfold Definition.setStart
  split
  · next hn =>
    refine ⟨h.terminals_pos, h.nonterminals_pos, h.rules, ?_, h.operatorTerminals, h.operators⟩
    intro n' hn'
    obtain rfl := Option.some.inj hn'
    exact hn
  · exact h

/-- Every declaration keeps a definition well-formed, also one that fails. -/
theorem declare (h : d.WellFormed) (step : Declaration) : (d.declare step).2.WellFormed := by
  cases step with
  | terminal name precedence => exact (h.addTerminal _).1
  | tag name precedence => exact (h.addTerminal _).1
  | nonterminal name => exact h.addNonterminal name
  | operatorTerminal category fixity => exact (h.addOperatorTerminal category fixity).1
  | operator name specifier priority category =>
    exact h.addOperator name specifier priority category
  | rule left body tag => exact h.addRule ⟨left, body, tag⟩
  | start n => exact h.setStart n

/-- Declarations up to the first failure keep a definition well-formed. -/
theorem declareAll (h : d.WellFormed) (steps : List Declaration) :
    (d.declareAll steps).2.WellFormed := by
  induction steps generalizing d with
  | nil => exact h
  | cons step steps ih =>
    have hstep := h.declare step
    rw [Definition.declareAll]
    split
    · next e d' heq =>
      rw [heq] at hstep
      exact hstep
    · next declared d' heq =>
      rw [heq] at hstep
      exact ih hstep

/-- Declarations with failures skipped keep a definition well-formed. -/
theorem declareLeniently (h : d.WellFormed) (steps : List Declaration) :
    (d.declareLeniently steps).2.WellFormed := by
  induction steps generalizing d with
  | nil => exact h
  | cons step steps ih => exact ih (h.declare step)

end WellFormed

end Definition

namespace Grammar

/-- Whether a symbol has been declared by the author of the grammar. -/
def Declares (g : Grammar) : Symbol → Prop
  | .terminal t => t ≠ endOfInput ∧ t.val < g.terminals.length
  | .nonterminal n => n ≠ augmentedStart ∧ n.val < g.nonterminals.length

/-- Rules use declared symbols only, except that the first rule derives the start symbol from the
augmented one. -/
structure WellFormed (g : Grammar) : Prop where
  accept : g.rule? acceptRule = some ⟨augmentedStart, [.nonterminal g.start], none⟩
  left : ∀ r rule, g.rule? r = some rule → r ≠ acceptRule → g.Declares (.nonterminal rule.left)
  body : ∀ r rule, g.rule? r = some rule → ∀ symbol ∈ rule.body, g.Declares symbol
  terminals_pos : 0 < g.terminals.length
  nonterminals_pos : 0 < g.nonterminals.length
  operatorTerminals : ∀ slot t, g.operatorTerminals.find? slot = some t → t ≠ endOfInput
  operators : ∀ op ∈ g.operators.toList, op.terminal ≠ endOfInput

/-- A grammar is given by declarations, whether those that fail end the definition or not. -/
def IsDefined (g : Grammar) : Prop :=
  ∃ steps, (define steps).2 = .ok g ∨ (defineLeniently steps).2 = .ok g

end Grammar

/-- The start symbol has been declared. -/
theorem Definition.WellFormed.chosenStart {d : Definition} {n : NonterminalId}
    (h : d.WellFormed) (hn : d.chosenStart = .ok n) : d.declaresNonterminal n = true := by
  unfold Definition.chosenStart at hn
  split at hn
  · next n' hstart =>
    rw [← Except.ok.inj hn]
    exact h.start n' hstart
  · split at hn
    · next hlength =>
      rw [← Except.ok.inj hn]
      exact Definition.declaresNonterminal_iff.mpr ⟨by decide, hlength⟩
    · cases hn

/-- A well-formed definition gives a well-formed grammar. -/
theorem Definition.WellFormed.finish {d : Definition} {g : Grammar} (h : d.WellFormed)
    (hg : d.finish = .ok g) : g.WellFormed := by
  unfold Definition.finish at hg
  split at hg
  · cases hg
  · next start hstart =>
    dsimp only at hg
    split at hg
    · cases hg
    · obtain rfl := Except.ok.inj hg
      have hdeclares : ∀ symbol, d.declares symbol = true → Grammar.Declares
          ⟨d.terminals, d.nonterminals, ⟨augmentedStart, [.nonterminal start], none⟩ :: d.rules,
            start, d.operators, d.operatorTerminals⟩ symbol := by
        intro symbol hsymbol
        cases symbol with
        | terminal t => exact Definition.declaresTerminal_iff.mp hsymbol
        | nonterminal n => exact Definition.declaresNonterminal_iff.mp hsymbol
      have hstart' : d.declares (.nonterminal start) = true := h.chosenStart hstart
      refine ⟨rfl, ?_, ?_, h.terminals_pos, h.nonterminals_pos, ?_, ?_⟩
      · rintro ⟨r⟩ rule hrule hne
        cases r with
        | zero => exact absurd rfl hne
        | succ r =>
          have hmem : rule ∈ d.rules := List.mem_of_getElem? hrule
          exact hdeclares (.nonterminal rule.left) (h.rules rule hmem).1
      · rintro ⟨r⟩ rule hrule symbol hsymbol
        cases r with
        | zero =>
          obtain rfl := Option.some.inj hrule
          rw [List.mem_singleton.mp hsymbol]
          exact hdeclares _ hstart'
        | succ r =>
          have hmem : rule ∈ d.rules := List.mem_of_getElem? hrule
          exact hdeclares symbol ((h.rules rule hmem).2 symbol hsymbol)
      · exact fun slot t ht =>
          (Definition.declaresTerminal_iff.mp (h.operatorTerminals slot t ht)).1
      · exact fun op hop => (Definition.declaresTerminal_iff.mp (h.operators op hop)).1

/-- A grammar that is defined is well-formed. -/
theorem Grammar.IsDefined.wellFormed {g : Grammar} (h : g.IsDefined) : g.WellFormed := by
  obtain ⟨steps, hg | hg⟩ := h
  · have hd : (Definition.initial.declareAll steps).2.WellFormed :=
      Definition.WellFormed.initial.declareAll steps
    have hfinish : Grammar.ofDeclared (Definition.initial.declareAll steps).1
        (Definition.initial.declareAll steps).2 = .ok g := hg
    unfold Grammar.ofDeclared at hfinish
    split at hfinish
    · cases hfinish
    · exact hd.finish hfinish
  · exact (Definition.WellFormed.initial.declareLeniently steps).finish hg

end OperatorLALR
