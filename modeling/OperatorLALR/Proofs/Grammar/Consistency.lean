import OperatorLALR.Proofs.Grammar.Declarations
import OperatorLALR.Proofs.Grammar.WellFormed

/-!
# Consistent grammars

Whatever is declared in whatever order, with failures skipped, a definition stays
`Definition.Consistent`: names are unique, rules are distinct and consist of declared symbols, and
the terminals of operators, the map that finds them and the table of operators agree. What has been
declared keeps its index (`Definition.Within`). So a grammar that is defined is
`Grammar.Consistent`, and it contains what each declaration introduced under the index that the
declaration gave (`defined_consistent`).
-/

namespace OperatorLALR

namespace Definition

variable {d d' d'' : Definition}

/-- One definition goes on from another: what has been declared keeps its index. -/
structure Within (d d' : Definition) : Prop where
  terminals : d.terminals <+: d'.terminals
  nonterminals : d.nonterminals <+: d'.nonterminals
  rules : d.rules <+: d'.rules
  operatorTerminals : ∀ slot t, d.operatorTerminals.find? slot = some t →
    d'.operatorTerminals.find? slot = some t

/-- An element of a list stays at its place in one that goes on. -/
theorem getElem?_of_isPrefix {α : Type} {xs ys : List α} {i : Nat} {x : α} (h : xs <+: ys)
    (hx : xs[i]? = some x) : ys[i]? = some x := by
  obtain ⟨zs, rfl⟩ := h
  rwa [List.getElem?_append_left (List.getElem?_eq_some_iff.mp hx).1]

/-- A value is added to values without repetitions. -/
theorem nodup_concat {α : Type} {xs : List α} {x : α} (h : xs.Nodup) (hnew : x ∉ xs) :
    (xs ++ [x]).Nodup := by
  refine List.nodup_append.mpr ⟨h, by simp, ?_⟩
  rintro y hy z hz rfl
  exact hnew (List.mem_singleton.mp hz ▸ hy)

namespace Within

theorem refl (d : Definition) : d.Within d :=
  ⟨List.prefix_rfl, List.prefix_rfl, List.prefix_rfl, fun _ _ h => h⟩

theorem trans (h : d.Within d') (h' : d'.Within d'') : d.Within d'' :=
  ⟨h.terminals.trans h'.terminals, h.nonterminals.trans h'.nonterminals, h.rules.trans h'.rules,
    fun slot t ht => h'.operatorTerminals slot t (h.operatorTerminals slot t ht)⟩

/-- A declared terminal stays declared. -/
theorem declaresTerminal (h : d.Within d') {t : TerminalId} (ht : d.declaresTerminal t = true) :
    d'.declaresTerminal t = true := by
  rw [declaresTerminal_iff] at ht ⊢
  exact ⟨ht.1, Nat.lt_of_lt_of_le ht.2 h.terminals.length_le⟩

/-- A declared nonterminal stays declared. -/
theorem declaresNonterminal (h : d.Within d') {n : NonterminalId}
    (hn : d.declaresNonterminal n = true) : d'.declaresNonterminal n = true := by
  rw [declaresNonterminal_iff] at hn ⊢
  exact ⟨hn.1, Nat.lt_of_lt_of_le hn.2 h.nonterminals.length_le⟩

end Within

/-- Providing a terminal for operators adds at most this terminal. -/
theorem Provides.within {category : NonterminalId} {fixity : Fixity} {t : TerminalId}
    (h : d.Provides category fixity t d') :
    d.Within d' ∧ d'.operatorTerminals.find? (category, fixity) = some t := by
  cases h with
  | known h => exact ⟨.refl d, h⟩
  | added hnew =>
    refine ⟨⟨List.prefix_append _ _, List.prefix_rfl, List.prefix_rfl, fun slot t ht => ?_⟩, ?_⟩
    · rw [withOperatorTerminal, OrderedMap.find?_insert, if_neg, ht]
      rintro rfl
      cases hnew.symm.trans ht
    · rw [withOperatorTerminal, OrderedMap.find?_insert, if_pos rfl]

/-- A declaration, failed or not, leaves what was declared before. -/
theorem Carried.within {step : Declaration} {result : Except GrammarError Declared}
    (h : d.Carried step result d') : d.Within d' := by
  cases h with
  | failed => exact .refl d
  | start => exact { Within.refl d with }
  | terminal | tag => exact { Within.refl d with terminals := List.prefix_append _ _ }
  | nonterminal => exact { Within.refl d with nonterminals := List.prefix_append _ _ }
  | operatorTerminal h => exact h.within.1
  | operator hspec hpos hmax h => exact { h.within.1 with }
  | overreached hspec hmax h => exact h.within.1
  | rule => exact { Within.refl d with rules := List.prefix_append _ _ }

/-- Declarations leave what was declared before. -/
theorem within_declareLeniently (d : Definition) (steps : List Declaration) :
    d.Within (d.declareLeniently steps).2 := by
  induction steps generalizing d with
  | nil => exact .refl d
  | cons step steps ih => exact (d.carried_declare step).within.trans (ih _)

/-- A rule is made of what a definition declares. -/
structure Permits (d : Definition) (rule : Rule) : Prop where
  left : d.declaresNonterminal rule.left = true
  terminals : ∀ t, .terminal t ∈ rule.body → t ≠ endOfInput ∧
    ∃ terminal, d.terminals[t.val]? = some terminal ∧ terminal.isTag = false
  nonterminals : ∀ n, .nonterminal n ∈ rule.body → d.declaresNonterminal n = true
  length_body : rule.body.length ≤ indexLimit
  tag : ∀ t, rule.tag = some t → d.declaresTerminal t = true

/-- A rule stays permitted. -/
theorem Permits.mono {rule : Rule} (h : d.Permits rule) (hwithin : d.Within d') :
    d'.Permits rule := by
  refine ⟨hwithin.declaresNonterminal h.left, fun t ht => ?_, fun n hn =>
    hwithin.declaresNonterminal (h.nonterminals n hn), h.length_body, fun t ht =>
    hwithin.declaresTerminal (h.tag t ht)⟩
  obtain ⟨hne, terminal, hterminal, htag⟩ := h.terminals t ht
  exact ⟨hne, terminal, getElem?_of_isPrefix hwithin.terminals hterminal, htag⟩

/-- A terminal without a fault is declared and no tag. -/
theorem terminal_of_bodyFault {t : TerminalId} (h : d.bodyFault (.terminal t) = none) :
    t ≠ endOfInput ∧ ∃ terminal, d.terminals[t.val]? = some terminal ∧ terminal.isTag = false := by
  rw [bodyFault] at h
  split at h
  · next terminal hterminal =>
    split at h
    · cases h
    · next htag =>
      split at h
      · cases h
      · next hne => exact ⟨hne, terminal, hterminal, by simpa using htag⟩
  · cases h

/-- A rule without a fault is permitted and new, and there is an index left for it. -/
theorem permits_of_ruleFault {rule : Rule} (h : d.ruleFault rule = none) :
    d.Permits rule ∧ (∀ other ∈ d.rules, (other.left, other.body) ≠ (rule.left, rule.body)) ∧
      d.rules.length + 1 < indexLimit := by
  unfold ruleFault at h
  split at h
  · cases h
  · next hleft =>
    split at h
    · cases h
    · next hlength =>
      split at h
      · cases h
      · next hbody =>
        rw [List.findSome?_eq_none_iff] at hbody
        split at h
        · cases h
        · next htag =>
          split at h
          · cases h
          · next hnew =>
            split at h
            · cases h
            · next hroom =>
              refine ⟨⟨by simpa using hleft, fun t ht => terminal_of_bodyFault (hbody _ ht), ?_,
                Nat.le_of_not_lt hlength, ?_⟩, ?_, Nat.lt_of_not_le hroom⟩
              · exact fun n hn => WellFormed.declares_of_bodyFault (hbody _ hn)
              · intro t ht
                simpa using Option.filter_eq_none_iff.mp htag t ht
              · intro other hother heq
                obtain ⟨hleft', hbody'⟩ := Prod.mk.inj heq
                exact hnew (List.any_eq_true.mpr ⟨other, hother, by simp [hleft', hbody']⟩)

/-- An operator has its priority in range, and the terminal and the name of its category. -/
structure Registers (d : Definition) (op : Operator) : Prop where
  pos : 0 < op.priority
  le_max : op.priority ≤ maxPriority
  terminal : d.operatorTerminals.find? (op.category, op.fixity) = some op.terminal
  category : d.nonterminals[op.category.val]? = some op.categoryName

/-- An operator stays registered. -/
theorem Registers.mono {op : Operator} (h : d.Registers op) (hwithin : d.Within d') :
    d'.Registers op :=
  ⟨h.pos, h.le_max, hwithin.operatorTerminals _ _ h.terminal,
    getElem?_of_isPrefix hwithin.nonterminals h.category⟩

/-- What the declarations keep. -/
structure Consistent (d : Definition) : Prop where
  endOfInput : d.terminals[0]? = some .endOfInput
  augmentedStart : d.nonterminals[0]? = some augmentedStartName
  length_terminals : d.terminals.length ≤ indexLimit
  length_nonterminals : d.nonterminals.length ≤ indexLimit
  length_rules : d.rules.length < indexLimit
  terminalNames : (d.terminals.map Terminal.name).Nodup
  nonterminalNames : d.nonterminals.Nodup
  rules : ∀ rule ∈ d.rules, d.Permits rule
  distinct : (d.rules.map fun rule => (rule.left, rule.body)).Nodup
  start : ∀ n, d.start = some n → d.declaresNonterminal n = true
  slots : d.operatorTerminals.keys.Nodup
  categories : ∀ category fixity t, d.operatorTerminals.find? (category, fixity) = some t →
    d.declaresNonterminal category = true
  /-- The terminals found for categories and places are those with the role. -/
  roles : ∀ category fixity t, d.operatorTerminals.find? (category, fixity) = some t ↔
    d.terminals[t.val]?.map Terminal.role = some (.operator category fixity)
  operators : ∀ op ∈ d.operators.toList, d.Registers op

/-- The role of a terminal when one has been added behind the others. -/
theorem role_concat {terminals : List Terminal} {t : Terminal} {i : Nat} {role : TerminalRole} :
    (terminals ++ [t])[i]?.map Terminal.role = some role ↔
      terminals[i]?.map Terminal.role = some role ∨ i = terminals.length ∧ t.role = role := by
  rcases Nat.lt_trichotomy i terminals.length with hlt | rfl | hgt
  · simp [List.getElem?_append_left hlt, Nat.ne_of_lt hlt]
  · simp
  · have hlength : (terminals ++ [t]).length ≤ i := by
      rw [List.length_append, List.length_singleton]
      exact hgt
    simp [List.getElem?_eq_none hlength, List.getElem?_eq_none (Nat.le_of_lt hgt),
      Nat.ne_of_gt hgt]

namespace Consistent

theorem initial : Consistent .initial where
  endOfInput := rfl
  augmentedStart := rfl
  length_terminals := by decide
  length_nonterminals := by decide
  length_rules := by decide
  terminalNames := by decide
  nonterminalNames := by decide
  rules := nofun
  distinct := .nil
  start := nofun
  slots := .nil
  categories := nofun
  roles := by
    intro category fixity t
    refine ⟨nofun, fun h => ?_⟩
    obtain ⟨terminal, hterminal, hrole⟩ := Option.map_eq_some_iff.mp h
    obtain rfl := List.mem_singleton.mp (List.mem_of_getElem? hterminal)
    cases hrole
  operators := nofun

/-- There is a first terminal behind which others are added. -/
theorem Admits.concat {t : Terminal} (h : d.Admits t) (hd : d.Consistent) :
    (d.terminals ++ [t])[0]? = some .endOfInput ∧ (d.terminals ++ [t]).length ≤ indexLimit ∧
      ((d.terminals ++ [t]).map Terminal.name).Nodup := by
  refine ⟨getElem?_of_isPrefix (List.prefix_append _ _) hd.endOfInput, ?_, ?_⟩
  · rw [List.length_append]
    exact h.room
  · rw [List.map_append]
    refine nodup_concat hd.terminalNames fun hname => ?_
    obtain ⟨other, hother, heq⟩ := List.mem_map.mp hname
    exact h.fresh other hother heq

/-- A terminal that is not for operators is added. -/
theorem addTerminal {t : Terminal} (h : d.Consistent) (hadmits : d.Admits t)
    (hrole : ∀ category fixity, t.role ≠ .operator category fixity) :
    Consistent { d with terminals := d.terminals ++ [t] } := by
  obtain ⟨hhead, hlength, hnames⟩ := Admits.concat hadmits h
  have hwithin : d.Within { d with terminals := d.terminals ++ [t] } :=
    { Within.refl d with terminals := List.prefix_append _ _ }
  refine { h with
    endOfInput := hhead
    length_terminals := hlength
    terminalNames := hnames
    rules := fun rule hrule => (h.rules rule hrule).mono hwithin
    roles := fun category fixity t' => ?_
    operators := fun op hop => (h.operators op hop).mono hwithin }
  rw [role_concat, ← h.roles]
  exact ⟨.inl, fun hor => hor.resolve_right fun hnew => hrole category fixity hnew.2⟩

/-- A terminal for operators is added. -/
theorem provides {category : NonterminalId} {fixity : Fixity} {t : TerminalId}
    (h : d.Consistent) (hprovides : d.Provides category fixity t d') : d'.Consistent := by
  have hwithin := hprovides.within.1
  cases hprovides with
  | known => exact h
  | added hnew hname hcategory hadmits =>
    obtain ⟨hhead, hlength, hnames⟩ := Admits.concat hadmits h
    refine { h with
      endOfInput := hhead
      length_terminals := hlength
      terminalNames := hnames
      rules := fun rule hrule => (h.rules rule hrule).mono hwithin
      slots := OrderedMap.nodup_keys_update h.slots _ _
      categories := fun category' fixity' t ht => ?_
      roles := fun category' fixity' t => ?_
      operators := fun op hop => (h.operators op hop).mono hwithin }
    · rw [withOperatorTerminal, OrderedMap.find?_insert] at ht
      split at ht
      · next heq =>
        obtain ⟨rfl, rfl⟩ := Prod.mk.inj heq
        exact declaresNonterminal_iff.mpr ⟨hcategory, (List.getElem?_eq_some_iff.mp hname).1⟩
      · exact h.categories category' fixity' t ht
    · rw [withOperatorTerminal, OrderedMap.find?_insert, role_concat, ← h.roles]
      split
      · next heq =>
        obtain ⟨rfl, rfl⟩ := Prod.mk.inj heq
        simp [hnew, Index.ext_iff, eq_comm]
      · next hne =>
        refine ⟨.inl, fun hor => hor.resolve_right ?_⟩
        rintro ⟨-, hrole⟩
        obtain ⟨rfl, rfl⟩ := TerminalRole.operator.inj hrole
        exact hne rfl

/-- The operator that a declaration describes is registered. -/
theorem registers_declaredOperator {name : String} {spec : Specifier} {priority : Nat}
    {category : NonterminalId} {t : TerminalId} (h : d.Consistent) (hpos : 0 < priority)
    (hmax : priority ≤ maxPriority)
    (ht : d.operatorTerminals.find? (category, spec.fixity) = some t) :
    d.Registers (d.declaredOperator name spec priority category t) := by
  refine ⟨hpos, hmax, ht, ?_⟩
  have hlt := (declaresNonterminal_iff.mp (h.categories _ _ _ ht)).2
  rw [declaredOperator]
  dsimp only
  rw [List.getElem?_eq_getElem hlt]
  rfl

/-- Every declaration keeps a definition consistent, also one that fails. -/
theorem carried {step : Declaration} {result : Except GrammarError Declared} (h : d.Consistent)
    (hcarried : d.Carried step result d') : d'.Consistent := by
  have hwithin := hcarried.within
  cases hcarried with
  | failed => exact h
  | terminal hadmits => exact h.addTerminal hadmits nofun
  | tag hadmits => exact h.addTerminal hadmits nofun
  | nonterminal hadmits =>
    refine { h with
      augmentedStart := getElem?_of_isPrefix (List.prefix_append _ _) h.augmentedStart
      length_nonterminals := ?_
      nonterminalNames := nodup_concat h.nonterminalNames hadmits.fresh
      rules := fun rule hrule => (h.rules rule hrule).mono hwithin
      start := fun n hn => hwithin.declaresNonterminal (h.start n hn)
      categories := fun category fixity t ht =>
        hwithin.declaresNonterminal (h.categories category fixity t ht)
      operators := fun op hop => (h.operators op hop).mono hwithin }
    rw [List.length_append]
    exact hadmits.room
  | operatorTerminal hprovides => exact h.provides hprovides
  | operator hspec hpos hmax hprovides =>
    have hd' := h.provides hprovides
    refine { hd' with
      rules := fun rule hrule => { hd'.rules rule hrule with }
      operators := fun op hop => ?_ }
    rcases OperatorTable.eq_or_mem_of_mem_define hop with rfl | hold
    · exact { hd'.registers_declaredOperator hpos hmax hprovides.within.2 with }
    · exact { hd'.operators op hold with }
  | overreached hspec hmax hprovides => exact h.provides hprovides
  | rule hfault =>
    obtain ⟨hpermits, hnew, hroom⟩ := permits_of_ruleFault hfault
    refine { h with
      length_rules := ?_
      rules := fun rule hrule => ?_
      distinct := ?_
      operators := fun op hop => (h.operators op hop).mono hwithin }
    · rw [List.length_append]
      exact hroom
    · rcases List.mem_append.mp hrule with hold | hnew
      · exact (h.rules rule hold).mono hwithin
      · rw [List.mem_singleton.mp hnew]
        exact hpermits.mono hwithin
    · rw [List.map_append]
      refine nodup_concat h.distinct fun hpair => ?_
      obtain ⟨other, hother, heq⟩ := List.mem_map.mp hpair
      exact hnew other hother heq
  | start hn =>
    refine { h with
      rules := fun rule hrule => (h.rules rule hrule).mono hwithin
      start := fun n hn' => ?_
      operators := fun op hop => (h.operators op hop).mono hwithin }
    obtain rfl := Option.some.inj hn'
    exact hn

/-- Declarations keep a definition consistent, also where some fail. -/
theorem declareLeniently (h : d.Consistent) (steps : List Declaration) :
    (d.declareLeniently steps).2.Consistent := by
  induction steps generalizing d with
  | nil => exact h
  | cons step steps ih => exact ih (h.carried (d.carried_declare step))

end Consistent

end Definition

namespace Definition

/-- A definition that finishes gives what it has declared behind the rule of the augmented start
symbol. -/
theorem finish_eq_ok {d : Definition} {g : Grammar} (h : d.finish = .ok g) :
    ∃ start, d.chosenStart = .ok start ∧
      ruleless? (⟨augmentedStart, [.nonterminal start], none⟩ :: d.rules) = none ∧
      g = ⟨d.terminals, d.nonterminals, ⟨augmentedStart, [.nonterminal start], none⟩ :: d.rules,
        start, d.operators, d.operatorTerminals⟩ := by
  unfold finish at h
  split at h
  · cases h
  · next start hstart =>
    dsimp only at h
    split at h
    · cases h
    · next hruleless => exact ⟨start, hstart, hruleless, (Except.ok.inj h).symm⟩

/-- Where no nonterminal is without a rule, all those in bodies have one. -/
theorem exists_rule_of_ruleless? {rules : List Rule} (h : ruleless? rules = none) {rule : Rule}
    (hrule : rule ∈ rules) {n : NonterminalId} (hn : .nonterminal n ∈ rule.body) :
    ∃ other ∈ rules, other.left = n := by
  have hmem : n ∈ rules.flatMap fun rule => rule.body.filterMap Symbol.nonterminal? :=
    List.mem_flatMap.mpr ⟨rule, hrule, List.mem_filterMap.mpr ⟨_, hn, rfl⟩⟩
  simpa using List.find?_eq_none.mp h n hmem

end Definition

namespace Grammar

/-- All that later stages rely on without a check. The index of a symbol or a rule is its place. -/
structure Consistent (g : Grammar) : Prop where
  endOfInput : g.terminal? endOfInput = some .endOfInput
  augmentedStart : g.nonterminalName? augmentedStart = some augmentedStartName
  length_terminals : g.terminals.length ≤ indexLimit
  length_nonterminals : g.nonterminals.length ≤ indexLimit
  length_rules : g.rules.length ≤ indexLimit
  terminalNames : (g.terminals.map Terminal.name).Nodup
  nonterminalNames : g.nonterminals.Nodup
  accept : g.rule? acceptRule = some ⟨OperatorLALR.augmentedStart, [.nonterminal g.start], none⟩
  left : ∀ r rule, g.rule? r = some rule → r ≠ acceptRule → g.Declares (.nonterminal rule.left)
  bodyTerminals : ∀ rule ∈ g.rules, ∀ t, .terminal t ∈ rule.body → t ≠ OperatorLALR.endOfInput ∧
    ∃ terminal, g.terminal? t = some terminal ∧ terminal.isTag = false
  bodyNonterminals : ∀ rule ∈ g.rules, ∀ n, .nonterminal n ∈ rule.body →
    g.Declares (.nonterminal n) ∧ ∃ other ∈ g.rules, other.left = n
  distinct : (g.rules.map fun rule => (rule.left, rule.body)).Nodup
  tags : ∀ rule ∈ g.rules, ∀ t, rule.tag = some t → g.Declares (.terminal t)
  slots : g.operatorTerminals.keys.Nodup
  /-- The terminals found for categories and places are those with the role. -/
  roles : ∀ category fixity t, g.operatorTerminal? category fixity = some t ↔
    (g.terminal? t).map Terminal.role = some (.operator category fixity)
  operators : ∀ op ∈ g.operators.toList, 0 < op.priority ∧ op.priority ≤ maxPriority ∧
    g.operatorTerminal? op.category op.fixity = some op.terminal ∧
    g.nonterminalName? op.category = some op.categoryName

/-- The grammar contains what a declaration has introduced into a definition, under the index that
it gave: the number of those of its kind that were there. Its start symbol is the one that was
named, unless one of the declarations that come later names another. -/
inductive Contains (g : Grammar) (d : Definition) (later : List Declaration) :
    Declaration → Declared → Prop
  | terminal {name : String} {precedence : Option Precedence}
      (h : g.terminal? ⟨d.terminals.length⟩ = some ⟨name, precedence, .plain⟩) :
      Contains g d later (.terminal name precedence) (.terminal ⟨d.terminals.length⟩)
  | tag {name : String} {precedence : Precedence}
      (h : g.terminal? ⟨d.terminals.length⟩ = some ⟨name, some precedence, .tag⟩) :
      Contains g d later (.tag name precedence) (.terminal ⟨d.terminals.length⟩)
  | nonterminal {name : String} (h : g.nonterminalName? ⟨d.nonterminals.length⟩ = some name) :
      Contains g d later (.nonterminal name) (.nonterminal ⟨d.nonterminals.length⟩)
  | operatorTerminal {category : NonterminalId} {fixity : Fixity} {t : TerminalId}
      (hold : d.operatorTerminals.find? (category, fixity) = some t ∨ t = ⟨d.terminals.length⟩)
      (h : g.operatorTerminal? category fixity = some t) :
      Contains g d later (.operatorTerminal category fixity) (.terminal t)
  | operator {name specifier categoryName : String} {priority : Nat} {category : NonterminalId}
      {spec : Specifier} {t : TerminalId} (hspec : Specifier.ofName? specifier = some spec)
      (hold : d.operatorTerminals.find? (category, spec.fixity) = some t ∨
        t = ⟨d.terminals.length⟩)
      (hcategory : g.nonterminalName? category = some categoryName)
      (h : g.operatorTerminal? category spec.fixity = some t) :
      Contains g d later (.operator name specifier priority category)
        (.operator ⟨name, category, categoryName, spec, priority, t⟩)
  | rule {left : NonterminalId} {body : List Symbol} {tag : Option TerminalId}
      (h : g.rule? ⟨d.rules.length + 1⟩ = some ⟨left, body, tag⟩) :
      Contains g d later (.rule left body tag) (.rule ⟨d.rules.length + 1⟩)
  | start {n : NonterminalId} (h : g.start = n ∨ .start g.start ∈ later) :
      Contains g d later (.start n) .start

end Grammar

namespace Definition

variable {d d' : Definition} {g : Grammar}

/-- A consistent definition gives a consistent grammar. -/
theorem Consistent.finish (h : d.Consistent) (hd : d.WellFormed) (hg : d.finish = .ok g) :
    g.Consistent := by
  have hwf := hd.finish hg
  obtain ⟨start, -, hruleless, rfl⟩ := finish_eq_ok hg
  refine
    { endOfInput := h.endOfInput
      augmentedStart := h.augmentedStart
      length_terminals := h.length_terminals
      length_nonterminals := h.length_nonterminals
      length_rules := h.length_rules
      terminalNames := h.terminalNames
      nonterminalNames := h.nonterminalNames
      accept := hwf.accept
      left := hwf.left
      bodyTerminals := ?_
      bodyNonterminals := ?_
      distinct := ?_
      tags := ?_
      slots := h.slots
      roles := h.roles
      operators := ?_ }
  · intro rule hrule t ht
    rcases List.mem_cons.mp hrule with rfl | hrule
    · cases List.mem_singleton.mp ht
    · exact (h.rules rule hrule).terminals t ht
  · intro rule hrule n hn
    obtain ⟨i, hi⟩ := List.mem_iff_getElem?.mp hrule
    exact ⟨hwf.body ⟨i⟩ rule hi _ hn, exists_rule_of_ruleless? hruleless hrule hn⟩
  · refine List.nodup_cons.mpr ⟨fun hpair => ?_, h.distinct⟩
    obtain ⟨rule, hrule, heq⟩ := List.mem_map.mp hpair
    exact (declaresNonterminal_iff.mp (h.rules rule hrule).left).1 (Prod.mk.inj heq).1
  · intro rule hrule t ht
    rcases List.mem_cons.mp hrule with rfl | hrule
    · cases ht
    · exact declaresTerminal_iff.mp ((h.rules rule hrule).tag t ht)
  · intro op hop
    have hregisters := h.operators op hop
    exact ⟨hregisters.pos, hregisters.le_max, hregisters.terminal, hregisters.category⟩

/-- The terminal provided was there, or it takes the next index. -/
theorem Provides.index {category : NonterminalId} {fixity : Fixity} {t : TerminalId}
    (h : d.Provides category fixity t d') :
    d.operatorTerminals.find? (category, fixity) = some t ∨ t = ⟨d.terminals.length⟩ := by
  cases h with
  | known h => exact .inl h
  | added => exact .inr rfl

/-- A declaration leaves the start symbol that was named, or names it. -/
theorem Carried.start_eq {step : Declaration} {result : Except GrammarError Declared}
    (h : d.Carried step result d') : d'.start = d.start ∨ ∃ n, step = .start n ∧ d'.start = n := by
  cases h with
  | start => exact .inr ⟨_, rfl, rfl⟩
  | operatorTerminal hprovides | operator _ _ _ hprovides | overreached _ _ hprovides =>
    cases hprovides <;> exact .inl rfl
  | _ => exact .inl rfl

/-- A start symbol that was named stays so until a declaration names another. -/
theorem start_declareLeniently {n : NonterminalId} (h : d.start = some n)
    (steps : List Declaration) :
    ∃ m, (d.declareLeniently steps).2.start = some m ∧ (m = n ∨ .start m ∈ steps) := by
  induction steps generalizing d n with
  | nil => exact ⟨n, h, .inl rfl⟩
  | cons step steps ih =>
    rcases (d.carried_declare step).start_eq with hsame | ⟨n', rfl, hnamed⟩
    · obtain ⟨m, hm, hor⟩ := ih (hsame.trans h)
      exact ⟨m, hm, hor.imp_right (List.mem_cons_of_mem _)⟩
    · obtain ⟨m, hm, rfl | hlater⟩ := ih hnamed
      · exact ⟨m, hm, .inr List.mem_cons_self⟩
      · exact ⟨m, hm, .inr (List.mem_cons_of_mem _ hlater)⟩

/-- What a declaration gives is contained in the grammar that later declarations define. -/
theorem Carried.contains {step : Declaration} {declared : Declared} {later : List Declaration}
    (h : d.Carried step (.ok declared) d') (hd' : d'.Consistent)
    (hg : (d'.declareLeniently later).2.finish = .ok g) : g.Contains d later step declared := by
  have hwithin := within_declareLeniently d' later
  obtain ⟨start, hstart, -, rfl⟩ := finish_eq_ok hg
  cases h with
  | terminal =>
    exact .terminal (getElem?_of_isPrefix hwithin.terminals List.getElem?_concat_length)
  | tag => exact .tag (getElem?_of_isPrefix hwithin.terminals List.getElem?_concat_length)
  | nonterminal =>
    exact .nonterminal (getElem?_of_isPrefix hwithin.nonterminals List.getElem?_concat_length)
  | operatorTerminal hprovides =>
    exact .operatorTerminal hprovides.index
      (hwithin.operatorTerminals _ _ hprovides.within.2)
  | operator hspec hpos hmax hprovides =>
    have hregisters := hd'.operators _ (OperatorTable.mem_define_self hpos)
    exact .operator hspec hprovides.index
      (getElem?_of_isPrefix hwithin.nonterminals hregisters.category)
      (hwithin.operatorTerminals _ _ hregisters.terminal)
  | rule =>
    -- The rule of the augmented start symbol stands in front of the declared ones.
    have hrule := getElem?_of_isPrefix hwithin.rules (List.getElem?_concat_length (l := d.rules))
    exact .rule hrule
  | @start n =>
    obtain ⟨m, hm, hnamed⟩ := start_declareLeniently (d := { d with start := some n }) rfl later
    rw [chosenStart, hm] at hstart
    obtain rfl := Except.ok.inj hstart
    exact .start hnamed

end Definition

/-- Whatever has been declared, and whether failures end the definition or are skipped: a grammar
that is defined is consistent, and what each declaration introduced is there under the index that
the declaration gave; a start symbol that is named is the one of the grammar, unless it is named
anew. -/
theorem Grammar.defined_consistent {steps : List Declaration} {g : Grammar}
    (h : (define steps).2 = .ok g ∨ (defineLeniently steps).2 = .ok g) :
    g.Consistent ∧ ∀ front step back declared, steps = front ++ step :: back →
      ((Definition.initial.declareLeniently front).2.declare step).1 = .ok declared →
      g.Contains (Definition.initial.declareLeniently front).2 back step declared := by
  have hg : (Definition.initial.declareLeniently steps).2.finish = .ok g :=
    h.elim defineLeniently_of_define id
  refine ⟨(Definition.Consistent.initial.declareLeniently steps).finish
    (Definition.WellFormed.initial.declareLeniently steps) hg, ?_⟩
  rintro front step back declared rfl hdeclared
  have hcarried := (Definition.initial.declareLeniently front).2.carried_declare step
  have hd' := (Definition.Consistent.initial.declareLeniently front).carried hcarried
  rw [hdeclared] at hcarried
  rw [Definition.declareLeniently_append] at hg
  exact hcarried.contains hd' hg

/-- Declarations of an operator of which the first fails, but leaves the terminal, and the third
takes the place of the second. -/
def redefinitions : List Declaration :=
  [.nonterminal "E", .operator "+" "yfx" 1201 ⟨1⟩, .operator "+" "xfx" 700 ⟨1⟩,
    .operator "+" "yfx" 500 ⟨1⟩, .terminal "n" none,
    .rule ⟨1⟩ [.nonterminal ⟨1⟩, .terminal ⟨1⟩, .nonterminal ⟨1⟩] none,
    .rule ⟨1⟩ [.terminal ⟨2⟩] none]

/-- The grammar that they define. -/
def redefined : Grammar where
  terminals := [.endOfInput, ⟨"E$infix", none, .operator ⟨1⟩ .infixOp⟩, ⟨"n", none, .plain⟩]
  nonterminals := [augmentedStartName, "E"]
  rules := [⟨augmentedStart, [.nonterminal ⟨1⟩], none⟩,
    ⟨⟨1⟩, [.nonterminal ⟨1⟩, .terminal ⟨1⟩, .nonterminal ⟨1⟩], none⟩, ⟨⟨1⟩, [.terminal ⟨2⟩], none⟩]
  start := ⟨1⟩
  operators := .ofDefinitions [⟨"+", ⟨1⟩, "E", .yfx, 500, ⟨1⟩⟩]
  operatorTerminals := ⟨[((⟨1⟩, .infixOp), ⟨1⟩)]⟩

/-- The grammar is consistent, and the terminal declared behind the operators has index 2. -/
theorem Grammar.defined_consistent_redefined :
    (defineLeniently redefinitions).2 = .ok redefined ∧ redefined.Consistent ∧
      redefined.Contains (Definition.initial.declareLeniently (redefinitions.take 4)).2
        (redefinitions.drop 5) (.terminal "n" none) (.terminal ⟨2⟩) := by
  have hdefine : (defineLeniently redefinitions).2 = .ok redefined := rfl
  obtain ⟨hconsistent, hcontains⟩ := defined_consistent (.inr hdefine)
  exact ⟨hdefine, hconsistent, hcontains _ _ (redefinitions.drop 5) _ rfl rfl⟩

end OperatorLALR
