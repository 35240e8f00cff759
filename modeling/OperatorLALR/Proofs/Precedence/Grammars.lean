import OperatorLALR.Proofs.Analysis.Cycles
import OperatorLALR.Proofs.Automaton.Canonical
import OperatorLALR.Proofs.Termination.Consumption

/-!
# Grammars of operators between operands

The grammar `E := ATOM | E op E` has one rule for each of its operators, and each operator has a
precedence of its own (`Grammar.Infix`). Such a grammar has its analysis, since no nonterminal lifts
itself. Its states are one behind an atom, one in front of each operand and one behind it
(`Grammar.Layout`), so that `k` operators make at most `2 k + 3` kernels (`Infix.size_kernels_le`).
-/

namespace OperatorLALR

namespace Grammar

/-- The rule `E := E op E` for the start symbol `E`. -/
def binary (g : Grammar) (op : TerminalId) : Rule :=
  ⟨g.start, [.nonterminal g.start, .terminal op, .nonterminal g.start], none⟩

/-- The rule `E := ATOM` for the start symbol `E`. -/
def lone (g : Grammar) (atom : TerminalId) : Rule := ⟨g.start, [.terminal atom], none⟩

/-- The index of a rule. -/
def number (g : Grammar) (rule : Rule) : RuleId := ⟨g.rules.idxOf rule⟩

/-- The grammar `E := ATOM | E op E` with a rule for each of some operators. Each operator has a
precedence, and operators of one priority have one associativity. -/
structure Infix (g : Grammar) (atom : TerminalId) (operators : List TerminalId) : Prop where
  defined : g.IsDefined
  /-- The rules but that of the augmented start symbol, in any order. -/
  rules : g.rules.tail.Perm (g.lone atom :: operators.map g.binary)
  distinct : (atom :: operators).Nodup
  precedence : ∀ op ∈ operators, ∃ name precedence,
    g.terminal? op = some ⟨name, some precedence, .plain⟩
  consistent : ∀ op ∈ operators, ∀ op' ∈ operators, ∀ p p', g.terminalPrecedence op = some p →
    g.terminalPrecedence op' = some p' → p.priority = p'.priority → p.assoc = p'.assoc

variable {g : Grammar} {atom op : TerminalId} {operators : List TerminalId} {a : Analysis}
  {r : RuleId} {rule : Rule} {item m : Item} {items : List Item} {kernel : Kernel}
  {symbol : Symbol}

namespace Infix

variable (h : g.Infix atom operators)

include h

/-- The rule of the augmented start symbol comes first. -/
theorem rules_eq :
    g.rules = ⟨augmentedStart, [.nonterminal g.start], none⟩ :: g.rules.tail := by
  have haccept : g.rules.head? = some ⟨augmentedStart, [.nonterminal g.start], none⟩ := by
    rw [List.head?_eq_getElem?]
    exact h.defined.wellFormed.accept
  obtain ⟨rest, hrest⟩ := List.head?_eq_some_iff.mp haccept
  rw [hrest, List.tail_cons]

/-- The start symbol is not the augmented one. -/
theorem start_ne : g.start ≠ augmentedStart := by
  have hg := h.defined.wellFormed
  have hdeclared : g.Declares (.nonterminal g.start) :=
    hg.body acceptRule _ hg.accept _ (List.mem_singleton_self _)
  exact hdeclared.1

/-- The rules of the grammar. -/
theorem mem_rules_iff : rule ∈ g.rules ↔
    rule = ⟨augmentedStart, [.nonterminal g.start], none⟩ ∨ rule = g.lone atom ∨
      ∃ op ∈ operators, rule = g.binary op := by
  rw [h.rules_eq, List.mem_cons, h.rules.mem_iff, List.mem_cons, List.mem_map]
  simp only [eq_comm (b := rule)]

/-- No rule is given twice. -/
theorem nodup_rules : g.rules.Nodup := by
  have hbinary : (operators.map g.binary).Nodup :=
    (List.nodup_cons.mp h.distinct).2.map fun op op' heq => by simpa [binary] using heq
  have htail : g.rules.tail.Nodup := by
    rw [h.rules.nodup_iff, List.nodup_cons]
    refine ⟨fun hlone => ?_, hbinary⟩
    obtain ⟨op, -, heq⟩ := List.mem_map.mp hlone
    simp [binary, lone] at heq
  rw [h.rules_eq, List.nodup_cons, h.rules.mem_iff]
  refine ⟨fun hmem => ?_, htail⟩
  rcases List.mem_cons.mp hmem with heq | hmem
  · exact h.start_ne (congrArg Rule.left heq).symm
  · obtain ⟨op, -, heq⟩ := List.mem_map.mp hmem
    exact h.start_ne (congrArg Rule.left heq)

omit h in
/-- A rule of the grammar has its index. -/
theorem rule?_number (hrule : rule ∈ g.rules) : g.rule? (g.number rule) = some rule :=
  List.getElem?_idxOf hrule

/-- A rule has one index. -/
theorem eq_number (hrule : g.rule? r = some rule) : r = g.number rule := by
  have hlt : r.val < g.rules.length := (List.getElem?_eq_some_iff.mp hrule).1
  have hmem : rule ∈ g.rules := List.mem_of_getElem? hrule
  refine Index.ext ((List.getElem?_inj hlt h.nodup_rules).mp ?_)
  exact hrule.trans (rule?_number hmem).symm

/-- The rule of an operand that is an atom. -/
theorem rule?_lone : g.rule? (g.number (g.lone atom)) = some (g.lone atom) :=
  rule?_number (h.mem_rules_iff.mpr (.inr (.inl rfl)))

/-- The rule of an operator. -/
theorem rule?_binary (hop : op ∈ operators) :
    g.rule? (g.number (g.binary op)) = some (g.binary op) :=
  rule?_number (h.mem_rules_iff.mpr (.inr (.inr ⟨op, hop, rfl⟩)))

/-- What the rule of an atom derives. -/
theorem body_lone : g.body (g.number (g.lone atom)) = [.terminal atom] := body_eq h.rule?_lone

/-- What the rule of an operator derives. -/
theorem body_binary (hop : op ∈ operators) : g.body (g.number (g.binary op)) =
    [.nonterminal g.start, .terminal op, .nonterminal g.start] := body_eq (h.rule?_binary hop)

/-- The rules of the grammar by their indices. -/
theorem rule_cases (hrule : g.rule? r = some rule) :
    (r = acceptRule ∧ rule = ⟨augmentedStart, [.nonterminal g.start], none⟩) ∨
      (r = g.number (g.lone atom) ∧ rule = g.lone atom) ∨
      ∃ op ∈ operators, r = g.number (g.binary op) ∧ rule = g.binary op := by
  have hr := h.eq_number hrule
  have haccept := h.eq_number h.defined.wellFormed.accept
  rcases h.mem_rules_iff.mp (List.mem_of_getElem? hrule) with rfl | rfl | ⟨op, hop, rfl⟩
  · exact .inl ⟨hr.trans haccept.symm, rfl⟩
  · exact .inr (.inl ⟨hr, rfl⟩)
  · exact .inr (.inr ⟨op, hop, hr, rfl⟩)

/-- The rules of the start symbol are those of atoms and operators. -/
theorem rule_cases_of_left (hrule : g.rule? r = some rule) (hleft : rule.left = g.start) :
    (r = g.number (g.lone atom) ∧ rule = g.lone atom) ∨
      ∃ op ∈ operators, r = g.number (g.binary op) ∧ rule = g.binary op := by
  rcases h.rule_cases hrule with ⟨-, rfl⟩ | hother
  · exact absurd hleft.symm h.start_ne
  · exact hother

/-- No rule but that of an atom and those of operators is one of the start symbol. -/
theorem number_ne_accept (hrule : rule ∈ g.rules) (hleft : rule.left = g.start) :
    g.number rule ≠ acceptRule := by
  intro heq
  have haccept := h.defined.wellFormed.accept
  rw [← heq, rule?_number hrule] at haccept
  rw [Option.some.inj haccept] at hleft
  exact h.start_ne hleft.symm

/-- The only nonterminal behind a dot is the start symbol. -/
theorem eq_start_of_next? {n : NonterminalId} (hnext : item.next? g = some (.nonterminal n)) :
    n = g.start := by
  obtain ⟨rule, hrule, -, hmem⟩ := exists_rule_of_next? hnext
  rcases h.rule_cases hrule with ⟨-, rfl⟩ | ⟨-, rfl⟩ | ⟨op, -, -, rfl⟩
  · simpa using hmem
  · simp [lone] at hmem
  · simpa [binary] using hmem

/-- Rule chains from the start symbol lead to itself. -/
theorem eq_start_of_chain {n target : NonterminalId} {tail : List Symbol}
    (hchain : Chain g n target tail) (hn : n = g.start) : target = g.start := by
  induction hchain with
  | nil => exact hn
  | @cons r rule n target tail rest hrule hbody _ ih =>
    have hnext : (Item.mk r 0).next? g = some (.nonterminal n) := by
      rw [Item.next?, body_eq hrule, hbody]
      rfl
    exact ih (h.eq_start_of_next? hnext)

/-- Every rule has a terminal in its body, except for that of the augmented start symbol. -/
theorem consumes : g.Consumes := by
  intro r rule hrule hr
  rcases h.rule_cases hrule with ⟨haccept, -⟩ | ⟨-, rfl⟩ | ⟨op, -, -, rfl⟩
  · exact absurd haccept hr
  · exact ⟨atom, List.mem_singleton_self _⟩
  · exact ⟨op, List.mem_cons_of_mem _ List.mem_cons_self⟩

/-- Only the augmented start symbol lifts a nonterminal. -/
theorem eq_of_lifts {upper lower : NonterminalId} (hlifts : g.Lifts upper lower) :
    upper = augmentedStart ∧ lower = g.start := by
  obtain ⟨r, rule, rest, hrule, rfl, hbody, hrest⟩ := hlifts
  rcases h.rule_cases hrule with ⟨-, rfl⟩ | ⟨-, rfl⟩ | ⟨op, -, -, rfl⟩
  · exact ⟨rfl, (Symbol.nonterminal.inj (List.cons.inj hbody).1).symm⟩
  · cases hbody
  · obtain ⟨-, rfl⟩ := List.cons.inj hbody
    exact absurd hrest (not_vanishes_of_mem List.mem_cons_self)

/-- The grammar has its analysis. -/
theorem exists_analysis : ∃ a, g.analyse = .ok a := by
  cases hanalysis : g.analyse with
  | ok a => exact ⟨a, rfl⟩
  | error e =>
    obtain ⟨-, hlifts⟩ := lifts_of_analyse h.defined.wellFormed hanalysis
    obtain ⟨_, hfirst, -⟩ := Relation.TransGen.head'_iff.mp hlifts
    obtain ⟨_, -, hlast⟩ := Relation.TransGen.tail'_iff.mp hlifts
    exact absurd ((h.eq_of_lifts hlast).2.symm.trans (h.eq_of_lifts hfirst).1) h.start_ne

end Infix

/-- The items of rules of the start symbol with the dot in front. -/
def fronts (g : Grammar) (atom : TerminalId) (operators : List TerminalId) : List Item :=
  ⟨g.number (g.lone atom), 0⟩ :: operators.map fun op => ⟨g.number (g.binary op), 0⟩

/-- The items with the dot before an operator. -/
def continuations (g : Grammar) (operators : List TerminalId) : List Item :=
  operators.map fun op => ⟨g.number (g.binary op), 1⟩

/-- The items with the dot before the operand that stands last. -/
def openings (g : Grammar) (operators : List TerminalId) : List Item :=
  ⟨acceptRule, 0⟩ :: operators.map fun op => ⟨g.number (g.binary op), 2⟩

/-- The items of a state: behind an atom, before an operand or behind one. -/
inductive Layout (g : Grammar) (atom : TerminalId) (operators : List TerminalId)
    (items : List Item) : Prop
  | atom (h : ∀ item, item ∈ items ↔ item = ⟨g.number (g.lone atom), 1⟩)
  | before {m : Item} (hm : m ∈ g.openings operators)
      (h : ∀ item, item ∈ items ↔ item = m ∨ item ∈ g.fronts atom operators)
  | behind {m : Item} (hm : m ∈ g.openings operators)
      (h : ∀ item, item ∈ items ↔ item = m.advance ∨ item ∈ g.continuations operators)

/-- The items of the kernels behind an atom, before an operand and behind one. -/
def kernelBases (g : Grammar) (atom : TerminalId) (operators : List TerminalId) :
    List (List Item) :=
  [⟨g.number (g.lone atom), 1⟩] :: ((g.openings operators).map fun m => [m]) ++
    (g.openings operators).map fun m => m.advance :: g.continuations operators

/-- There are two kernels for each operator, and three further ones. -/
theorem length_kernelBases :
    (g.kernelBases atom operators).length = 2 * operators.length + 3 := by
  simp [kernelBases, openings]
  omega

namespace Infix

variable (h : g.Infix atom operators)

include h

/-- An operand comes next at an item with the dot before it. -/
theorem next?_opening (hm : m ∈ g.openings operators) :
    m.next? g = some (.nonterminal g.start) ∧ m.advance.next? g = none := by
  rcases List.mem_cons.mp hm with rfl | hm
  · rw [Item.next?, Item.next?, Item.advance, body_eq h.defined.wellFormed.accept]
    exact ⟨rfl, rfl⟩
  · obtain ⟨op, hop, rfl⟩ := List.mem_map.mp hm
    rw [Item.next?, Item.next?, Item.advance, h.body_binary hop]
    exact ⟨rfl, rfl⟩

/-- An atom comes next at the item with the dot before it. -/
theorem next?_lone : (Item.mk (g.number (g.lone atom)) 0).next? g = some (.terminal atom) ∧
    (Item.mk (g.number (g.lone atom)) 1).next? g = none := by
  rw [Item.next?, Item.next?, h.body_lone]
  exact ⟨rfl, rfl⟩

/-- The symbols that come next at the items of the rule of an operator. -/
theorem next?_binary (hop : op ∈ operators) :
    (Item.mk (g.number (g.binary op)) 0).next? g = some (.nonterminal g.start) ∧
      (Item.mk (g.number (g.binary op)) 1).next? g = some (.terminal op) := by
  rw [Item.next?, Item.next?, h.body_binary hop]
  exact ⟨rfl, rfl⟩

/-- The items with the dot in front are of the rules of the start symbol. -/
theorem mem_fronts : item ∈ g.fronts atom operators ↔
    ∃ rule, g.rule? item.rule = some rule ∧ rule.left = g.start ∧ item.dot = 0 := by
  obtain ⟨r, dot⟩ := item
  rw [fronts, List.mem_cons, List.mem_map]
  constructor
  · rintro (heq | ⟨op, hop, heq⟩)
    · obtain ⟨rfl, rfl⟩ := Item.mk.inj heq
      exact ⟨_, h.rule?_lone, rfl, rfl⟩
    · obtain ⟨rfl, rfl⟩ := Item.mk.inj heq
      exact ⟨_, h.rule?_binary hop, rfl, rfl⟩
  · rintro ⟨rule, hrule, hleft, rfl⟩
    rcases h.rule_cases_of_left hrule hleft with ⟨rfl, -⟩ | ⟨op, hop, rfl, -⟩
    · exact .inl rfl
    · exact .inr ⟨op, hop, rfl⟩

/-- A state has the items of its kernel, and those with the dot in front if an operand comes
next. -/
theorem mem_itemsOf_iff (ha : g.analyse = .ok a) : item ∈ g.itemsOf a kernel ↔ item ∈ kernel ∨
    (∃ k ∈ kernel, k.next? g = some (.nonterminal g.start)) ∧
      item ∈ g.fronts atom operators := by
  rw [mem_itemsOf h.defined.wellFormed ha, h.mem_fronts]
  refine or_congr_right ⟨?_, ?_⟩
  · rintro ⟨k, hk, n, rule, tail, hnext, hrule, hchain, hdot⟩
    have hn := h.eq_start_of_next? hnext
    exact ⟨⟨k, hk, hn ▸ hnext⟩, rule, hrule, h.eq_start_of_chain hchain hn, hdot⟩
  · rintro ⟨⟨k, hk, hnext⟩, rule, hrule, hleft, hdot⟩
    exact ⟨k, hk, g.start, rule, [], hnext, hrule, hleft ▸ .nil _, hdot⟩

/-- A state with the items of a kernel is behind an atom, before an operand or behind one. -/
theorem layout_itemsOf (ha : g.analyse = .ok a) {base : List Item}
    (hbase : base ∈ g.kernelBases atom operators) (hkernel : ∀ item, item ∈ kernel ↔ item ∈ base) :
    g.Layout atom operators (g.itemsOf a kernel) := by
  have hitems : ∀ item, item ∈ g.itemsOf a kernel ↔ item ∈ base ∨
      (∃ k ∈ base, k.next? g = some (.nonterminal g.start)) ∧
        item ∈ g.fronts atom operators := by
    intro item
    simp only [h.mem_itemsOf_iff ha, hkernel]
  rcases List.mem_append.mp hbase with hbase | hbase
  · rcases List.mem_cons.mp hbase with rfl | hbase
    · refine .atom fun item => ?_
      simp [hitems, h.next?_lone.2]
    · obtain ⟨m, hm, rfl⟩ := List.mem_map.mp hbase
      refine .before hm fun item => ?_
      simp [hitems, (h.next?_opening hm).1]
  · obtain ⟨m, hm, rfl⟩ := List.mem_map.mp hbase
    refine .behind hm fun item => ?_
    have hnone : ∀ k ∈ m.advance :: g.continuations operators,
        k.next? g ≠ some (.nonterminal g.start) := by
      intro k hk
      rcases List.mem_cons.mp hk with rfl | hk
      · simp [(h.next?_opening hm).2]
      · obtain ⟨op, hop, rfl⟩ := List.mem_map.mp hk
        simp [(h.next?_binary hop).2]
    rw [hitems, List.mem_cons]
    exact or_iff_left fun ⟨⟨k, hk, hnext⟩, _⟩ => hnone k hk hnext

/-- What comes next at the items with the dot in front. -/
theorem front_cases (hitem : item ∈ g.fronts atom operators) :
    (item = ⟨g.number (g.lone atom), 0⟩ ∧ item.next? g = some (.terminal atom)) ∨
      ∃ op ∈ operators, item = ⟨g.number (g.binary op), 0⟩ ∧
        item.next? g = some (.nonterminal g.start) := by
  rcases List.mem_cons.mp hitem with rfl | hitem
  · exact .inl ⟨rfl, h.next?_lone.1⟩
  · obtain ⟨op, hop, rfl⟩ := List.mem_map.mp hitem
    exact .inr ⟨op, hop, rfl, (h.next?_binary hop).1⟩

/-- What comes next at the items with the dot behind an operand. -/
theorem behind_cases (hm : m ∈ g.openings operators)
    (hitem : item = m.advance ∨ item ∈ g.continuations operators) :
    (item = m.advance ∧ item.next? g = none) ∨ ∃ op ∈ operators,
      item = ⟨g.number (g.binary op), 1⟩ ∧ item.next? g = some (.terminal op) := by
  rcases hitem with rfl | hitem
  · exact .inl ⟨rfl, (h.next?_opening hm).2⟩
  · obtain ⟨op, hop, rfl⟩ := List.mem_map.mp hitem
    exact .inr ⟨op, hop, rfl, (h.next?_binary hop).2⟩

/-- Across an operand a state leads behind it. -/
theorem mem_kernelAfter_operand (hm : m ∈ g.openings operators)
    (hitems : ∀ item, item ∈ items ↔ item = m ∨ item ∈ g.fronts atom operators) :
    item ∈ g.kernelAfter items (.nonterminal g.start) ↔
      item ∈ m.advance :: g.continuations operators := by
  rw [mem_kernelAfter, List.mem_cons]
  constructor
  · rintro ⟨old, hold, hnext, rfl⟩
    rcases (hitems old).mp hold with rfl | hfront
    · exact .inl rfl
    · rcases h.front_cases hfront with ⟨-, hatom⟩ | ⟨op, hop, rfl, -⟩
      · cases hatom.symm.trans hnext
      · exact .inr (List.mem_map_of_mem hop)
  · rintro (rfl | hitem)
    · exact ⟨m, (hitems m).mpr (.inl rfl), (h.next?_opening hm).1, rfl⟩
    · obtain ⟨op, hop, rfl⟩ := List.mem_map.mp hitem
      refine ⟨_, (hitems _).mpr (.inr ?_), (h.next?_binary hop).1, rfl⟩
      exact List.mem_cons_of_mem _ (List.mem_map_of_mem hop)

/-- Across an atom a state leads behind it. -/
theorem mem_kernelAfter_atom (hm : m ∈ g.openings operators)
    (hitems : ∀ item, item ∈ items ↔ item = m ∨ item ∈ g.fronts atom operators) :
    item ∈ g.kernelAfter items (.terminal atom) ↔ item = ⟨g.number (g.lone atom), 1⟩ := by
  rw [mem_kernelAfter]
  constructor
  · rintro ⟨old, hold, hnext, rfl⟩
    rcases (hitems old).mp hold with rfl | hfront
    · cases (h.next?_opening hm).1.symm.trans hnext
    · rcases h.front_cases hfront with ⟨rfl, -⟩ | ⟨op, -, -, hoperand⟩
      · rfl
      · cases hoperand.symm.trans hnext
  · rintro rfl
    exact ⟨_, (hitems _).mpr (.inr List.mem_cons_self), h.next?_lone.1, rfl⟩

/-- Across an operator a state leads before its second operand. -/
theorem mem_kernelAfter_operator (hm : m ∈ g.openings operators) (hop : op ∈ operators)
    (hitems : ∀ item, item ∈ items ↔ item = m.advance ∨ item ∈ g.continuations operators) :
    item ∈ g.kernelAfter items (.terminal op) ↔ item = ⟨g.number (g.binary op), 2⟩ := by
  rw [mem_kernelAfter]
  constructor
  · rintro ⟨old, hold, hnext, rfl⟩
    rcases h.behind_cases hm ((hitems old).mp hold) with ⟨-, hnone⟩ | ⟨op', -, rfl, hoperator⟩
    · cases hnone.symm.trans hnext
    · obtain rfl := Symbol.terminal.inj (Option.some.inj (hoperator.symm.trans hnext))
      rfl
  · rintro rfl
    exact ⟨_, (hitems _).mpr (.inr (List.mem_map_of_mem hop)), (h.next?_binary hop).2, rfl⟩

/-- Behind a symbol that comes next stands a kernel behind an atom, before an operand or behind
one. -/
theorem exists_base_after (hlayout : g.Layout atom operators items)
    (hnext : ∃ item ∈ items, item.next? g = some symbol) :
    ∃ base ∈ g.kernelBases atom operators,
      ∀ item, item ∈ g.kernelAfter items symbol ↔ item ∈ base := by
  obtain ⟨first, hfirst, hsymbol⟩ := hnext
  cases hlayout with
  | atom hitems =>
    rw [(hitems first).mp hfirst, h.next?_lone.2] at hsymbol
    cases hsymbol
  | @before m hm hitems =>
    have hoperand : m.advance :: g.continuations operators ∈ g.kernelBases atom operators :=
      List.mem_append_right _ (List.mem_map_of_mem hm)
    rcases (hitems first).mp hfirst with rfl | hfront
    · obtain rfl := Option.some.inj ((h.next?_opening hm).1.symm.trans hsymbol)
      exact ⟨_, hoperand, fun item => h.mem_kernelAfter_operand hm hitems⟩
    · rcases h.front_cases hfront with ⟨-, hatom⟩ | ⟨op, -, -, hnext⟩
      · obtain rfl := Option.some.inj (hatom.symm.trans hsymbol)
        refine ⟨_, List.mem_append_left _ List.mem_cons_self, fun item => ?_⟩
        rw [h.mem_kernelAfter_atom hm hitems, List.mem_singleton]
      · obtain rfl := Option.some.inj (hnext.symm.trans hsymbol)
        exact ⟨_, hoperand, fun item => h.mem_kernelAfter_operand hm hitems⟩
  | @behind m hm hitems =>
    rcases h.behind_cases hm ((hitems first).mp hfirst) with ⟨-, hnone⟩ | ⟨op, hop, -, hnext⟩
    · cases hnone.symm.trans hsymbol
    · obtain rfl := Option.some.inj (hnext.symm.trans hsymbol)
      refine ⟨[⟨g.number (g.binary op), 2⟩], ?_, fun item => ?_⟩
      · refine List.mem_append_left _ (List.mem_cons_of_mem _ ?_)
        exact List.mem_map_of_mem (List.mem_cons_of_mem _ (List.mem_map_of_mem hop))
      · rw [h.mem_kernelAfter_operator hm hop hitems, List.mem_singleton]

/-- Every kernel found is behind an atom, before an operand or behind one. -/
theorem exists_base (ha : g.analyse = .ok a) (hkernel : kernel ∈ (g.kernels a).items) :
    ∃ base ∈ g.kernelBases atom operators, ∀ item, item ∈ kernel ↔ item ∈ base := by
  have hreached := (mem_kernels_iff h.defined.wellFormed).mp hkernel
  clear hkernel
  induction hreached with
  | refl =>
    refine ⟨initialKernel, List.mem_append_left _ (List.mem_cons_of_mem _ ?_), fun _ => .rfl⟩
    exact List.mem_map_of_mem List.mem_cons_self
  | tail _ hnext ih =>
    obtain ⟨base, hbase, hmem⟩ := ih
    obtain ⟨symbol, hsymbol, rfl⟩ := mem_kernelsAfter.mp hnext
    exact h.exists_base_after (h.layout_itemsOf ha hbase hmem) hsymbol

/-- There are two kernels at most for each operator, and three further ones. -/
theorem size_kernels_le (ha : g.analyse = .ok a) :
    (g.kernels a).items.size ≤ 2 * operators.length + 3 := by
  have hlength : ((g.kernelBases atom operators).map (sortDistinct Item.compare)).length =
      2 * operators.length + 3 := List.length_map _ |>.trans length_kernelBases
  rw [← hlength]
  refine Numbering.size_le_of_subset fun kernel hkernel => ?_
  obtain ⟨base, hbase, hmem⟩ := h.exists_base ha hkernel
  have hkernel := isKernel_of_mem h.defined.wellFormed hkernel
  have hsorted : ∀ item, item ∈ kernel ↔ item ∈ sortDistinct Item.compare base := by
    intro item
    rw [mem_sortDistinct fun _ _ => Item.eq_of_compare, hmem]
  refine List.mem_map.mpr ⟨base, hbase, Eq.symm ?_⟩
  refine hkernel.eq_of_mem_iff ⟨?_, fun item hitem => ?_⟩ hsorted
  · exact pairwise_sortDistinct (fun _ _ => Item.compare_eq_lt_iff.mp)
      (fun _ _ => Item.compare_eq_gt_iff.mp) (fun _ _ => Item.eq_of_compare)
      (fun _ _ _ => Item.Before.trans) _
  · exact hkernel.items item ((hsorted item).mpr hitem)

/-- While there are not too many operators, all states have their own numbers. -/
theorem built (ha : g.analyse = .ok a) (hcount : 2 * operators.length + 3 < stateNumbers) :
    g.Built a :=
  ⟨h.defined.wellFormed, ha, Nat.lt_of_le_of_lt (h.size_kernels_le ha) hcount⟩

/-- Every state is behind an atom, before an operand or behind one. -/
theorem layout (hg : g.Built a) {q : StateId} {s : State}
    (hs : (g.automaton a).state? q = some s) : g.Layout atom operators s.items := by
  obtain ⟨hkernel, hitems⟩ := hg.exists_kernel hs
  obtain ⟨base, hbase, hmem⟩ := h.exists_base hg.analysed (Array.mem_of_getElem? hkernel)
  rw [hitems]
  exact h.layout_itemsOf hg.analysed hbase hmem

end Infix

end Grammar

end OperatorLALR
