import OperatorLALR.Proofs.Termination.Consumption
import OperatorLALR.Proofs.Completeness.Offers

/-!
# The grammar of expressions with operators

The grammar `expr := expr INFIX expr | PREFIX expr | expr POSTFIX | ATOM | LPAREN expr RPAREN` has
one terminal for all operators of a fixity. Its conflicts are all left to the operators, and they
are all between a shift of an infix or postfix operator and a reduction that has a right operand on
top of the stack (`expressions_way`).
-/

namespace OperatorLALR

/-- The terminal for the operators of a fixity between, before and behind expressions. -/
def Fixity.terminal : Fixity → TerminalId
  | .infixOp => ⟨4⟩
  | .prefixOp => ⟨5⟩
  | .postfixOp => ⟨6⟩

/-- The grammar `expr := expr INFIX expr | PREFIX expr | expr POSTFIX | ATOM | LPAREN expr RPAREN`
(rules 1 to 5), with the terminals `ATOM`, `LPAREN` and `RPAREN` (1 to 3) and those for the
operators of its only category (4 to 6). -/
def expressions : Grammar where
  terminals := [.endOfInput, ⟨"ATOM", none, .plain⟩, ⟨"LPAREN", none, .plain⟩,
    ⟨"RPAREN", none, .plain⟩, ⟨"expr$infix", none, .operator ⟨1⟩ .infixOp⟩,
    ⟨"expr$prefix", none, .operator ⟨1⟩ .prefixOp⟩,
    ⟨"expr$postfix", none, .operator ⟨1⟩ .postfixOp⟩]
  nonterminals := [augmentedStartName, "expr"]
  rules := [⟨augmentedStart, [.nonterminal ⟨1⟩], none⟩,
    ⟨⟨1⟩, [.nonterminal ⟨1⟩, .terminal ⟨4⟩, .nonterminal ⟨1⟩], none⟩,
    ⟨⟨1⟩, [.terminal ⟨5⟩, .nonterminal ⟨1⟩], none⟩,
    ⟨⟨1⟩, [.nonterminal ⟨1⟩, .terminal ⟨6⟩], none⟩,
    ⟨⟨1⟩, [.terminal ⟨1⟩], none⟩,
    ⟨⟨1⟩, [.terminal ⟨2⟩, .nonterminal ⟨1⟩, .terminal ⟨3⟩], none⟩]
  start := ⟨1⟩
  operators := ∅
  operatorTerminals :=
    ⟨[((⟨1⟩, .infixOp), ⟨4⟩), ((⟨1⟩, .prefixOp), ⟨5⟩), ((⟨1⟩, .postfixOp), ⟨6⟩)]⟩

/-- The analysis of the grammar. -/
def expressionsAnalysis : Analysis := expressions.analyse.toOption.getD ⟨∅, [], []⟩

/-- The rows of the states in front of an expression: they shift what may begin one. -/
private def rowBefore (next : StateId) : TableRow :=
  ⟨⟨[(⟨5⟩, .shift ⟨2⟩), (⟨1⟩, .shift ⟨3⟩), (⟨2⟩, .shift ⟨4⟩)]⟩, ⟨[(⟨1⟩, next)]⟩⟩

/-- The rows of the states behind an expression that cannot be continued: they reduce it. -/
private def rowBehind (r : RuleId) : TableRow :=
  ⟨⟨[(⟨0⟩, .reduce r), (⟨3⟩, .reduce r), (⟨4⟩, .reduce r), (⟨6⟩, .reduce r)]⟩, ⟨[]⟩⟩

/-- The table of the grammar, by the default policies. -/
def expressionsTable : GeneratedTable where
  rows := #[rowBefore ⟨1⟩,
    ⟨⟨[(⟨4⟩, .shift ⟨5⟩), (⟨6⟩, .shift ⟨6⟩), (⟨0⟩, .accept)]⟩, ⟨[]⟩⟩,
    rowBefore ⟨7⟩, rowBehind ⟨4⟩, rowBefore ⟨8⟩, rowBefore ⟨9⟩, rowBehind ⟨3⟩,
    ⟨⟨[(⟨4⟩, .dynamic ⟨0⟩), (⟨6⟩, .dynamic ⟨1⟩), (⟨0⟩, .reduce ⟨2⟩), (⟨3⟩, .reduce ⟨2⟩)]⟩, ⟨[]⟩⟩,
    ⟨⟨[(⟨4⟩, .shift ⟨5⟩), (⟨6⟩, .shift ⟨6⟩), (⟨3⟩, .shift ⟨10⟩)]⟩, ⟨[]⟩⟩,
    ⟨⟨[(⟨4⟩, .dynamic ⟨2⟩), (⟨6⟩, .dynamic ⟨3⟩), (⟨0⟩, .reduce ⟨1⟩), (⟨3⟩, .reduce ⟨1⟩)]⟩, ⟨[]⟩⟩,
    rowBehind ⟨5⟩]
  rules := [⟨⟨0⟩, 1, none⟩, ⟨⟨1⟩, 3, some 1⟩, ⟨⟨1⟩, 2, some 0⟩, ⟨⟨1⟩, 2, some 1⟩, ⟨⟨1⟩, 1, none⟩,
    ⟨⟨1⟩, 3, none⟩]
  candidates := [[.shift ⟨5⟩, .reduce ⟨2⟩], [.shift ⟨6⟩, .reduce ⟨2⟩],
    [.shift ⟨5⟩, .reduce ⟨1⟩], [.shift ⟨6⟩, .reduce ⟨1⟩]]
  conflicts := [⟨⟨7⟩, ⟨4⟩, some ⟨5⟩, [⟨2⟩], .dynamicOperator, .dynamic ⟨0⟩⟩,
    ⟨⟨7⟩, ⟨6⟩, some ⟨6⟩, [⟨2⟩], .dynamicOperator, .dynamic ⟨1⟩⟩,
    ⟨⟨9⟩, ⟨4⟩, some ⟨5⟩, [⟨1⟩], .dynamicOperator, .dynamic ⟨2⟩⟩,
    ⟨⟨9⟩, ⟨6⟩, some ⟨6⟩, [⟨1⟩], .dynamicOperator, .dynamic ⟨3⟩⟩]
  operators := ∅
  operatorTerminals :=
    ⟨[((⟨1⟩, .infixOp), ⟨4⟩), ((⟨1⟩, .prefixOp), ⟨5⟩), ((⟨1⟩, .postfixOp), ⟨6⟩)]⟩
  nonterminals := [augmentedStartName, "expr"]

/-- The table is the one that is built. -/
theorem expressions_build : (expressions.build .default).2 = .ok expressionsTable := by
  decide +kernel

/-- The grammar is given by declarations. -/
theorem expressions_isDefined : expressions.IsDefined :=
  ⟨[.terminal "ATOM" none, .terminal "LPAREN" none, .terminal "RPAREN" none, .nonterminal "expr",
    .operatorTerminal ⟨1⟩ .infixOp, .operatorTerminal ⟨1⟩ .prefixOp,
    .operatorTerminal ⟨1⟩ .postfixOp,
    .rule ⟨1⟩ [.nonterminal ⟨1⟩, .terminal ⟨4⟩, .nonterminal ⟨1⟩] none,
    .rule ⟨1⟩ [.terminal ⟨5⟩, .nonterminal ⟨1⟩] none,
    .rule ⟨1⟩ [.nonterminal ⟨1⟩, .terminal ⟨6⟩] none, .rule ⟨1⟩ [.terminal ⟨1⟩] none,
    .rule ⟨1⟩ [.terminal ⟨2⟩, .nonterminal ⟨1⟩, .terminal ⟨3⟩] none], .inl (by decide +kernel)⟩

/-- The grammar has an automaton. -/
theorem expressions_built : expressions.Built expressionsAnalysis where
  wellFormed := expressions_isDefined.wellFormed
  analysed := by decide +kernel
  numbered := by decide +kernel

/-- The rules of expressions. -/
theorem expressions_rule_cases {r : RuleId} {rule : Rule} (h : expressions.rule? r = some rule)
    (hr : r ≠ acceptRule) :
    r = ⟨1⟩ ∧ rule.body = [.nonterminal ⟨1⟩, .terminal ⟨4⟩, .nonterminal ⟨1⟩] ∨
    r = ⟨2⟩ ∧ rule.body = [.terminal ⟨5⟩, .nonterminal ⟨1⟩] ∨
    r = ⟨3⟩ ∧ rule.body = [.nonterminal ⟨1⟩, .terminal ⟨6⟩] ∨
    r = ⟨4⟩ ∧ rule.body = [.terminal ⟨1⟩] ∨
    r = ⟨5⟩ ∧ rule.body = [.terminal ⟨2⟩, .nonterminal ⟨1⟩, .terminal ⟨3⟩] := by
  obtain ⟨r⟩ := r
  rcases r with _ | _ | _ | _ | _ | _ | r
  · exact absurd rfl hr
  · obtain rfl := Option.some.inj h
    exact .inl ⟨rfl, rfl⟩
  · obtain rfl := Option.some.inj h
    exact .inr (.inl ⟨rfl, rfl⟩)
  · obtain rfl := Option.some.inj h
    exact .inr (.inr (.inl ⟨rfl, rfl⟩))
  · obtain rfl := Option.some.inj h
    exact .inr (.inr (.inr (.inl ⟨rfl, rfl⟩)))
  · obtain rfl := Option.some.inj h
    exact .inr (.inr (.inr (.inr ⟨rfl, rfl⟩)))
  · cases h

/-- Every expression takes a token. -/
theorem expressions_consumes : expressions.Consumes := by
  intro r rule hrule hr
  rcases expressions_rule_cases hrule hr with
    ⟨-, hbody⟩ | ⟨-, hbody⟩ | ⟨-, hbody⟩ | ⟨-, hbody⟩ | ⟨-, hbody⟩
  · exact ⟨⟨4⟩, by simp [hbody]⟩
  · exact ⟨⟨5⟩, by simp [hbody]⟩
  · exact ⟨⟨6⟩, by simp [hbody]⟩
  · exact ⟨⟨1⟩, by simp [hbody]⟩
  · exact ⟨⟨2⟩, by simp [hbody]⟩

/-- The table leaves open whatever the automaton has. -/
theorem expressions_mem_ways {q : StateId} {t : TerminalId} {action : Action}
    (hacts : expressions.Acts expressionsAnalysis q t action) :
    action ∈ expressionsTable.toParseTable.ways q t := by
  have hterminals : ∀ terminal ∈ expressions.terminals, terminal.precedence = none := by decide
  have hprecedence := Grammar.terminalPrecedence_eq_none hterminals
  exact expressions_built.mem_ways expressions_build hprecedence (by decide) hacts

/-- Where the table leaves several actions open, it shifts or reduces by a rule with a right
operand, and the lookahead does not stand in front of an expression. -/
def OpensWays (t : TerminalId) : Action → Prop
  | .dynamic d | .choice d => t ≠ ⟨5⟩ ∧ ∀ way ∈ (expressionsTable.candidates[d.val]?).getD [],
      way ∈ [.shift ⟨5⟩, .shift ⟨6⟩, .reduce ⟨1⟩, .reduce ⟨2⟩]
  | _ => True

instance (t : TerminalId) (action : Action) : Decidable (OpensWays t action) := by
  unfold OpensWays
  split <;> infer_instance

/-- An action of the table is its only one in a state on a terminal, or one of those that it leaves
to the operators. -/
theorem expressions_way {q : StateId} {t : TerminalId} {action : Action}
    (h : action ∈ expressionsTable.toParseTable.ways q t) :
    expressionsTable.toParseTable.ways q t = [action] ∧
        expressionsTable.toParseTable.action q t = action ∨
      t ≠ ⟨5⟩ ∧ action ∈ [.shift ⟨5⟩, .shift ⟨6⟩, .reduce ⟨1⟩, .reduce ⟨2⟩] := by
  have hrows : ∀ row ∈ expressionsTable.rows.toList, ∀ e ∈ row.actions.entries,
      OpensWays e.1 e.2 := by decide
  have hopens : OpensWays t (expressionsTable.toParseTable.action q t) := by
    change OpensWays t (((expressionsTable.row? q).map fun row => row.action t).getD .error)
    cases hrow : expressionsTable.row? q with
    | none => trivial
    | some row =>
      rw [Option.map_some, Option.getD_some, TableRow.action]
      cases hfind : row.actions.find? t with
      | none => trivial
      | some action =>
        have hmem : row ∈ expressionsTable.rows.toList :=
          Array.mem_toList_iff.mpr (Array.mem_of_getElem? hrow)
        exact hrows row hmem (t, action) (OrderedMap.mem_of_find? hfind)
  unfold ParseTable.ways at h ⊢
  generalize expressionsTable.toParseTable.action q t = single at h hopens
  cases single with
  | dynamic d | choice d => exact .inr ⟨hopens.1, hopens.2 action h⟩
  | _ =>
    rw [List.mem_singleton.mp h]
    exact .inl ⟨rfl, rfl⟩

end OperatorLALR
