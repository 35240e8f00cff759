import OperatorLALR.Proofs.Operators.Scripts

/-!
# Operators of the grammar and operators of the parser

What a parser makes of a call for an operator is what a declaration makes of it, so that a parser
over the table without some operators takes all of them and then has the same operators as one over
the table with them (`Parser.Knows.defineAll`). The tables differ in nothing else, so that both
parsers give the same results (`operators_interchangeable`).
-/

namespace OperatorLALR

namespace Parser

variable {τ ν β ε σ : Type}

/-- All definitions of operators succeed, one after the other. -/
def Accepts (p : Parser τ ν β σ) : List OperatorCall → Prop
  | [] => True
  | c :: calls => ∃ old p', p.define c.name c.specifier c.priority c.category = .ok (old, p') ∧
      p'.Accepts calls

/-- A parser finds the terminals for operators and the names of categories as a definition has
them. -/
structure Knows (p : Parser τ ν β σ) (d : Definition) : Prop where
  operatorTerminal : ∀ category fixity,
    p.table.operatorTerminal category fixity = d.operatorTerminals.find? (category, fixity)
  nonterminalName : ∀ n, p.table.nonterminalName n = d.nonterminals[n.val]?

/-- A parser over the table of a grammar finds what the definition of the grammar has, and starts
with its operators. -/
theorem knows_of_build {g : Grammar} {options : BuildOptions} {table : GeneratedTable}
    {d : Definition} (hg : d.finish = .ok g) (hbuild : (g.build options).2 = .ok table)
    (maker : NodeMaker τ ν β σ) (limit : Option Nat) :
    (Parser.ofTable table.toParseTable maker limit).Knows d ∧
      (Parser.ofTable table.toParseTable maker limit).operators = d.operators := by
  obtain ⟨settled, rfl⟩ := Grammar.exists_ofSettled hbuild
  obtain ⟨start, -, -, rfl⟩ := Definition.finish_eq_ok hg
  exact ⟨⟨fun _ _ => rfl, fun _ => rfl⟩, rfl⟩

/-- A parser makes of a valid call the operator that a declaration makes of it. -/
theorem Knows.define {p : Parser τ ν β σ} {d : Definition} (h : p.Knows d) (hd : d.Consistent)
    {c : OperatorCall} (hc : c.Valid d) :
    ∃ op, d.operator? c = some op ∧ p.define c.name c.specifier c.priority c.category =
      .ok (p.operators.displaced op, { p with operators := p.operators.define op }) := by
  obtain ⟨spec, t, hspec, ht⟩ := hc.terminal
  refine ⟨_, Definition.operator?_eq_some.mpr ⟨spec, t, hspec, ht, rfl⟩, ?_⟩
  have hlt := (Definition.declaresNonterminal_iff.mp (hd.categories _ _ _ ht)).2
  have hname := List.getElem?_eq_getElem hlt
  rw [Parser.define, operatorFor, Specifier.parse, hspec]
  dsimp only
  rw [h.operatorTerminal, ht]
  dsimp only
  rw [h.nonterminalName, hname, Operator.checked, if_neg (Nat.not_lt_of_le hc.le_max),
    Definition.declaredOperator, hname]
  rfl

/-- A parser takes all operators that are valid, and adds them to its own in order. -/
theorem Knows.defineAll {p : Parser τ ν β σ} {d : Definition} (h : p.Knows d) (hd : d.Consistent)
    {calls : List OperatorCall} (hcalls : ∀ c ∈ calls, c.Valid d) :
    p.Accepts calls ∧ (p.defineAll calls).operators =
      (calls.filterMap d.operator?).foldl OperatorTable.define p.operators := by
  induction calls generalizing p with
  | nil => exact ⟨trivial, rfl⟩
  | cons c calls ih =>
    obtain ⟨hc, hcalls⟩ := List.forall_mem_cons.mp hcalls
    obtain ⟨op, hop, hdefine⟩ := h.define hd hc
    have h' : { p with operators := p.operators.define op }.Knows d :=
      ⟨h.operatorTerminal, h.nonterminalName⟩
    obtain ⟨haccepts, hoperators⟩ := ih h' hcalls
    refine ⟨⟨_, _, hdefine, haccepts⟩, ?_⟩
    rw [List.filterMap_cons_some hop, List.foldl_cons, ← hoperators, Parser.defineAll,
      List.foldl_cons, hdefine]
    rfl

end Parser

/-- Operators of which no two have the same name, category and place give the same table in any
order. -/
theorem Definition.foldl_operators_perm {d : Definition} {operators : OperatorTable}
    {calls calls' : List OperatorCall} (h : operators.Tidy) (hperm : calls.Perm calls')
    (hslots : calls'.Pairwise fun a b => a.slot? ≠ b.slot?) :
    (calls.filterMap d.operator?).foldl OperatorTable.define operators =
      (calls'.filterMap d.operator?).foldl OperatorTable.define operators := by
  refine (h.foldl_define_perm (hperm.symm.filterMap _) ?_).symm
  refine List.pairwise_filterMap.mpr (hslots.imp fun hne op hop op' hop' hsame => hne ?_)
  rw [slot?_of_operator? hop, slot?_of_operator? hop', hsame.1, hsame.2.1, hsame.2.2]

variable {τ ν β ε σ : Type} [Token τ]

/-- Operators declared with a grammar and operators defined for a parser are interchangeable. With
its movable operators a definition gives a grammar and a table that differ in their operators only,
or it fails for the same reason. A parser over the table without these operators takes them all,
in their order or in any other if no two have the same name, category and place, and then has the
same operators as a parser over the table with them and gives the same results. The movable
operators may stand at the end of the definition, or anywhere behind their terminals if no later
declaration displaces one of them. -/
theorem operators_interchangeable {script : Script} {calls : List OperatorCall}
    (hvalid : script.Valid .initial) (hspares : script.Pairwise ScriptStep.Spares)
    (hcalls : calls = script.calls ∨
      calls.Perm script.calls ∧ script.calls.Pairwise fun a b => a.slot? ≠ b.slot?) :
    ∃ operators : OperatorTable,
      (Grammar.define script.full).2 =
        (Grammar.define script.base).2.map (fun g => g.withOperators operators) ∧
      (Grammar.defineLeniently script.full).2 =
        (Grammar.defineLeniently script.base).2.map (fun g => g.withOperators operators) ∧
      ∀ g, ((Grammar.define script.base).2 = .ok g ∨
          (Grammar.defineLeniently script.base).2 = .ok g) → ∀ options,
        (g.withOperators operators).build options = ((g.build options).1,
          (g.build options).2.map fun table => table.withOperators operators) ∧
        ∀ table, (g.build options).2 = .ok table →
          ∀ (maker : NodeMaker τ ν β σ) (limit : Option Nat),
          let p := Parser.ofTable table.toParseTable maker limit
          let p' := Parser.ofTable (table.withOperators operators).toParseTable maker limit
          p.Accepts calls ∧ (p.defineAll calls).operators = p'.operators ∧
            ∀ n (source : List (Except ε τ)) memory,
              (p.defineAll calls).parse n source memory = p'.parse n source memory := by
  obtain ⟨hstrict, hlenient⟩ := Script.define_full hvalid hspares
  refine ⟨_, hstrict, hlenient, fun g hg options => ⟨g.build_withOperators _ options, ?_⟩⟩
  intro table hbuild maker limit p p'
  have hd := Definition.Consistent.initial.declareLeniently script.base
  have htidy := Definition.tidy_declareLeniently (d := .initial) OperatorTable.Tidy.empty
    script.base
  have hfinish : (Definition.initial.declareLeniently script.base).2.finish = .ok g :=
    hg.elim Grammar.defineLeniently_of_define id
  have hperm : calls.Perm script.calls := hcalls.elim (fun h => h ▸ .rfl) And.left
  obtain ⟨hknows, hinitial⟩ := Parser.knows_of_build hfinish hbuild maker limit
  obtain ⟨haccepts, hoperators⟩ := hknows.defineAll hd fun c hc =>
    hvalid.calls c (hperm.mem_iff.mp hc)
  have hsame : (p.defineAll calls).operators = p'.operators := by
    rw [hoperators, hinitial]
    rcases hcalls with rfl | ⟨-, hslots⟩
    · rfl
    · exact Definition.foldl_operators_perm htidy hperm hslots
  refine ⟨haccepts, hsame, fun n source memory => ?_⟩
  have hp : p' = (p.defineAll calls).withTableOperators p'.operators := by
    rw [Parser.defineAll_eq, hsame]
    rfl
  rw [hp, Parser.parse_withTableOperators]

/-- Sums and products, whose operators may be left out. -/
def sumsAndProducts : Script :=
  [.fixed (.terminal "word" none), .fixed (.nonterminal "E"),
    .fixed (.operatorTerminal ⟨1⟩ .infixOp), .movable ⟨"+", "yfx", 500, ⟨1⟩⟩,
    .fixed (.rule ⟨1⟩ [.terminal ⟨1⟩] none), .movable ⟨"*", "yfx", 400, ⟨1⟩⟩,
    .fixed (.rule ⟨1⟩ [.nonterminal ⟨1⟩, .terminal ⟨2⟩, .nonterminal ⟨1⟩] none)]

/-- Their operators, in the other order. -/
def timesAndPlus : List OperatorCall := [⟨"*", "yfx", 400, ⟨1⟩⟩, ⟨"+", "yfx", 500, ⟨1⟩⟩]

/-- The table of their operators. -/
def arithmeticOperators : OperatorTable :=
  .ofDefinitions [⟨"*", ⟨1⟩, "E", .yfx, 400, ⟨2⟩⟩, ⟨"+", ⟨1⟩, "E", .yfx, 500, ⟨2⟩⟩]

/-- A parser over a table that makes trees. -/
def treeParser (table : GeneratedTable) :
    Parser (TerminalId × String) (ParseTree (TerminalId × String)) Empty Unit :=
  Parser.ofTable table.toParseTable treeMaker none

/-- A sum whose second summand is a product. -/
def sumOfProductTokens : List (TerminalId × String) :=
  [(⟨1⟩, "x"), (⟨1⟩, "+"), (⟨1⟩, "y"), (⟨1⟩, "*"), (⟨1⟩, "z")]

/-- Defined for the parser in the other order, the operators of sums and products are those of the
grammar that declares them, and a sum is parsed with the same tree. -/
theorem operators_interchangeable_sums :
    (Grammar.define sumsAndProducts.full).2 =
      .ok (infixOperators.withOperators arithmeticOperators) ∧
    (treeParser infixOperatorsTable).Accepts timesAndPlus ∧
    ((treeParser infixOperatorsTable).defineAll timesAndPlus).operators = arithmeticOperators ∧
    ∃ tree, ∃ last : Machine (TerminalId × String) (ParseTree (TerminalId × String)) Empty Unit,
      ((treeParser infixOperatorsTable).defineAll timesAndPlus).parse 30
        (sumOfProductTokens.map .ok) () = some (.ok tree, last) ∧
      (treeParser (infixOperatorsTable.withOperators arithmeticOperators)).parse 30
        (sumOfProductTokens.map .ok) () = some (.ok tree, last) := by
  have hvalid : sumsAndProducts.Valid .initial :=
    ⟨⟨by decide, by decide, .yfx, ⟨2⟩, rfl, rfl⟩, ⟨by decide, by decide, .yfx, ⟨2⟩, rfl, rfl⟩,
      trivial⟩
  have hspares : sumsAndProducts.Pairwise ScriptStep.Spares := by
    simp [sumsAndProducts, ScriptStep.Spares, Declaration.call?]
  have hperm : timesAndPlus.Perm (Script.calls sumsAndProducts) := .swap _ _ _
  have hbase : (Grammar.define sumsAndProducts.base).2 = .ok infixOperators := by decide
  have hfull : (Grammar.define sumsAndProducts.full).2 =
      .ok (infixOperators.withOperators arithmeticOperators) := by decide
  obtain ⟨operators, hdefine, -, hbuilds⟩ := operators_interchangeable
    (τ := TerminalId × String) (ν := ParseTree (TerminalId × String)) (β := Empty) (ε := Empty)
    (σ := Unit) hvalid hspares (.inr ⟨hperm, by decide +kernel⟩)
  obtain rfl : arithmeticOperators = operators := by
    rw [hfull, hbase] at hdefine
    exact congrArg Grammar.operators (Except.ok.inj hdefine)
  obtain ⟨-, hparsers⟩ := hbuilds infixOperators (.inl hbase) ⟨.preferShift, .earliestRule, none⟩
  obtain ⟨haccepts, hsame, hparses⟩ :=
    hparsers infixOperatorsTable infixOperators_build treeMaker none
  refine ⟨hfull, haccepts, hsame, ?_⟩
  have hends : (((treeParser infixOperatorsTable).defineAll timesAndPlus).parse (ε := Empty) 30
      (sumOfProductTokens.map .ok) ()).any (fun result => result.1.isOk) = true := by
    decide +kernel
  obtain ⟨⟨outcome, last⟩, hparse, hok⟩ := (Option.any_eq_true _ _).mp hends
  cases outcome with
  | error e => cases hok
  | ok tree => exact ⟨tree, last, hparse, (hparses 30 _ ()).symm.trans hparse⟩

end OperatorLALR
