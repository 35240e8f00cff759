import OperatorLALR.Proofs.Completeness.Decisions
import OperatorLALR.Proofs.Operators.Placement

/-!
# Parses of expressions

The parser for expressions finds a tree that respects the operators whenever there is one, however
its tokens have to be read for it, and rejects the input only if there is none
(`expressions_decides`): neither the comparison of operators nor the check of operands at a
reduction ever forbids what such a tree calls for.
-/

namespace OperatorLALR

variable {τ ν β ε σ : Type}

/-- The operators that are defined for expressions are read as the terminals of their fixities. -/
theorem terminal_of_expressionsTable {category : NonterminalId} {fixity : Fixity} {t : TerminalId}
    (h : expressionsTable.toParseTable.operatorTerminal category fixity = some t) :
    t = fixity.terminal := by
  have hentries : ∀ e ∈ expressionsTable.operatorTerminals.entries, e.2 = e.1.2.terminal := by
    decide
  exact hentries _ (OrderedMap.mem_of_find? h)

variable [Token τ] {tokens : List τ}

/-- Atoms, parentheses and operators are read as such. -/
theorem Reads.proper {operators : OperatorTable} {token : τ} {reading : Reading}
    (h : Reads operators token reading) (htoken : Token.terminal token ∈ [⟨1⟩, ⟨2⟩, ⟨3⟩])
    (hoperators : ∀ op ∈ operators.toList, op.terminal = op.fixity.terminal) : reading.Proper := by
  cases h with
  | plain =>
    have hle : ∀ t ∈ [(⟨1⟩ : TerminalId), ⟨2⟩, ⟨3⟩], t.val ≤ 3 := by decide
    exact hle _ htoken
  | operator _ hop => exact hoperators _ (OperatorTable.mem_of_mem_lookup hop)

/-- A parse of atoms and parentheses, each of which may denote operators as well, by the default
table for expressions ends. It accepts with the node of an expression over the whole input that
respects the operators as which it reads the tokens, or it rejects the input and there is no such
expression. -/
theorem expressions_decides {table : GeneratedTable}
    (hbuild : (expressions.build .default).2 = .ok table) (calls : List OperatorCall)
    {maker : NodeMaker τ ν β σ} (hmaker : maker.Total) {p : Parser τ ν β σ}
    (hp : p = (Parser.ofTable table.toParseTable maker none).defineAll calls)
    (htokens : ∀ token ∈ tokens, Token.terminal token ∈ [⟨1⟩, ⟨2⟩, ⟨3⟩]) (memory : σ) :
    p.Decides ε tokens memory fun tree =>
      tree.Parses expressions p.operators tokens ∧ tree.Respects p.table := by
  obtain rfl : expressionsTable = table := Except.ok.inj (expressions_build.symm.trans hbuild)
  have h := expressions_built
  obtain ⟨hserves, hcovers, htable, hsame, hnone⟩ := h.of_defineAll hbuild hp
  have hoperators : ∀ op ∈ p.operators.toList, op.terminal = op.fixity.terminal := by
    rw [hp]
    exact Parser.defineAll_forall calls (fun _ => terminal_of_expressionsTable) nofun
  have hplain : ∀ token ∈ tokens, Token.terminal token ≠ endOfInput := by
    intro token htoken hend
    have hmem := htokens token htoken
    rw [hend] at hmem
    exact absurd hmem (by decide)
  have hmaker' : p.maker.Total := hsame ▸ hmaker
  refine Parser.decides h hserves hcovers hmaker' (.inl hnone)
    (Branch.ends_of_consumes h hserves expressions_consumes tokens) ?_ ?_ memory
  · intro b tree hreach hresult
    have hrespects : b.Respects p.table :=
      hreach.invariant (fun _ hb => hb.next) (List.forall_mem_nil _)
    exact ⟨Branch.parses_of_reaches h hserves hplain hreach hresult, hrespects.result hresult⟩
  · rintro tree ⟨hparses, hrespects⟩
    have hproper : ∀ v ∈ tree.views, v.reading.Proper := by
      intro v hv
      have hplace : v.place ∈ tokens.zipIdx := by
        rw [← hparses.leaves, ← tree.map_place_views]
        exact List.mem_map_of_mem hv
      obtain ⟨hreads, -⟩ := hparses.spells.reads v hv
      exact hreads.proper (htokens _ (List.fst_mem_of_mem_zipIdx hplace)) hoperators
    have hplaced : Expression.NodePlaced [] tree Lookahead.inputEnd :=
      ⟨.of_spells hparses.spells hproper, htable ▸ hrespects, nofun, nofun⟩
    exact (expressions_guide hserves hcovers htable).reaches_of_parses h hserves hcovers hparses
      hplaced.placed

/-- A parser for expressions with `-` as an operator between operands and in front of one. -/
def differenceParser :
    Parser (TerminalId × String) (ParseTree (TerminalId × String)) Empty Unit :=
  (Parser.ofTable expressionsTable.toParseTable treeMaker none).defineAll
    [⟨"-", "yfx", 500, ⟨1⟩⟩, ⟨"-", "fy", 200, ⟨1⟩⟩]

/-- Four atoms, of which the two in the middle may be read as operators. -/
def differenceTokens : List (TerminalId × String) :=
  [(⟨1⟩, "x"), (⟨1⟩, "-"), (⟨1⟩, "-"), (⟨1⟩, "y")]

/-- The difference of an atom and the negative of another is parsed, with a tree that respects both
operators. -/
theorem expressions_decides_difference :
    ∃ tree, ∃ last : Machine (TerminalId × String) (ParseTree (TerminalId × String)) Empty Unit,
      differenceParser.parse 40 (differenceTokens.map .ok) () = some (.ok tree, last) ∧
      tree.Parses expressions differenceParser.operators differenceTokens ∧
      tree.Respects differenceParser.table := by
  have hends : ((differenceParser.parse (ε := Empty) 40 (differenceTokens.map .ok) ()).any
      fun result => result.1.isOk) = true := by
    decide +kernel
  obtain ⟨⟨outcome, last⟩, hparse, hok⟩ := (Option.any_eq_true _ _).mp hends
  have hdecides : differenceParser.Decides Empty differenceTokens () fun tree =>
      tree.Parses expressions differenceParser.operators differenceTokens ∧
        tree.Respects differenceParser.table :=
    expressions_decides expressions_build [⟨"-", "yfx", 500, ⟨1⟩⟩, ⟨"-", "fy", 200, ⟨1⟩⟩]
      treeMaker_total rfl (by decide) ()
  have hmaker : differenceParser.maker = treeMaker := by
    rw [differenceParser, Parser.defineAll_eq]
    rfl
  rcases hdecides.of_parse hparse with ⟨node, tree, rfl, hmakes, hwanted⟩ | ⟨⟨_, _, _, rfl⟩, -⟩
  · obtain rfl : node = tree := hmakes.view id (hmaker ▸ treeMaker_keeps)
    exact ⟨node, last, hparse, hwanted⟩
  · cases hok

end OperatorLALR
