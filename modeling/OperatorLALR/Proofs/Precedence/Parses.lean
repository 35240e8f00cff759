import OperatorLALR.Proofs.Precedence.Language
import OperatorLALR.Proofs.Precedence.Stacks
import OperatorLALR.Proofs.Termination.Consumption

/-!
# Precedences decide on one tree

For the grammar `E := ATOM | E op E` a table is built without a conflict on record. A parse over it
accepts with the derivation tree that is arranged by the precedences of the operators, of which
there is one at most, and rejects the input if there is none (`precedences_decide`). Operators of
one priority without associativity may therefore not stand beside one another, although there are
derivation trees in which they do.
-/

namespace OperatorLALR

/-- An arranged tree may stand alone at the end of the input. -/
theorem Grammar.Infix.seated_alone {τ : Type} {g : Grammar} {atom : TerminalId}
    {operators : List TerminalId} (h : g.Infix atom operators) {tree : ParseTree τ}
    (harranged : tree.Arranged g) : tree.Seated g operators [] (some endOfInput) := by
  refine harranged.seated (fun _ _ _ hbefore => by cases hbefore) fun op _ after hnext hmem => ?_
  obtain rfl := Option.some.inj hnext
  have hdeclared : g.Declares (.terminal endOfInput) := by
    refine h.defined.wellFormed.body _ _ (h.rule?_binary hmem) _ ?_
    exact List.mem_cons_of_mem _ List.mem_cons_self
  exact absurd rfl hdeclared.1

namespace Branch.Keeps

variable {τ β σ : Type} [Token τ] {g : Grammar} {a : Analysis} {atom : TerminalId}
  {operators : List TerminalId} {p : Parser τ (ParseTree τ) β σ} {tokens : List τ}

/-- A run accepts only with arranged trees. -/
theorem arranged_of_reaches (h : g.Infix atom operators) (hg : g.Built a) (hp : Serves g a p)
    (hheeds : g.Heeds a p.table) (hchosen : ∀ q t, g.Chosen a q t (p.table.action q t))
    (htokens : ∀ token ∈ tokens, Token.operatorName token = none ∧
      Token.terminal token ≠ endOfInput) {b : Branch τ} {tree : ParseTree τ}
    (hreach : Search.Reaches (Branch.next p tokens) .start b)
    (hresult : b.result? p = some tree) : tree.Arranged g := by
  have hboth : b.Steady g a p tokens ∧ b.Keeps g operators := by
    refine hreach.invariant (P := fun b => b.Steady g a p tokens ∧ b.Keeps g operators)
      (fun b hb b' hb' => ?_) ⟨.start g a p tokens, .start g operators⟩
    exact ⟨hb.1.next hheeds (fun token htoken => (htokens token htoken).1) hg hp b' hb',
      hb.2.next hb.1 h hg hp hheeds hchosen b' hb'⟩
  exact hboth.2.arranged hboth.1 hg hp (fun token htoken => (htokens token htoken).2) hresult

end Branch.Keeps

variable {τ ν β ε σ : Type} [Token τ] {g : Grammar} {atom : TerminalId}
  {operators : List TerminalId}

/-- For a grammar of operators between operands, with a precedence for each operator and one
associativity for those of equal priority, a table is built without a conflict on record. A parse
over it, of tokens that denote no operators, ends: it accepts with the node of a derivation tree
that is arranged by precedence, or it rejects the tokens and there is no such tree. There is at most
one, and the tokens have derivation trees at all if and only if they are atoms with operators
between them. -/
theorem precedences_decide (h : g.Infix atom operators)
    (hcount : 2 * operators.length + 3 < stateNumbers) (options : BuildOptions) :
    ∃ table, (g.build options).2 = .ok table ∧ table.conflicts = [] ∧
      ∀ (calls : List OperatorCall) (limit : Option Nat) (maker : NodeMaker τ ν β σ), maker.Total →
        ∀ p, p = (Parser.ofTable table.toParseTable maker limit).defineAll calls →
        ∀ tokens : List τ, (∀ token ∈ tokens, Token.operatorName token = none ∧
          Token.terminal token ≠ endOfInput) →
        ∀ memory, p.Decides ε tokens memory (fun tree =>
          tree.Parses g p.operators tokens ∧ tree.Arranged g) ∧
        (∀ tree tree' : ParseTree τ, tree.Parses g p.operators tokens ∧ tree.Arranged g →
          tree'.Parses g p.operators tokens ∧ tree'.Arranged g → tree = tree') ∧
        ((∃ tree : ParseTree τ, tree.Parses g p.operators tokens) ↔
          Alternates (· = atom) (· ∈ operators) (tokens.map Token.terminal)) := by
  obtain ⟨a, ha⟩ := h.exists_analysis
  have hg : g.Built a := h.built ha hcount
  have hsilent : g.Silent a := h.silent hg
  obtain ⟨table, hbuild, hnone⟩ := hg.exists_table hsilent options
  refine ⟨table, hbuild, hnone, fun calls limit maker hmaker p hp tokens htokens memory => ?_⟩
  obtain ⟨hserves, hcovers, htable, hsame, -⟩ := hg.of_defineAll hbuild hp
  have hchosen : ∀ q t, g.Chosen a q t (p.overTrees.table.action q t) :=
    htable ▸ hg.chosen hsilent hbuild
  have hheeds : g.Heeds a p.overTrees.table := ⟨fun q t => (hchosen q t).eq_error_or_acts⟩
  have haccept : ∀ q, (g.automaton a).Has q ⟨acceptRule, (g.body acceptRule).length⟩ →
      p.overTrees.table.action q endOfInput = .accept :=
    fun q hhas => htable ▸ hg.action_accept hbuild hhas
  have hnames : ∀ token ∈ tokens, Token.operatorName token = none :=
    fun token htoken => (htokens token htoken).1
  have hplain : ∀ token ∈ tokens, Token.terminal token ≠ endOfInput :=
    fun token htoken => (htokens token htoken).2
  -- what is accepted is arranged, because no shift and no reduction goes against the precedences
  have hsound : ∀ b tree, Search.Reaches (Branch.next p.overTrees tokens) .start b →
      b.result? p.overTrees = some tree → tree.Parses g p.operators tokens ∧ tree.Arranged g :=
    fun b tree hreach hresult => ⟨Branch.parses_of_reaches hg hserves hplain hreach hresult,
      Branch.Keeps.arranged_of_reaches h hg hserves hheeds hchosen htokens hreach hresult⟩
  -- an arranged tree may stand wherever its parts come to stand, so that the table follows it
  have hcomplete : ∀ tree : ParseTree τ, tree.Parses g p.operators tokens ∧ tree.Arranged g →
      ∃ b, Search.Reaches (Branch.next p.overTrees tokens) .start b ∧
        b.result? p.overTrees = some tree := by
    rintro tree ⟨hparses, harranged⟩
    exact (h.guide hg hserves hchosen haccept).reaches_of_parses hg hserves hcovers hparses
      ⟨hparses.plain hnames, ⟨_, hparses.spells⟩, h.seated_alone harranged⟩
  have hwords := h.derives_iff (w := tokens.map Token.terminal)
  rw [List.map_map] at hwords
  obtain ⟨hdecides, hunique⟩ := hheeds.decides (ε := ε) hg hserves hcovers (hsame ▸ hmaker) hnames
    (Branch.ends_of_consumes hg hserves h.consumes tokens) hsound hcomplete memory
  exact ⟨hdecides, hunique, (exists_parses_iff hnames).trans hwords⟩

/-- The grammar `E := E = E | n | E - E` (as rules 1 to 3) with precedences of both operators. The
lower one has no associativity, and the higher one is left-associative. -/
def comparisons : Grammar where
  terminals := [.endOfInput, ⟨"=", some ⟨1, .nonassoc⟩, .plain⟩, ⟨"-", some ⟨2, .left⟩, .plain⟩,
    ⟨"n", none, .plain⟩]
  nonterminals := [augmentedStartName, "E"]
  rules := [⟨augmentedStart, [.nonterminal ⟨1⟩], none⟩,
    ⟨⟨1⟩, [.nonterminal ⟨1⟩, .terminal ⟨1⟩, .nonterminal ⟨1⟩], none⟩,
    ⟨⟨1⟩, [.terminal ⟨3⟩], none⟩,
    ⟨⟨1⟩, [.nonterminal ⟨1⟩, .terminal ⟨2⟩, .nonterminal ⟨1⟩], none⟩]
  start := ⟨1⟩
  operators := ∅
  operatorTerminals := ∅

/-- The grammar is one of operators between operands. -/
theorem comparisons_infix : comparisons.Infix ⟨3⟩ [⟨1⟩, ⟨2⟩] where
  defined := ⟨[.terminal "=" (some ⟨1, .nonassoc⟩), .terminal "-" (some ⟨2, .left⟩),
    .terminal "n" none, .nonterminal "E",
    .rule ⟨1⟩ [.nonterminal ⟨1⟩, .terminal ⟨1⟩, .nonterminal ⟨1⟩] none,
    .rule ⟨1⟩ [.terminal ⟨3⟩] none,
    .rule ⟨1⟩ [.nonterminal ⟨1⟩, .terminal ⟨2⟩, .nonterminal ⟨1⟩] none], .inl (by decide)⟩
  rules := by decide
  distinct := by decide
  precedence := by
    simp only [List.forall_mem_cons]
    exact ⟨⟨_, _, rfl⟩, ⟨_, _, rfl⟩, List.forall_mem_nil _⟩
  consistent := by
    simp only [List.forall_mem_cons]
    simp [Grammar.terminalPrecedence, Grammar.terminal?, comparisons]

/-- The table of the grammar. It refuses a second comparison behind the first one. -/
def comparisonsTable : GeneratedTable where
  rows := #[
    ⟨⟨[(⟨3⟩, .shift ⟨2⟩)]⟩, ⟨[(⟨1⟩, ⟨1⟩)]⟩⟩,
    ⟨⟨[(⟨1⟩, .shift ⟨3⟩), (⟨2⟩, .shift ⟨4⟩), (endOfInput, .accept)]⟩, ∅⟩,
    ⟨⟨[(endOfInput, .reduce ⟨2⟩), (⟨1⟩, .reduce ⟨2⟩), (⟨2⟩, .reduce ⟨2⟩)]⟩, ∅⟩,
    ⟨⟨[(⟨3⟩, .shift ⟨2⟩)]⟩, ⟨[(⟨1⟩, ⟨5⟩)]⟩⟩,
    ⟨⟨[(⟨3⟩, .shift ⟨2⟩)]⟩, ⟨[(⟨1⟩, ⟨6⟩)]⟩⟩,
    ⟨⟨[(⟨1⟩, .error), (⟨2⟩, .shift ⟨4⟩), (endOfInput, .reduce ⟨1⟩)]⟩, ∅⟩,
    ⟨⟨[(⟨1⟩, .reduce ⟨3⟩), (⟨2⟩, .reduce ⟨3⟩), (endOfInput, .reduce ⟨3⟩)]⟩, ∅⟩]
  rules := [⟨augmentedStart, 1, none⟩, ⟨⟨1⟩, 3, none⟩, ⟨⟨1⟩, 1, none⟩, ⟨⟨1⟩, 3, none⟩]
  candidates := []
  conflicts := []
  operators := ∅
  operatorTerminals := ∅
  nonterminals := [augmentedStartName, "E"]

/-- A parser over the table. -/
def comparisonsParser : Parser TerminalId (ParseTree TerminalId) Empty Unit :=
  Parser.ofTable comparisonsTable.toParseTable treeMaker none

/-- A difference is compared with a number by an arranged tree. There are derivation trees for two
comparisons beside one another, but none of them is arranged. -/
theorem precedences_decide_comparisons :
    (∃ tree, ∃ last : Machine TerminalId (ParseTree TerminalId) Empty Unit,
      comparisonsParser.parse 40 ([⟨3⟩, ⟨1⟩, ⟨3⟩, ⟨2⟩, ⟨3⟩].map .ok) () = some (.ok tree, last) ∧
      tree.Parses comparisons comparisonsParser.operators [⟨3⟩, ⟨1⟩, ⟨3⟩, ⟨2⟩, ⟨3⟩] ∧
      tree.Arranged comparisons) ∧
    (∃ tree : ParseTree TerminalId,
      tree.Parses comparisons comparisonsParser.operators [⟨3⟩, ⟨1⟩, ⟨3⟩, ⟨1⟩, ⟨3⟩]) ∧
    ∀ tree : ParseTree TerminalId,
      tree.Parses comparisons comparisonsParser.operators [⟨3⟩, ⟨1⟩, ⟨3⟩, ⟨1⟩, ⟨3⟩] →
        ¬ tree.Arranged comparisons := by
  have haccepts : ((comparisonsParser.parse (ε := Empty) 40
      ([⟨3⟩, ⟨1⟩, ⟨3⟩, ⟨2⟩, ⟨3⟩].map .ok) ()).any fun result => result.1.isOk) = true := by
    decide +kernel
  have hrejects : ((comparisonsParser.parse (ε := Empty) 40
      ([⟨3⟩, ⟨1⟩, ⟨3⟩, ⟨1⟩, ⟨3⟩].map .ok) ()).any fun result => !result.1.isOk) = true := by
    decide +kernel
  obtain ⟨table, hbuild, -, hdecides⟩ := precedences_decide (τ := TerminalId)
    (ν := ParseTree TerminalId) (β := Empty) (ε := Empty) (σ := Unit) comparisons_infix (by decide)
    .default
  have hliteral : (comparisons.build .default).2 = .ok comparisonsTable := by decide +kernel
  obtain rfl : comparisonsTable = table := Except.ok.inj (hliteral.symm.trans hbuild)
  obtain ⟨hdecided, -⟩ := hdecides [] none treeMaker treeMaker_total comparisonsParser rfl
    [⟨3⟩, ⟨1⟩, ⟨3⟩, ⟨2⟩, ⟨3⟩] (by decide) ()
  obtain ⟨hdecided', -, hwords⟩ := hdecides [] none treeMaker treeMaker_total comparisonsParser rfl
    [⟨3⟩, ⟨1⟩, ⟨3⟩, ⟨1⟩, ⟨3⟩] (by decide) ()
  refine ⟨?_, hwords.mpr ?_, fun tree hparses harranged => ?_⟩
  · obtain ⟨⟨outcome, last⟩, hparse, hok⟩ := (Option.any_eq_true _ _).mp haccepts
    rcases hdecided.of_parse hparse with ⟨node, tree, rfl, hmakes, hboth⟩ | ⟨⟨_, _, _, rfl⟩, -⟩
    · obtain rfl : node = tree := hmakes.view id treeMaker_keeps
      exact ⟨node, last, hparse, hboth⟩
    · cases hok
  · exact .cons rfl (by decide) (.cons rfl (by decide) (.last rfl))
  · obtain ⟨⟨outcome, last⟩, hparse, herror⟩ := (Option.any_eq_true _ _).mp hrejects
    rcases hdecided'.of_parse hparse with ⟨_, _, rfl, -, -⟩ | ⟨-, hnone⟩
    · cases herror
    · exact hnone tree ⟨hparses, harranged⟩

end OperatorLALR
