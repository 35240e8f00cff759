import OperatorLALR.Proofs.ConflictFree.Progress

/-!
# Tables without conflicts decide the language

Over the table of a grammar without conflicts, and over tokens that denote no operators, a parse
ends: it accepts with the derivation tree of the tokens if they are in the language of the grammar,
and rejects them if they are not (`conflictFree_decides`). The grammar is not ambiguous, because the
only run there is accepts with each derivation tree.
-/

namespace OperatorLALR

variable {τ ν β ε σ : Type} [Token τ] {g : Grammar} {a : Analysis} {operators : OperatorTable}
  {tokens : List τ} {tree : ParseTree τ}

/-- A parse over the table of a grammar without conflicts, of tokens that denote no operators, ends:
it accepts with the node of a derivation tree over the tokens, or it rejects them and there is no
such tree. There is at most one, and there is one if and only if the tokens are in the language of
the grammar. -/
theorem conflictFree_decides {options : BuildOptions} {table : GeneratedTable} (hg : g.IsDefined)
    (ha : g.analyse = .ok a) (hstates : (g.kernels a).items.size < stateNumbers)
    (hbuild : (g.build options).2 = .ok table) (hfree : g.ConflictFree a)
    (calls : List OperatorCall) (limit : Option Nat) {maker : NodeMaker τ ν β σ}
    (hmaker : maker.Total) {p : Parser τ ν β σ}
    (hp : p = (Parser.ofTable table.toParseTable maker limit).defineAll calls)
    (htokens : ∀ token ∈ tokens, Token.operatorName token = none ∧
      Token.terminal token ≠ endOfInput) (memory : σ) :
    p.Decides ε tokens memory (ParseTree.Parses g p.operators tokens) ∧
      (∀ tree tree' : ParseTree τ, tree.Parses g p.operators tokens →
        tree'.Parses g p.operators tokens → tree = tree') ∧
      ((∃ tree : ParseTree τ, tree.Parses g p.operators tokens) ↔
        g.Derives [.nonterminal g.start]
          (tokens.map fun token => .terminal (Token.terminal token))) := by
  have h : g.Built a := ⟨hg.wellFormed, ha, hstates⟩
  obtain ⟨hserves, hcovers, htable, hsame, -⟩ := h.of_defineAll hbuild hp
  have hd : g.Dictates a p.overTrees.table := htable ▸ h.dictates hbuild hfree
  have hnames : ∀ token ∈ tokens, Token.operatorName token = none :=
    fun token htoken => (htokens token htoken).1
  have hplain : ∀ token ∈ tokens, Token.terminal token ≠ endOfInput :=
    fun token htoken => (htokens token htoken).2
  have hstart : Branch.Steady g a p.overTrees tokens .start := .start g a p.overTrees tokens
  obtain ⟨hdecides, hunique⟩ := hd.toHeeds.decides (ε := ε) h hserves hcovers (hsame ▸ hmaker)
    hnames (hstart.ends h hserves hcovers hd hnames)
    (fun b tree hreach hresult => Branch.parses_of_reaches h hserves hplain hreach hresult)
    (fun tree hparses => (hd.guide h).reaches_of_parses h hserves hcovers hparses
      (hparses.plain hnames)) memory
  exact ⟨hdecides, hunique, exists_parses_iff hnames⟩

/-- The table of the grammar with an empty rule in front. -/
def optionalPrefixTable : GeneratedTable :=
  (optionalPrefix.build .default).2.toOption.getD ⟨#[], [], [], [], ∅, ∅, []⟩

/-- The table is built. -/
theorem optionalPrefix_build :
    (optionalPrefix.build .default).2 = .ok optionalPrefixTable := by
  decide +kernel

/-- The grammar has no conflicts. -/
theorem optionalPrefix_conflictFree : optionalPrefix.ConflictFree optionalPrefixAnalysis := by
  have hall : ∀ e ∈ (optionalPrefix.automaton optionalPrefixAnalysis).numbered,
      ∀ c ∈ (e.2.competitions ((optionalPrefix.automaton optionalPrefixAnalysis).lookaheadSets
        optionalPrefix optionalPrefixAnalysis) e.1).entries,
      c.2.ordered.candidates.length ≤ 1 := by
    decide +kernel
  exact fun q s hs => hall (q, s) (Automaton.mem_numbered.mpr hs)

/-- A parser over the table. -/
def optionalPrefixParser : Parser TerminalId (ParseTree TerminalId) Empty Unit :=
  Parser.ofTable optionalPrefixTable.toParseTable treeMaker none

/-- The terminal behind the empty rule is parsed with its derivation tree, and the terminal twice is
not in the language. -/
theorem conflictFree_decides_optionalPrefix :
    (∃ tree, ∃ last : Machine TerminalId (ParseTree TerminalId) Empty Unit,
      optionalPrefixParser.parse 20 ([⟨1⟩].map .ok) () = some (.ok tree, last) ∧
      tree.Parses optionalPrefix optionalPrefixParser.operators [⟨1⟩]) ∧
    ¬ optionalPrefix.Derives [.nonterminal optionalPrefix.start]
      [.terminal ⟨1⟩, .terminal ⟨1⟩] := by
  have haccepts : ((optionalPrefixParser.parse (ε := Empty) 20 ([⟨1⟩].map .ok) ()).any
      fun result => result.1.isOk) = true := by
    decide +kernel
  have hrejects : ((optionalPrefixParser.parse (ε := Empty) 20 ([⟨1⟩, ⟨1⟩].map .ok) ()).any
      fun result => !result.1.isOk) = true := by
    decide +kernel
  obtain ⟨hdecides, -⟩ := conflictFree_decides (ε := Empty)
    optionalPrefix_isDefined (a := optionalPrefixAnalysis) (by decide +kernel) (by decide +kernel)
    optionalPrefix_build optionalPrefix_conflictFree [] none
    treeMaker_total (p := optionalPrefixParser) rfl
    (show ∀ token ∈ [(⟨1⟩ : TerminalId)], _ by decide) ()
  obtain ⟨hdecides', -, hlanguage⟩ := conflictFree_decides (ε := Empty)
    optionalPrefix_isDefined (a := optionalPrefixAnalysis) (by decide +kernel) (by decide +kernel)
    optionalPrefix_build optionalPrefix_conflictFree [] none
    treeMaker_total (p := optionalPrefixParser) rfl
    (show ∀ token ∈ [(⟨1⟩ : TerminalId), ⟨1⟩], _ by decide) ()
  constructor
  · obtain ⟨⟨outcome, last⟩, hparse, hok⟩ := (Option.any_eq_true _ _).mp haccepts
    rcases hdecides.of_parse hparse with ⟨node, tree, rfl, hmakes, hparses⟩ | ⟨⟨_, _, _, rfl⟩, -⟩
    · obtain rfl : node = tree := hmakes.view id treeMaker_keeps
      exact ⟨node, last, hparse, hparses⟩
    · cases hok
  · obtain ⟨⟨outcome, last⟩, hparse, hok⟩ := (Option.any_eq_true _ _).mp hrejects
    intro hderives
    obtain ⟨tree, hparses⟩ := hlanguage.mpr hderives
    rcases hdecides'.of_parse hparse with ⟨node, _, rfl, -, -⟩ | ⟨-, hnone⟩
    · cases hok
    · exact hnone tree hparses

end OperatorLALR
