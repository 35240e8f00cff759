import OperatorLALR.Proofs.Completeness.Offers
import OperatorLALR.Proofs.Completeness.Plain
import OperatorLALR.Proofs.ParseTable.Acceptance

/-!
# Tables that leave all conflicts open

A table that leaves every action of the automaton open leads a parser along all derivation trees
over tokens that denote no operators, however many of them there are (`guide_of_ways`). If the
policies are to try all actions and no precedences decide, the table of a grammar is one. The parser
comes upon all trees then, unless it accepts before: it accepts inputs in the language of the
grammar only, and rejects none of them (`parse_tryAll`).
-/

namespace OperatorLALR

variable {τ ν β ε σ : Type} [Token τ] {g : Grammar} {a : Analysis} {tokens : List τ}

omit [Token τ] in
/-- The lookahead in front of trees without operators is read as none, if the one behind them is. -/
theorem operator?_lookaheadBefore {trees : List (ParseTree τ)} {lookahead : Lookahead τ}
    (htrees : ∀ tree ∈ trees, tree.Plain) (hlookahead : lookahead.operator? = none) :
    (lookaheadBefore trees lookahead).operator? = none := by
  rw [lookaheadBefore]
  cases hviews : ParseTree.viewsOf trees with
  | nil => exact hlookahead
  | cons view rest =>
    have hview : view ∈ ParseTree.viewsOf trees := hviews ▸ List.mem_cons_self
    rw [ParseTree.viewsOf_eq, List.mem_flatMap] at hview
    obtain ⟨tree, htree, hview⟩ := hview
    exact htrees tree htree view hview

/-- A table that leaves every action of the automaton open leads a parser along all trees without
operators, in front of what is read as none. -/
theorem guide_of_ways {p : Parser τ (ParseTree τ) β σ} (h : g.Built a) (hp : Serves g a p)
    (hc : g.Covers a p.table)
    (hways : ∀ q t action, g.Acts a q t action → action ∈ p.table.ways q t)
    (haccept : ∀ q, (g.automaton a).Has q ⟨acceptRule, (g.body acceptRule).length⟩ →
      p.table.action q endOfInput = .accept) :
    Guide g a p fun _ tree lookahead => tree.Plain ∧ lookahead.operator? = none where
  shift _ hfit hgoes := by
    have hplain := hfit.1 _ (List.mem_singleton_self _)
    exact Parser.offers_of_plain (hways _ _ (.shift _) hgoes) (hp.table.shapes h hc _ _) hplain
  reduce _ _ hfit hr hlook :=
    Parser.offers_of_plain (hways _ _ (.reduce _) ⟨hr, hlook⟩) (hp.table.shapes h hc _ _) hfit.2
  operands hfit := hfit.1.operandsFit
  child _ _ _ _ hfit := by
    refine ⟨hfit.1.child (List.mem_append_right _ List.mem_cons_self), ?_⟩
    refine operator?_lookaheadBefore (fun tree htree => hfit.1.child ?_) hfit.2
    exact List.mem_append_right _ (List.mem_cons_of_mem _ htree)
  accept _ hhas := haccept _ hhas

/-- Consider a parse over the table of a grammar without precedences, built to try all actions, of
tokens that denote no operators. If the tokens are rejected they are not in the language of the
grammar, and if they are accepted they are. -/
theorem parse_tryAll {options : BuildOptions} {table : GeneratedTable} (hg : g.IsDefined)
    (ha : g.analyse = .ok a) (hstates : (g.kernels a).items.size < stateNumbers)
    (hprecedence : ∀ terminal ∈ g.terminals, terminal.precedence = none)
    (hshift : options.shiftPolicy = .tryAll) (hreduce : options.reducePolicy = .tryAll)
    (hbuild : (g.build options).2 = .ok table) (calls : List OperatorCall) (limit : Option Nat)
    {maker : NodeMaker τ ν β σ} {p : Parser τ ν β σ}
    (hp : p = (Parser.ofTable table.toParseTable maker limit).defineAll calls)
    (htokens : ∀ token ∈ tokens, Token.operatorName token = none ∧
      Token.terminal token ≠ endOfInput) {n : Nat} {memory : σ}
    {result : Except (ParseError ε β) ν} {last : Machine τ ν ε σ}
    (hparse : p.parse n (tokens.map .ok) memory = some (result, last)) :
    (∀ e, result = .error e → e.isRejection = true →
      ¬ g.Derives [.nonterminal g.start]
        (tokens.map fun token => .terminal (Token.terminal token))) ∧
    ∀ node, result = .ok node →
      g.Derives [.nonterminal g.start]
        (tokens.map fun token => .terminal (Token.terminal token)) := by
  have h : g.Built a := ⟨hg.wellFormed, ha, hstates⟩
  obtain ⟨hserves, hcovers, htable, -⟩ := h.of_defineAll hbuild hp
  have hnames : ∀ token ∈ tokens, Token.operatorName token = none :=
    fun token htoken => (htokens token htoken).1
  have hplain : ∀ token ∈ tokens, Token.terminal token ≠ endOfInput :=
    fun token htoken => (htokens token htoken).2
  have hways : ∀ q t action, g.Acts a q t action → action ∈ p.table.ways q t := by
    intro q t action hacts
    rw [htable]
    exact h.mem_ways_of_tryAll hbuild (Grammar.terminalPrecedence_eq_none hprecedence) hshift
      hreduce hacts
  have haccept : ∀ q, (g.automaton a).Has q ⟨acceptRule, (g.body acceptRule).length⟩ →
      p.table.action q endOfInput = .accept := by
    intro q hhas
    rw [htable]
    exact h.action_accept hbuild hhas
  constructor
  · rintro e rfl he hderives
    obtain ⟨tree, hparses⟩ : ∃ tree : ParseTree τ, tree.Parses g p.operators tokens :=
      (exists_parses_iff hnames).mpr hderives
    -- some run accepts the tree, and a parse that rejects has tried it
    obtain ⟨b, hreach, hresult⟩ :=
      (guide_of_ways h hserves hcovers hways haccept).reaches_of_parses h hserves hcovers hparses
        ⟨hparses.plain hnames, rfl⟩
    rw [Parser.not_rejected_of_reaches hreach hresult hparse] at he
    cases he
  · rintro node rfl
    obtain ⟨_, b, rest, tree, -, -, hsearch, -, hresult, -⟩ := exists_of_parse_eq_ok hparse
    have hreach := Parser.Searches.reaches hsearch b List.mem_cons_self
    have hparses := Branch.parses_of_reaches h hserves hplain hreach hresult
    exact (exists_parses_iff hnames).mp ⟨tree, hparses⟩

/-- Try all actions, and tolerate any number of conflicts. -/
def BuildOptions.exhaustive : BuildOptions := ⟨.tryAll, .tryAll, none⟩

/-- The table of the ambiguous grammar of repetitions. -/
def repetitionTable : GeneratedTable :=
  (repetition.build .exhaustive).2.toOption.getD ⟨#[], [], [], [], ∅, ∅, []⟩

/-- A parser over the table. -/
def repetitionParser : Parser TerminalId (ParseTree TerminalId) Empty Unit :=
  Parser.ofTable repetitionTable.toParseTable treeMaker none

/-- The terminal three times is parsed, in spite of the choice behind the second, and is in the
language; the empty input is rejected, and is not. -/
theorem parse_tryAll_repetition :
    (∃ tree, ∃ last : Machine TerminalId (ParseTree TerminalId) Empty Unit,
      repetitionParser.parse 20 ([⟨1⟩, ⟨1⟩, ⟨1⟩].map .ok) () = some (.ok tree, last)) ∧
    repetition.Derives [.nonterminal repetition.start]
      [.terminal ⟨1⟩, .terminal ⟨1⟩, .terminal ⟨1⟩] ∧
    ¬ repetition.Derives [.nonterminal repetition.start] [] := by
  have hanalysed : repetition.analyse = .ok repetitionAnalysis := by decide +kernel
  have hbuild : (repetition.build .exhaustive).2 = .ok repetitionTable := by decide +kernel
  have hprecedence : ∀ terminal ∈ repetition.terminals, terminal.precedence = none := by decide
  have houtcomes :
      ((repetitionParser.parse (ε := Empty) 20 ([⟨1⟩, ⟨1⟩, ⟨1⟩].map .ok) ()).any
        fun result => result.1.isOk) = true ∧
      ((repetitionParser.parse (ε := Empty) 20 ([].map .ok) ()).any fun result =>
        match result.1 with
        | .error e => e.isRejection
        | .ok _ => false) = true := by
    decide +kernel
  obtain ⟨⟨outcome, last⟩, hparse, hok⟩ := (Option.any_eq_true _ _).mp houtcomes.1
  obtain ⟨⟨outcome', last'⟩, hparse', hrejected⟩ := (Option.any_eq_true _ _).mp houtcomes.2
  cases outcome with
  | error e => cases hok
  | ok tree =>
    cases outcome' with
    | ok tree => cases hrejected
    | error e =>
      have hlanguage := parse_tryAll repetition_isDefined hanalysed (by decide +kernel) hprecedence
        rfl rfl hbuild [] none (p := repetitionParser) rfl
        (show ∀ token ∈ [(⟨1⟩ : TerminalId), ⟨1⟩, ⟨1⟩], _ by decide) hparse
      have hempty := parse_tryAll repetition_isDefined hanalysed (by decide +kernel) hprecedence
        rfl rfl hbuild [] none (p := repetitionParser) rfl
        (show ∀ token ∈ ([] : List TerminalId), _ by decide) hparse'
      exact ⟨⟨tree, last, hparse⟩, hlanguage.2 tree rfl, hempty.1 e rfl hrejected⟩

end OperatorLALR
