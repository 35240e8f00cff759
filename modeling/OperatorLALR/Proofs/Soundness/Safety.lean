import OperatorLALR.Proofs.Automaton.Propagation
import OperatorLALR.Proofs.Parser.Steps
import OperatorLALR.Proofs.ParseTable.Covers
import OperatorLALR.Proofs.Soundness.Parses

/-!
# Generated tables are never at fault

A branch that keeps to the automaton finds on its stack what every action expects, and in the table
what every action refers to (`Branch.Sound.not_fault`). So a parse over the table of a grammar never
ends with an error that blames the table, whatever the source gives and the maker of nodes does, and
wherever the parse has returned to (`parse_blames_no_table`).
-/

namespace OperatorLALR

variable {τ ν β ε σ : Type} [Token τ] {g : Grammar} {a : Analysis} {p : Parser τ ν β σ}
  {tokens : List τ}

namespace Branch.Sound

variable {m : Machine τ ν ε σ} {b : Branch τ} {lookahead : Lookahead τ}

/-- A reduction that the automaton has finds its rule, its handle and its transition. -/
theorem not_fault_reduce (h : Sound g a p.overTrees tokens b) (hg : g.Built a)
    (hp : Serves g a p.overTrees) (hc : g.Covers a p.table)
    (hstack : List.Forall₂ (StackEntry.Alike p.maker) m.stack b.stack) {r : RuleId}
    (hr : r ≠ acceptRule)
    (hhas : (g.automaton a).Has (p.overTrees.stateOn b.stack) ⟨r, (g.body r).length⟩) :
    ¬ p.Fault lookahead m (.reduce r) := by
  obtain ⟨symbols, hpath⟩ := h.path
  obtain ⟨rule, hrule, hbody⟩ := hg.exists_rule hhas
  have hshape : p.table.rule r = some (rule.shape g) := hc.rule r rule hrule
  have hlength : (rule.shape g).length = (g.body r).length := congrArg List.length hbody.symm
  obtain ⟨hle, -, hfront⟩ := hpath.handle hg hp.table.initial hhas
  intro hfault
  cases hfault with
  | rule hnone =>
    rw [hshape] at hnone
    cases hnone
  | @handle _ shape hsome hlt =>
    obtain rfl := Option.some.inj (hshape.symm.trans hsome)
    rw [hstack.length_eq] at hlt
    omega
  | @goto _ shape hsome _ hnone =>
    obtain rfl := Option.some.inj (hshape.symm.trans hsome)
    obtain ⟨item, hitem, hnext⟩ := hg.exists_item_before_left hfront hrule hr
    obtain ⟨next, hgoes⟩ := hg.exists_goes hitem hnext
    rw [← hlength, stateOn_alike (List.forall₂_drop _ hstack)] at hgoes
    have hgoto : p.table.goto (p.stateOn (m.stack.drop (rule.shape g).length))
        (rule.shape g).left = some next := hc.goto _ _ _ hgoes
    rw [hgoto] at hnone
    cases hnone
  | candidates ha => rcases ha with ha | ha <;> cases ha

/-- An action that the automaton has can be carried out. -/
theorem not_fault_of_permits (h : Sound g a p.overTrees tokens b) (hg : g.Built a)
    (hp : Serves g a p.overTrees) (hc : g.Covers a p.table)
    (hstack : List.Forall₂ (StackEntry.Alike p.maker) m.stack b.stack) {action : Action}
    (hpermits : g.Permits a (p.overTrees.stateOn b.stack) lookahead.terminal action) :
    ¬ p.Fault lookahead m action := by
  cases action with
  | shift next =>
    intro hfault
    cases hfault with
    | shift hend =>
      rw [hend] at hpermits
      exact hg.not_goes_endOfInput hpermits
    | candidates ha => rcases ha with ha | ha <;> cases ha
  | reduce r => exact h.not_fault_reduce hg hp hc hstack hpermits.1 hpermits.2
  | accept =>
    intro hfault
    cases hfault with
    | accept hnode =>
      obtain ⟨symbols, hpath⟩ := h.path
      obtain ⟨top, below, tree, htop, hitem⟩ := hpath.exists_node hg hp.table.initial hpermits.2
      rw [htop] at hstack
      obtain ⟨top', below', halike, -, hstack'⟩ := List.forall₂_cons_right_iff.mp hstack
      obtain ⟨node, hnode', -⟩ := HandleItem.Alike.exists_node (hitem ▸ halike.item)
      exact hnode top' below' node hstack' hnode'
    | candidates ha => rcases ha with ha | ha <;> cases ha
  | dynamic d => exact absurd hpermits id
  | choice d => exact absurd hpermits id
  | error =>
    intro hfault
    cases hfault with
    | candidates ha => rcases ha with ha | ha <;> cases ha

omit [Token τ] in
/-- Where a list of candidates is left to the parser, the table has it, and the rules of all its
reductions. -/
theorem not_fault_of_open (hg : g.Built a) (hc : g.Covers a p.table) {q : StateId}
    {t : TerminalId} {action : Action} {d : CandidatesId} {list : List Action}
    (haction : action = .dynamic d ∨ action = .choice d) (hlist : p.table.candidates d = some list)
    (hpermits : ∀ candidate ∈ list, g.Permits a q t candidate) :
    ¬ p.Fault lookahead m action := by
  intro hfault
  cases hfault with
  | @candidates _ d' haction' hnone =>
    have hsame : d' = d := by
      rcases haction with rfl | rfl <;> rcases haction' with heq | heq <;> cases heq <;> rfl
    rw [hsame, hlist] at hnone
    cases hnone
  | @candidate d' list' r hlist' hr hnone =>
    have hsame : d' = d := by
      rcases haction with heq | heq <;> cases heq
      rfl
    rw [hsame, hlist] at hlist'
    obtain rfl := Option.some.inj hlist'
    obtain ⟨rule, hrule, -⟩ := hg.exists_rule (hpermits _ hr).2
    have hshape : p.table.rule r = some (rule.shape g) := hc.rule r rule hrule
    rw [hshape] at hnone
    cases hnone
  | _ => rcases haction with heq | heq <;> cases heq

/-- A machine at a branch that keeps to the automaton can carry out its next action, unless the
input or the operators forbid it. -/
theorem not_fault (h : Sound g a p.overTrees tokens b) (hg : g.Built a)
    (hp : Serves g a p.overTrees) (hc : g.Covers a p.table) (hm : Mirrors p.maker m b)
    (hl : m.lookahead = some lookahead) :
    ¬ p.Fault lookahead { m with forced := none } (p.nextAction m lookahead) := by
  have hb : b.lookahead = some lookahead.timeless := by
    rw [hm.lookahead, hl]
    rfl
  have haction : b.action p.overTrees lookahead.timeless = p.nextAction m lookahead :=
    hm.action_eq
  have hpermits := h.permits hp hb
  rw [haction, Lookahead.terminal_timeless] at hpermits
  rcases hpermits with hsingle | ⟨d, list, hopen, hlist, hall⟩
  · exact h.not_fault_of_permits (m := { m with forced := none }) hg hp hc hm.stack hsingle
  · exact not_fault_of_open hg hc hopen hlist hall

end Branch.Sound

/-- All branches that a search comes upon keep to the automaton. -/
theorem Parser.Searches.sound {p : Parser τ ν β σ} {branches : List (Branch τ)}
    (h : p.Searches tokens [.start] branches) (hg : g.Built a) (hp : Serves g a p.overTrees) :
    ∀ b ∈ branches, Branch.Sound g a p.overTrees tokens b := by
  refine Search.Explores.forall (P := Branch.Sound g a p.overTrees tokens) h
    (fun _ hb => hb.next hg hp) ?_
  intro b hb
  rw [List.mem_singleton.mp hb]
  exact .start g a p.overTrees tokens

omit [Token τ] in
/-- A parser over the table of a grammar, whatever operators are defined, serves the grammar. It has
all that may be asked of the table, and the maker of nodes and the limit that it was given. -/
theorem Grammar.Built.of_defineAll {options : BuildOptions} {table : GeneratedTable}
    {maker : NodeMaker τ ν β σ} (h : g.Built a) (hbuild : (g.build options).2 = .ok table)
    {calls : List OperatorCall} {limit : Option Nat}
    (hp : p = (Parser.ofTable table.toParseTable maker limit).defineAll calls) :
    Serves g a p.overTrees ∧ g.Covers a p.table ∧ p.table = table.toParseTable ∧
      p.maker = maker ∧ p.maxChoiceDepth = limit := by
  have hsame := Parser.defineAll_eq (Parser.ofTable table.toParseTable maker limit) calls
  rw [← hp] at hsame
  have htable : p.table = table.toParseTable := by rw [hsame]; rfl
  refine ⟨hp ▸ serves_defineAll h hbuild calls limit, htable ▸ h.covers hbuild, htable, ?_, ?_⟩
  · rw [hsame]
    rfl
  · rw [hsame]
    rfl

/-- A parse over the table of a grammar, after any definitions of operators, never ends with an
error that blames the table. -/
theorem parse_blames_no_table {options : BuildOptions} {table : GeneratedTable}
    {maker : NodeMaker τ ν β σ} (hg : g.IsDefined) (ha : g.analyse = .ok a)
    (hstates : (g.kernels a).items.size < stateNumbers) (hbuild : (g.build options).2 = .ok table)
    (calls : List OperatorCall) (limit : Option Nat)
    (hp : p = (Parser.ofTable table.toParseTable maker limit).defineAll calls) {n : Nat}
    {source : List (Except ε τ)} {memory : σ} {e : ParseError ε β} {last : Machine τ ν ε σ}
    (hparse : p.parse n source memory = some (.error e, last)) : e.blamesTable = false := by
  have h : g.Built a := ⟨hg.wellFormed, ha, hstates⟩
  obtain ⟨hserves, hcovers, -⟩ := h.of_defineAll hbuild hp
  obtain ⟨m, hreach, hstep⟩ := Parser.run_eq_some hparse
  obtain ⟨saved, b, rest, hsearch, hfollows⟩ := Follows.of_source hreach
  cases Parser.step_failed hstep with
  | source | maker | rejected | readings | actions => rfl
  | @table _ lookahead m₁ _ hlooked hfault =>
    obtain ⟨saved₁, b₁, rest₁, hsearch₁, h₁⟩ := hfollows.looked hlooked
    have hsound := (hsearch.trans hsearch₁).sound h hserves b₁ List.mem_cons_self
    exact absurd hfault
      (hsound.not_fault h hserves hcovers h₁.mirrors hlooked.lookahead_eq)

/-- A sum without its right operand ends with an error, but not with one that blames the table. -/
theorem parse_blames_no_table_sum :
    ∃ e, ∃ last : Machine (TerminalId × String) (ParseTree (TerminalId × String)) Empty Unit,
      sumParser.parse 30 ((sumTokens.take 2).map .ok) () = some (.error e, last) ∧
      e.blamesTable = false := by
  have hends : ((sumParser.parse (ε := Empty) 30 ((sumTokens.take 2).map .ok) ()).any
      fun result => !result.1.isOk) = true := by
    decide +kernel
  obtain ⟨⟨outcome, last⟩, hparse, herror⟩ := (Option.any_eq_true _ _).mp hends
  cases outcome with
  | ok tree => cases herror
  | error e =>
    exact ⟨e, last, hparse, parse_blames_no_table (a := infixOperatorsAnalysis)
      infixOperators_isDefined (by decide +kernel) (by decide +kernel) infixOperators_build
      [⟨"+", "yfx", 500, ⟨1⟩⟩] none rfl hparse⟩

end OperatorLALR
