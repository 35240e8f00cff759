import OperatorLALR.Build
import OperatorLALR.Proofs.Automaton.States
import OperatorLALR.Proofs.Traversal

/-!
# What the table of a grammar permits

However conflicts are settled, a table tells a parser to do in a state only what the automaton has
there: to shift across a terminal with a transition, to reduce by a rule that is complete in the
state, and to accept at the end of the input where the rule of the augmented start symbol is
complete. The candidates that it leaves to the parser are such actions too
(`Grammar.Built.tabulates`).
-/

namespace OperatorLALR

namespace Grammar

variable {g : Grammar} {a : Analysis} {q : StateId} {s : State} {t : TerminalId}

/-- A single action that the automaton has in a state on a terminal, or a refusal. -/
def Permits (g : Grammar) (a : Analysis) (q : StateId) (t : TerminalId) : Action → Prop
  | .shift next => (g.automaton a).Goes q (.terminal t) next
  | .reduce r => r ≠ acceptRule ∧ (g.automaton a).Has q ⟨r, (g.body r).length⟩
  | .accept => t = endOfInput ∧ (g.automaton a).Has q ⟨acceptRule, (g.body acceptRule).length⟩
  | .error => True
  | .dynamic _ | .choice _ => False

/-- All actions of a competition are those of the automaton. -/
structure Competes (g : Grammar) (a : Analysis) (q : StateId) (t : TerminalId) (c : Competition) :
    Prop where
  shift : ∀ next, c.shift = some next → (g.automaton a).Goes q (.terminal t) next
  reduces : ∀ r ∈ c.reduces, (g.automaton a).Has q ⟨r, (g.body r).length⟩ ∧
    (r = acceptRule → t = endOfInput)

/-- A verdict leaves only actions of the automaton. -/
def PermitsVerdict (g : Grammar) (a : Analysis) (q : StateId) (t : TerminalId) : Verdict → Prop
  | .action action => g.Permits a q t action
  | .dynamic list | .choice list => ∀ action ∈ list, g.Permits a q t action

namespace Competes

variable {c : Competition} {options : BuildOptions}

/-- Nothing competes at first. -/
theorem none (g : Grammar) (a : Analysis) (q : StateId) (t : TerminalId) :
    g.Competes a q t Competition.none :=
  ⟨nofun, nofun⟩

/-- The order of the reductions does not matter. -/
theorem ordered (h : g.Competes a q t c) : g.Competes a q t c.ordered := by
  refine ⟨h.shift, fun r hr => h.reduces r ?_⟩
  refine (mem_sortDistinct ?_).mp hr
  exact fun r r' heq => Index.ext (Nat.compare_eq_eq.mp heq)

/-- The candidates of a competition without the rule of the augmented start symbol. -/
theorem candidates (h : g.Competes a q t c) (haccept : acceptRule ∉ c.reduces) :
    ∀ action ∈ c.candidates, g.Permits a q t action := by
  intro action haction
  rw [Competition.candidates, List.mem_append, List.mem_map, List.mem_map] at haction
  rcases haction with ⟨next, hnext, rfl⟩ | ⟨r, hr, rfl⟩
  · exact h.shift next (Option.mem_toList.mp hnext)
  · exact ⟨fun heq => haccept (heq ▸ hr), (h.reduces r hr).1⟩

/-- The policy on shifts chooses among the candidates. -/
theorem shiftVerdict (h : g.Competes a q t c) (haccept : acceptRule ∉ c.reduces) {next : StateId}
    (hshift : c.shift = some next) : g.PermitsVerdict a q t (options.shiftVerdict next c) := by
  rw [BuildOptions.shiftVerdict]
  split
  · exact h.shift next hshift
  · exact h.candidates haccept

/-- Precedences and the policy choose among the candidates. -/
theorem settleShiftReduce (h : g.Competes a q t c) (haccept : acceptRule ∉ c.reduces)
    {next : StateId} (hshift : c.shift = some next) :
    g.PermitsVerdict a q t (g.settleShiftReduce options t next c).1 := by
  have hpolicy : g.PermitsVerdict a q t (options.shiftVerdict next c) :=
    h.shiftVerdict haccept hshift
  unfold Grammar.settleShiftReduce
  dsimp only
  split
  · exact hpolicy
  · exact h.shift next hshift
  · exact trivial
  · split
    · next r hreduces =>
      have hr : r ∈ c.reduces := hreduces ▸ List.mem_singleton_self r
      exact ⟨fun heq => haccept (heq ▸ hr), (h.reduces r hr).1⟩
    · exact hpolicy
  · exact hpolicy

/-- Whatever is settled is permitted. -/
theorem settle (h : g.Competes a q t c) {verdict : Verdict} {cause : Option ConflictCause}
    (hsettle : g.settle options q t c = .ok (verdict, cause)) : g.PermitsVerdict a q t verdict := by
  obtain ⟨shift, shiftRules, reduces⟩ := c
  unfold Grammar.settle at hsettle
  dsimp only at hsettle
  split at hsettle
  · next next =>
    obtain ⟨rfl, -⟩ := Prod.mk.inj (Except.ok.inj hsettle)
    exact h.shift next rfl
  · obtain ⟨rfl, -⟩ := Prod.mk.inj (Except.ok.inj hsettle)
    exact trivial
  · next r =>
    obtain ⟨rfl, -⟩ := Prod.mk.inj (Except.ok.inj hsettle)
    obtain ⟨hhas, hend⟩ := h.reduces r (List.mem_singleton_self r)
    by_cases hr : r = acceptRule
    · rw [if_pos hr]
      exact ⟨hend hr, hr ▸ hhas⟩
    · rw [if_neg hr]
      exact ⟨hr, hhas⟩
  · next shift first others _ =>
    split at hsettle
    · split at hsettle <;> cases hsettle
    · next haccept =>
      split at hsettle
      · obtain ⟨rfl, -⟩ := Prod.mk.inj (Except.ok.inj hsettle)
        split
        · exact h.candidates haccept
        · exact h.candidates haccept
      · split at hsettle
        · next next =>
          obtain rfl := congrArg Prod.fst (Except.ok.inj hsettle)
          exact h.settleShiftReduce haccept rfl
        · obtain ⟨rfl, -⟩ := Prod.mk.inj (Except.ok.inj hsettle)
          rw [BuildOptions.reduceVerdict]
          split
          · have hfirst : first ∈ first :: others := List.mem_cons_self
            exact ⟨fun heq => haccept (heq ▸ hfirst), (h.reduces first hfirst).1⟩
          · exact h.candidates haccept

end Competes

namespace Built

variable {l : LookaheadSets} {options : BuildOptions} {table : GeneratedTable}

/-- All that competes in a state are actions of the automaton. -/
def CompetesIn (g : Grammar) (a : Analysis) (q : StateId) (cs : Competitions) : Prop :=
  ∀ e ∈ cs.entries, g.Competes a q e.1 e.2

/-- The shift of a transition is an action of the automaton. -/
theorem competesIn_addShift {cs : Competitions} {transition : Transition}
    (hcs : CompetesIn g a q cs) (hs : (g.automaton a).state? q = some s)
    (htransition : transition ∈ s.transitions) : CompetesIn g a q (s.addShift cs transition) := by
  rw [State.addShift]
  split
  · next symbol next hmarker hnext =>
    have hgoes : (g.automaton a).Goes q (.terminal symbol) next :=
      ⟨s, hs, transition, htransition, hmarker, hnext⟩
    refine OrderedMap.forall_update (P := g.Competes a q) hcs ?_ fun c hc => ?_
    · exact ⟨fun _ heq => Option.some.inj heq ▸ hgoes, (Competes.none g a q symbol).reduces⟩
    · exact ⟨fun _ heq => Option.some.inj heq ▸ hgoes, hc.reduces⟩
  · exact hcs

/-- The reduction by a rule that is complete in a state is an action of the automaton. -/
theorem competesIn_addReduce {cs : Competitions} {r : RuleId}
    (hcs : CompetesIn g a q cs) (hr : (g.automaton a).Has q ⟨r, (g.body r).length⟩) :
    CompetesIn g a q (State.addReduce r (State.reduceTerminals l q r) cs) := by
  rw [State.addReduce]
  refine List.foldlRecOn (motive := CompetesIn g a q) _ _ hcs fun cs hcs t ht => ?_
  have hend : r = acceptRule → t = endOfInput := by
    intro hrule
    rw [State.reduceTerminals, if_pos hrule] at ht
    exact List.mem_singleton.mp ht
  have hadd : ∀ c, g.Competes a q t c → g.Competes a q t (c.addReduce r) := by
    intro c hc
    refine ⟨hc.shift, fun r' hr' => ?_⟩
    rcases List.mem_append.mp hr' with hr' | hr'
    · exact hc.reduces r' hr'
    · rw [List.mem_singleton.mp hr']
      exact ⟨hr, hend⟩
  exact OrderedMap.forall_update (P := g.Competes a q) hcs (hadd _ (Competes.none g a q t)) hadd

/-- What competes in a state on a terminal are actions of the automaton. -/
theorem competes (h : g.Built a) (hs : (g.automaton a).state? q = some s) :
    CompetesIn g a q (s.competitions l q) := by
  rw [State.competitions]
  have hshifts : CompetesIn g a q (s.transitions.foldl s.addShift ∅) :=
    List.foldlRecOn (motive := CompetesIn g a q) _ _ nofun
      fun _ hcs _ htransition => competesIn_addShift hcs hs htransition
  refine List.foldlRecOn (motive := CompetesIn g a q) _ _ hshifts ?_
  rintro cs hcs ⟨place, item⟩ hitem
  obtain ⟨hplace, hnext⟩ := (h.mem_completeItems hs).mp hitem
  have hhas : (g.automaton a).Has q item := ⟨s, hs, List.mem_of_getElem? hplace⟩
  refine competesIn_addReduce hcs ?_
  rw [← h.dot_of_complete hhas hnext]
  exact hhas

/-- The cells of a state hold verdicts that are permitted on their terminals. -/
theorem permits_cells (h : g.Built a) (hs : (g.automaton a).state? q = some s)
    {settled : SettledState} (hsettled : g.settleState options l q s = .ok settled) :
    settled.gotos = s.gotos ∧ ∀ c ∈ settled.cells, g.PermitsVerdict a q c.terminal c.verdict := by
  unfold settleState at hsettled
  cases hcells : (s.competitions l q).entries.mapM fun (t, c) => g.settleCell options q t c with
  | error e =>
    rw [hcells] at hsettled
    cases hsettled
  | ok cells =>
    rw [hcells] at hsettled
    obtain rfl := Except.ok.inj hsettled
    refine ⟨rfl, fun c hc => ?_⟩
    obtain ⟨i, hi⟩ := List.mem_iff_getElem?.mp hc
    obtain ⟨⟨t, competition⟩, hentry, hcell⟩ := exists_getElem?_left (mapM_eq_ok_iff.mp hcells) hi
    have hcompetes := (h.competes hs _ (List.mem_of_getElem? hentry)).ordered
    dsimp only at hcell hcompetes
    unfold settleCell at hcell
    cases hverdict : g.settle options q t competition.ordered with
    | error e =>
      rw [hverdict] at hcell
      cases hcell
    | ok result =>
      rw [hverdict] at hcell
      obtain rfl := Except.ok.inj hcell
      exact hcompetes.settle hverdict

end Built

/-- What a parser may rely on in a table: it does what the automaton of a grammar does, and no
operator is read as the end of the input. -/
structure Tabulates (g : Grammar) (a : Analysis) (table : ParseTable) : Prop where
  initial : table.initial = initialState
  action : ∀ q t, g.Permits a q t (table.action q t) ∨ ∃ d list,
    (table.action q t = .dynamic d ∨ table.action q t = .choice d) ∧
      table.candidates d = some list ∧ ∀ action ∈ list, g.Permits a q t action
  goto : ∀ q n next, table.goto q n = some next → (g.automaton a).Goes q (.nonterminal n) next
  rule : ∀ r shape, table.rule r = some shape → ∃ rule, g.rule? r = some rule ∧
    shape.left = rule.left ∧ shape.length = rule.body.length
  operators : ∀ op ∈ table.operators.toList, op.terminal ≠ endOfInput
  operatorTerminal : ∀ category fixity t, table.operatorTerminal category fixity = some t →
    t ≠ endOfInput

namespace Built

variable {l : LookaheadSets} {options : BuildOptions} {table : GeneratedTable}
  {settled : List SettledState}

/-- A table that was built holds what was settled for each state by its lookaheads. -/
theorem exists_settled (h : g.Built a) (hbuild : (g.build options).2 = .ok table) :
    ∃ settled, List.Forall₂ (fun e settled => g.settleState options
        ((g.automaton a).lookaheadSets g a) e.1 e.2 = .ok settled)
      (g.automaton a).numbered settled ∧ table = .ofSettled g settled := by
  have hgenerate : (g.automaton a).generate g ((g.automaton a).lookaheadSets g a) options =
      .ok table := by
    unfold build at hbuild
    rw [h.analysed] at hbuild
    dsimp only at hbuild
    split at hbuild
    · cases hbuild
    · next table' hgenerate =>
      split at hbuild
      · cases hbuild
      · obtain rfl : table' = table := Except.ok.inj hbuild
        exact hgenerate
  unfold Automaton.generate at hgenerate
  split at hgenerate
  · cases hgenerate
  · next settled hsettled =>
    dsimp only at hgenerate
    split at hgenerate
    · cases hgenerate
    · exact ⟨settled, mapM_eq_ok_iff.mp hsettled, (Except.ok.inj hgenerate).symm⟩

/-- The row of a state is what was settled for it. -/
theorem row?_eq_some (h : g.Built a) (hsettled : List.Forall₂
      (fun e settled => g.settleState options l e.1 e.2 = .ok settled) (g.automaton a).numbered
      settled) {row : TableRow} (hrow : (GeneratedTable.ofSettled g settled).row? q = some row) :
    ∃ s one, (g.automaton a).state? q = some s ∧ one ∈ settled ∧
      row = one.row (SettledState.distinctCandidates settled) ∧ one.gotos = s.gotos ∧
        ∀ c ∈ one.cells, g.PermitsVerdict a q c.terminal c.verdict := by
  rw [GeneratedTable.row?, GeneratedTable.ofSettled] at hrow
  dsimp only at hrow
  rw [List.getElem?_toArray, List.getElem?_map, Option.map_eq_some_iff] at hrow
  obtain ⟨one, hone, rfl⟩ := hrow
  obtain ⟨⟨q', s⟩, hnumbered, hsettle⟩ := exists_getElem?_left hsettled hone
  obtain ⟨hq, hs⟩ := Automaton.getElem?_numbered.mp hnumbered
  obtain rfl : q = q' := Index.ext hq
  obtain ⟨hgotos, hcells⟩ := h.permits_cells hs hsettle
  exact ⟨s, one, hs, List.mem_of_getElem? hone, rfl, hgotos, hcells⟩

/-- A list of candidates is found at the place by which a verdict names it. -/
theorem candidates_idxOf {one : SettledState} {c : Cell} {list : List Action}
    (hone : one ∈ settled) (hc : c ∈ one.cells) (hlist : c.verdict.candidates? = some list) :
    (SettledState.distinctCandidates settled)[
      (SettledState.distinctCandidates settled).idxOf list]? = some list := by
  have hmem : list ∈ SettledState.distinctCandidates settled := by
    rw [SettledState.distinctCandidates, mem_fresh]
    refine ⟨List.mem_flatMap.mpr ⟨one, hone, ?_⟩, List.not_mem_nil⟩
    exact List.mem_filterMap.mpr ⟨c, hc, hlist⟩
  exact List.getElem?_idxOf hmem

/-- The action that a table has in a state on a terminal, or those among which it leaves the choice,
are actions of the automaton. -/
theorem permits_action (h : g.Built a) (hsettled : List.Forall₂
      (fun e settled => g.settleState options l e.1 e.2 = .ok settled) (g.automaton a).numbered
      settled) (q : StateId) (t : TerminalId) :
    g.Permits a q t ((GeneratedTable.ofSettled g settled).toParseTable.action q t) ∨ ∃ d list,
      ((GeneratedTable.ofSettled g settled).toParseTable.action q t = .dynamic d ∨
        (GeneratedTable.ofSettled g settled).toParseTable.action q t = .choice d) ∧
      (GeneratedTable.ofSettled g settled).toParseTable.candidates d = some list ∧
        ∀ action ∈ list, g.Permits a q t action := by
  rw [GeneratedTable.toParseTable]
  dsimp only
  cases hrow : (GeneratedTable.ofSettled g settled).row? q with
  | none => exact .inl trivial
  | some row =>
    obtain ⟨s, one, hs, hone, rfl, -, hcells⟩ := h.row?_eq_some hsettled hrow
    rw [Option.map_some, Option.getD_some, TableRow.action]
    cases haction : (one.row (SettledState.distinctCandidates settled)).actions.find? t with
    | none => exact .inl trivial
    | some action =>
      obtain ⟨c, hc, heq⟩ := List.mem_map.mp (OrderedMap.mem_of_find? haction)
      obtain ⟨rfl, rfl⟩ := Prod.mk.inj heq
      have hverdict := hcells c hc
      have hplace := fun list (hlist : c.verdict.candidates? = some list) =>
        candidates_idxOf hone hc hlist
      rw [Option.getD_some]
      generalize c.verdict = verdict at hverdict hplace
      cases verdict with
      | action action => exact .inl hverdict
      | dynamic list => exact .inr ⟨_, list, .inl rfl, hplace list rfl, hverdict⟩
      | choice list => exact .inr ⟨_, list, .inr rfl, hplace list rfl, hverdict⟩

/-- Where a table leads behind a reduction, the automaton has a transition. -/
theorem goes_goto (h : g.Built a) (hsettled : List.Forall₂
      (fun e settled => g.settleState options l e.1 e.2 = .ok settled) (g.automaton a).numbered
      settled) {n : NonterminalId} {next : StateId}
    (hgoto : (GeneratedTable.ofSettled g settled).toParseTable.goto q n = some next) :
    (g.automaton a).Goes q (.nonterminal n) next := by
  obtain ⟨row, hrow, hfind⟩ := Option.bind_eq_some_iff.mp hgoto
  obtain ⟨s, one, hs, -, rfl, hgotos, -⟩ := h.row?_eq_some hsettled hrow
  have hmem := OrderedMap.mem_of_find?_ofList hfind
  rw [hgotos, State.gotos, List.mem_filterMap] at hmem
  obtain ⟨transition, htransition, heq⟩ := hmem
  split at heq
  · next n' next' hmarker hnext =>
    obtain ⟨rfl, rfl⟩ := Prod.mk.inj (Option.some.inj heq)
    exact ⟨s, hs, transition, htransition, hmarker, hnext⟩
  · cases heq

/-- The table of a grammar does what the automaton does. -/
theorem tabulates (h : g.Built a) (hbuild : (g.build options).2 = .ok table) :
    g.Tabulates a table.toParseTable := by
  obtain ⟨settled, hsettled, rfl⟩ := h.exists_settled hbuild
  refine ⟨rfl, h.permits_action hsettled, fun q n next hgoto => h.goes_goto hsettled hgoto, ?_,
    h.wellFormed.operators, fun category fixity t ht =>
      h.wellFormed.operatorTerminals (category, fixity) t ht⟩
  intro r shape hshape
  change (g.rules.map fun rule => rule.shape g)[r.val]? = some shape at hshape
  rw [List.getElem?_map, Option.map_eq_some_iff] at hshape
  obtain ⟨rule, hrule, rfl⟩ := hshape
  exact ⟨rule, hrule, rfl, rfl⟩

end Built

end Grammar

end OperatorLALR
