import OperatorLALR.Proofs.ParseTable.Competitions
import OperatorLALR.Proofs.ParseTable.Covers

/-!
# Tables without lost actions

What is settled from the actions that compete in a state on a terminal is the action of the table
(`action_of_settled`). A table from which no action has been dropped when it was built leaves open
whatever the automaton has: where all conflicts are left to the operators (`mem_ways`), and where
there are no conflicts at all, so that the table is the automaton (`action_of_conflictFree`).
-/

namespace OperatorLALR

/-- Along two lists with the same keys, related values are found under a key. -/
theorem OrderedMap.findIn_forall₂ {κ α β : Type} [DecidableEq κ] {R : κ → α → β → Prop}
    {xs : List (κ × α)} {ys : List (κ × β)}
    (h : List.Forall₂ (fun x y => y.1 = x.1 ∧ R x.1 x.2 y.2) xs ys) (k : κ) :
    (findIn k xs = none ∧ findIn k ys = none) ∨
      ∃ x y, findIn k xs = some x ∧ findIn k ys = some y ∧ R k x y := by
  induction h with
  | nil => exact .inl ⟨rfl, rfl⟩
  | @cons x y xs ys hxy _ ih =>
    obtain ⟨k', x⟩ := x
    obtain ⟨k'', y⟩ := y
    obtain ⟨rfl, hr⟩ := hxy
    rw [findIn, findIn]
    by_cases hk : k'' = k
    · subst hk
      rw [if_pos rfl, if_pos rfl]
      exact .inr ⟨x, y, rfl, rfl, hr⟩
    · rw [if_neg hk, if_neg hk]
      exact ih

namespace Grammar.Built

variable {g : Grammar} {a : Analysis} {q : StateId} {s : State} {t : TerminalId} {r : RuleId}
  {l : LookaheadSets} {options : BuildOptions} {settled : List SettledState}

/-- The action of a table in a state on a terminal is what was settled from the competition there,
and without one it is a refusal. -/
theorem action_of_settled (hsettled : List.Forall₂
      (fun e settled => g.settleState options l e.1 e.2 = .ok settled) (g.automaton a).numbered
      settled) (hs : (g.automaton a).state? q = some s) (t : TerminalId) :
    ((s.competitions l q).find? t = none ∧
      (GeneratedTable.ofSettled g settled).toParseTable.action q t = .error) ∨
    ∃ one ∈ settled, ∃ cell ∈ one.cells, ∃ c, (s.competitions l q).find? t = some c ∧
      g.settle options q t c.ordered = .ok (cell.verdict, cell.cause) ∧
      (GeneratedTable.ofSettled g settled).toParseTable.action q t =
        cell.verdict.toAction (SettledState.distinctCandidates settled) := by
  obtain ⟨one, hone, hsettle, hrow⟩ := exists_row hsettled hs
  have haction : (GeneratedTable.ofSettled g settled).toParseTable.action q t =
      ((OrderedMap.findIn t (one.cells.map fun c => (c.terminal,
        c.verdict.toAction (SettledState.distinctCandidates settled)))).getD .error) := by
    rw [GeneratedTable.toParseTable]
    dsimp only
    rw [hrow]
    rfl
  obtain ⟨cells, hcells, rfl⟩ := map_eq_ok_iff.mp hsettle
  have hkeys : List.Forall₂ (fun x y => y.1 = x.1 ∧ ∃ cell ∈ cells,
      g.settle options q x.1 x.2.ordered = .ok (cell.verdict, cell.cause) ∧
        y.2 = cell.verdict.toAction (SettledState.distinctCandidates settled))
      (s.competitions l q).entries (cells.map fun c => (c.terminal,
        c.verdict.toAction (SettledState.distinctCandidates settled))) := by
    rw [List.forall₂_map_right_iff, List.forall₂_iff_get]
    have hall := mapM_eq_ok_iff.mp hcells
    refine ⟨hall.length_eq, fun i hi hi' => ?_⟩
    obtain ⟨⟨verdict, cause⟩, hverdict, hcell⟩ := map_eq_ok_iff.mp (hall.get hi hi')
    rw [← hcell]
    exact ⟨rfl, _, hcell ▸ List.get_mem _ _, hverdict, rfl⟩
  rcases OrderedMap.findIn_forall₂ (R := fun t (c : Competition) action => ∃ cell ∈ cells,
      g.settle options q t c.ordered = .ok (cell.verdict, cell.cause) ∧
        action = cell.verdict.toAction (SettledState.distinctCandidates settled)) hkeys t with
    ⟨hnone, hnone'⟩ | ⟨c, action, hc, hfound, cell, hmem, hverdict, rfl⟩
  · refine .inl ⟨hnone, ?_⟩
    rw [haction, hnone']
    rfl
  · refine .inr ⟨_, hone, cell, hmem, c, hc, hverdict, ?_⟩
    rw [haction, hfound]
    rfl

end Grammar.Built

/-- The competing actions: the shift, then the reductions, of which that by the rule of the
augmented start symbol accepts. -/
def Competition.actions (c : Competition) : List Action :=
  c.shift.toList.map .shift ++
    c.reduces.map fun r => if r = acceptRule then .accept else .reduce r

/-- A shift competes if it is the one of the competition. -/
theorem Competition.shift_mem_actions {c : Competition} {next : StateId} :
    .shift next ∈ c.actions ↔ c.shift = some next := by
  rw [actions, List.mem_append, List.mem_map, List.mem_map]
  constructor
  · rintro (⟨next', hshift, heq⟩ | ⟨r, -, heq⟩)
    · obtain rfl := Action.shift.inj heq
      exact Option.mem_toList.mp hshift
    · split at heq <;> cases heq
  · exact fun hshift => .inl ⟨next, Option.mem_toList.mpr hshift, rfl⟩

/-- Every reduction competes but that by the rule of the augmented start symbol. -/
theorem Competition.reduce_mem_actions {c : Competition} {r : RuleId} :
    .reduce r ∈ c.actions ↔ r ≠ acceptRule ∧ r ∈ c.reduces := by
  rw [actions, List.mem_append, List.mem_map, List.mem_map]
  constructor
  · rintro (⟨next, -, heq⟩ | ⟨r', hr', heq⟩)
    · cases heq
    · split at heq
      · cases heq
      · next hne =>
        obtain rfl := Action.reduce.inj heq
        exact ⟨hne, hr'⟩
  · exact fun ⟨hne, hr⟩ => .inr ⟨r, hr, if_neg hne⟩

/-- The acceptance competes if the reduction by the rule of the augmented start symbol does. -/
theorem Competition.accept_mem_actions {c : Competition} :
    .accept ∈ c.actions ↔ acceptRule ∈ c.reduces := by
  rw [actions, List.mem_append, List.mem_map, List.mem_map]
  constructor
  · rintro (⟨next, -, heq⟩ | ⟨r, hr, heq⟩)
    · cases heq
    · split at heq
      · next hsame => exact hsame ▸ hr
      · cases heq
  · exact fun hr => .inr ⟨acceptRule, hr, if_pos rfl⟩

/-- No other action competes. -/
theorem Competition.eq_of_mem_actions {c : Competition} {action : Action} (h : action ∈ c.actions) :
    (∃ next, action = .shift next) ∨ (∃ r, action = .reduce r) ∨ action = .accept := by
  rw [actions, List.mem_append, List.mem_map, List.mem_map] at h
  rcases h with ⟨next, -, rfl⟩ | ⟨r, -, rfl⟩
  · exact .inl ⟨next, rfl⟩
  · split
    · exact .inr (.inr rfl)
    · exact .inr (.inl ⟨r, rfl⟩)

/-- Without the acceptance the competing actions are the candidates. -/
theorem Competition.actions_eq_candidates {c : Competition} (h : acceptRule ∉ c.reduces) :
    c.actions = c.candidates := by
  rw [actions, candidates]
  refine congrArg (c.shift.toList.map Action.shift ++ ·) (List.map_congr_left fun r hr => ?_)
  exact if_neg fun heq : r = acceptRule => h (heq ▸ hr)

/-- The actions among which a verdict leaves the decision. -/
def Verdict.ways : Verdict → List Action
  | .action a => [a]
  | .dynamic list | .choice list => list

/-- The actions among which a table leaves the decision. -/
def ParseTable.ways (table : ParseTable) (q : StateId) (t : TerminalId) : List Action :=
  match table.action q t with
  | .dynamic d | .choice d => (table.candidates d).getD []
  | action => [action]

namespace Grammar

variable {g : Grammar} {a : Analysis} {q : StateId} {s : State} {t : TerminalId}
  {options : BuildOptions} {c : Competition} {verdict : Verdict} {cause : Option ConflictCause}

/-- An action that the automaton has in a state on a terminal, going by the lookaheads. -/
def Acts (g : Grammar) (a : Analysis) (q : StateId) (t : TerminalId) : Action → Prop
  | .shift next => (g.automaton a).Goes q (.terminal t) next
  | .reduce r => r ≠ acceptRule ∧ (g.automaton a).Look g q ⟨r, (g.body r).length⟩ t
  | .accept => (g.automaton a).Look g q ⟨acceptRule, (g.body acceptRule).length⟩ t
  | .dynamic _ | .choice _ | .error => False

/-- A competition of one action at most is settled by that action. -/
theorem settle_single (h : g.settle options q t c = .ok (verdict, cause))
    (hle : c.candidates.length ≤ 1) :
    ∃ action, verdict = .action action ∧
      (c.actions = [action] ∨ c.actions = [] ∧ action = .error) := by
  obtain ⟨shift, shiftRules, reduces⟩ := c
  rw [Competition.candidates, List.length_append, List.length_map, List.length_map] at hle
  unfold settle at h
  dsimp only at h hle
  split at h
  · next next =>
    obtain ⟨rfl, -⟩ := Prod.mk.inj (Except.ok.inj h)
    exact ⟨_, rfl, .inl rfl⟩
  · obtain ⟨rfl, -⟩ := Prod.mk.inj (Except.ok.inj h)
    exact ⟨_, rfl, .inr ⟨rfl, rfl⟩⟩
  · next r =>
    obtain ⟨rfl, -⟩ := Prod.mk.inj (Except.ok.inj h)
    exact ⟨_, rfl, .inl rfl⟩
  · next first others hnot =>
    -- a shift, or another reduction, competes with the first one
    exfalso
    cases shift with
    | some next =>
      simp only [Option.toList_some, List.length_cons] at hle
      omega
    | none =>
      cases others with
      | nil => exact hnot rfl rfl
      | cons second others =>
        simp only [List.length_cons] at hle
        omega

/-- How a conflict comes to a verdict: the decision is left to the operators, or is made between the
shift and the reductions, or among the reductions. -/
inductive Settles (g : Grammar) (options : BuildOptions) (t : TerminalId) (c : Competition) :
    Verdict → Option ConflictCause → Prop
  | dynamic {verdict : Verdict} (hdynamic : g.isDynamic t c.reduces = true)
      (hways : verdict.ways = c.candidates) : Settles g options t c verdict (some .dynamicOperator)
  | shift {next : StateId} (hstatic : g.isDynamic t c.reduces = false)
      (hshift : c.shift = some next) : Settles g options t c
        (g.settleShiftReduce options t next c).1 (g.settleShiftReduce options t next c).2
  | reduce {first : RuleId} {others : List RuleId} (hstatic : g.isDynamic t c.reduces = false)
      (hreduces : c.reduces = first :: others) :
      Settles g options t c (options.reduceVerdict first c) (some .multipleReductions)

/-- A competition of several actions that is settled has reductions, but not the acceptance. -/
theorem settle_conflict (h : g.settle options q t c = .ok (verdict, cause))
    (hmany : 1 < c.candidates.length) :
    c.reduces ≠ [] ∧ acceptRule ∉ c.reduces ∧ g.Settles options t c verdict cause := by
  obtain ⟨shift, shiftRules, reduces⟩ := c
  unfold settle at h
  dsimp only at h
  split at h
  · exact absurd hmany (Nat.lt_irrefl 1)
  · exact absurd hmany (Nat.not_lt_zero 1)
  · exact absurd hmany (Nat.lt_irrefl 1)
  · next first others _ =>
    split at h
    · split at h <;> cases h
    · next haccept =>
      refine ⟨List.cons_ne_nil first others, haccept, ?_⟩
      split at h
      · next hdynamic =>
        obtain ⟨rfl, rfl⟩ := Prod.mk.inj (Except.ok.inj h)
        refine .dynamic hdynamic ?_
        split <;> rfl
      · next hstatic =>
        rw [Bool.not_eq_true] at hstatic
        split at h
        · obtain hsettled := Except.ok.inj h
          rw [show verdict = _ from congrArg Prod.fst hsettled.symm,
            show cause = _ from congrArg Prod.snd hsettled.symm]
          exact .shift hstatic rfl
        · obtain ⟨rfl, rfl⟩ := Prod.mk.inj (Except.ok.inj h)
          exact .reduce hstatic rfl

/-- A conflict that is left to the operators leaves all candidates open. -/
theorem settle_dynamic (h : g.settle options q t c = .ok (verdict, cause))
    (hmany : 1 < c.candidates.length) (hdynamic : g.isDynamic t c.reduces = true) :
    acceptRule ∉ c.reduces ∧ verdict.ways = c.candidates := by
  obtain ⟨-, haccept, hsettles⟩ := settle_conflict h hmany
  refine ⟨haccept, ?_⟩
  cases hsettles with
  | dynamic _ hways => exact hways
  | shift hstatic => cases hdynamic.symm.trans hstatic
  | reduce hstatic => cases hdynamic.symm.trans hstatic

/-- Where no terminal is declared with a precedence none has one. -/
theorem terminalPrecedence_eq_none (h : ∀ terminal ∈ g.terminals, terminal.precedence = none)
    (t : TerminalId) : g.terminalPrecedence t = none := by
  rw [terminalPrecedence]
  cases ht : g.terminal? t with
  | none => rfl
  | some terminal => exact h terminal (List.mem_of_getElem? ht)

/-- Against a terminal without a precedence no reductions can be compared with the shift. -/
theorem compareReductions_missing (hprecedence : g.terminalPrecedence t = none)
    (shiftRules : List RuleId) (first : RuleId) (others : List RuleId) :
    g.compareReductions t shiftRules (first :: others) = .missing := by
  have hkeep : ∀ rs : List RuleId,
      rs.foldl (Comparison.add g t shiftRules) .missing = .missing := by
    intro rs
    induction rs with
    | nil => rfl
    | cons r rs ih => exact ih
  have hfirst : Comparison.add g t shiftRules .pending first = .missing := by
    simp [Comparison.add, hprecedence]
  rw [compareReductions, List.foldl_cons, hfirst]
  exact hkeep others

/-- Against a terminal without a precedence the policy decides between a shift and reductions. -/
theorem settleShiftReduce_missing (hprecedence : g.terminalPrecedence t = none)
    (hreduces : c.reduces ≠ []) (next : StateId) :
    g.settleShiftReduce options t next c =
      (options.shiftVerdict next c, some .missingPrecedence) := by
  obtain ⟨first, others, hcons⟩ := List.exists_cons_of_ne_nil hreduces
  rw [settleShiftReduce, hcons]
  dsimp only
  rw [compareReductions_missing hprecedence]

/-- A conflict that is not left to the operators is on record, where no terminal has a
precedence. -/
theorem settle_static (h : g.settle options q t c = .ok (verdict, cause))
    (hmany : 1 < c.candidates.length) (hstatic : g.isDynamic t c.reduces = false)
    (hprecedence : g.terminalPrecedence t = none) :
    ∃ cause', cause = some cause' ∧ cause' ≠ .dynamicOperator := by
  obtain ⟨hreduces, -, hsettles⟩ := settle_conflict h hmany
  cases hsettles with
  | dynamic hdynamic => cases hdynamic.symm.trans hstatic
  | shift =>
    rw [settleShiftReduce_missing hprecedence hreduces]
    exact ⟨_, rfl, nofun⟩
  | reduce => exact ⟨_, rfl, nofun⟩

/-- A conflict that precedences do not decide leaves all candidates open if that is the policy. -/
theorem settle_tryAll (h : g.settle options q t c = .ok (verdict, cause))
    (hmany : 1 < c.candidates.length) (hprecedence : g.terminalPrecedence t = none)
    (hshift : options.shiftPolicy = .tryAll) (hreduce : options.reducePolicy = .tryAll) :
    acceptRule ∉ c.reduces ∧ verdict.ways = c.candidates := by
  obtain ⟨hreduces, haccept, hsettles⟩ := settle_conflict h hmany
  refine ⟨haccept, ?_⟩
  cases hsettles with
  | dynamic _ hways => exact hways
  | shift =>
    rw [settleShiftReduce_missing hprecedence hreduces, BuildOptions.shiftVerdict, hshift]
    rfl
  | reduce =>
    rw [BuildOptions.reduceVerdict, hreduce]
    rfl

namespace Built

/-- The competing actions in a state on a terminal are those of the automaton. -/
theorem acts_iff (h : g.Built a) (hs : (g.automaton a).state? q = some s) {action : Action} :
    g.Acts a q t action ↔ ∃ c,
      (s.competitions ((g.automaton a).lookaheadSets g a) q).find? t = some c ∧
        action ∈ c.ordered.actions := by
  have hordered : ∀ (c : Competition) (r : RuleId), r ∈ c.ordered.reduces ↔ r ∈ c.reduces :=
    fun c r => mem_sortDistinct fun r r' heq => Index.ext (Nat.compare_eq_eq.mp heq)
  have hshift : ∀ next, Competitions.shiftOn
      (s.competitions ((g.automaton a).lookaheadSets g a) q) t = some next ↔
        (g.automaton a).Goes q (.terminal t) next :=
    fun next => h.shiftOn_competitions hs _
  have hreduce := fun r => h.mem_reducesOn_competitions (t := t) (r := r) hs
  unfold Competitions.shiftOn at hshift
  unfold Competitions.reducesOn at hreduce
  cases hc : (s.competitions ((g.automaton a).lookaheadSets g a) q).find? t with
  | none =>
    rw [hc] at hshift hreduce
    have hnone : ¬ g.Acts a q t action := by
      cases action with
      | shift next => exact fun hgoes => nomatch (hshift next).mpr hgoes
      | reduce r => exact fun hlook => nomatch (hreduce r).mpr hlook.2
      | accept => exact fun hlook => nomatch (hreduce acceptRule).mpr hlook
      | dynamic | choice | error => exact id
    simp [hnone]
  | some c =>
    rw [hc] at hshift hreduce
    simp only [Option.bind_some, Option.map_some, Option.getD_some] at hshift hreduce
    simp only [Option.some.injEq, exists_eq_left']
    cases action with
    | shift next => rw [Competition.shift_mem_actions]; exact (hshift next).symm
    | reduce r => rw [Competition.reduce_mem_actions, hordered, hreduce]; rfl
    | accept => rw [Competition.accept_mem_actions, hordered, hreduce]; rfl
    | dynamic | choice | error =>
      refine ⟨False.elim, fun hmem => ?_⟩
      rcases Competition.eq_of_mem_actions hmem with ⟨_, heq⟩ | ⟨_, heq⟩ | heq <;> cases heq

/-- The actions of a competition are those of the automaton. -/
theorem mem_actions_ordered (h : g.Built a) (hs : (g.automaton a).state? q = some s)
    (hc : (s.competitions ((g.automaton a).lookaheadSets g a) q).find? t = some c)
    (action : Action) : action ∈ c.ordered.actions ↔ g.Acts a q t action := by
  rw [h.acts_iff hs, hc]
  simp

/-- An action of the automaton belongs to a state. -/
theorem exists_state_of_acts (h : g.Built a) {action : Action} (hacts : g.Acts a q t action) :
    ∃ s, (g.automaton a).state? q = some s := by
  cases action with
  | shift next =>
    obtain ⟨s, hs, -⟩ := hacts
    exact ⟨s, hs⟩
  | reduce r =>
    obtain ⟨⟨s, hs, -⟩, -⟩ := h.justified_of_look hacts.2
    exact ⟨s, hs⟩
  | accept =>
    obtain ⟨⟨s, hs, -⟩, -⟩ := h.justified_of_look hacts
    exact ⟨s, hs⟩
  | dynamic | choice | error => exact absurd hacts id

/-- An action of the automaton competes in a state. -/
theorem exists_competition (h : g.Built a) {action : Action} (hacts : g.Acts a q t action) :
    ∃ s, (g.automaton a).state? q = some s ∧ ∃ c,
      (s.competitions ((g.automaton a).lookaheadSets g a) q).find? t = some c ∧
        action ∈ c.ordered.actions := by
  obtain ⟨s, hs⟩ := h.exists_state_of_acts hacts
  exact ⟨s, hs, (h.acts_iff hs).mp hacts⟩

variable {table : GeneratedTable}

/-- A table leaves the decision among what was settled in a state on a terminal. -/
theorem exists_cell (h : g.Built a) (hbuild : (g.build options).2 = .ok table)
    (hs : (g.automaton a).state? q = some s) (hc :
      (s.competitions ((g.automaton a).lookaheadSets g a) q).find? t = some c) :
    ∃ cell : Cell, g.settle options q t c.ordered = .ok (cell.verdict, cell.cause) ∧
      table.toParseTable.ways q t = cell.verdict.ways ∧
      (∀ cause, cell.cause = some cause →
        ∃ conflict ∈ table.conflicts, conflict.cause = cause) := by
  obtain ⟨settled, hsettled, rfl⟩ := h.exists_settled hbuild
  rcases action_of_settled hsettled hs t with
    ⟨hnone, -⟩ | ⟨one, hone, cell, hcell, c', hc', hsettle, haction⟩
  · rw [hc] at hnone
    cases hnone
  · obtain rfl := Option.some.inj (hc'.symm.trans hc)
    refine ⟨cell, hsettle, ?_, fun cause hcause => ?_⟩
    · have hlist := fun list (hlist : cell.verdict.candidates? = some list) =>
        candidates_idxOf hone hcell hlist
      have hpermits : g.PermitsVerdict a q t cell.verdict :=
        (h.competes hs _ (OrderedMap.mem_of_find? hc)).ordered.settle hsettle
      rw [ParseTable.ways, haction]
      generalize cell.verdict = verdict at hlist hpermits
      cases verdict with
      | action action =>
        cases action with
        | dynamic | choice => exact absurd hpermits id
        | _ => rfl
      | dynamic list | choice list =>
        change ((SettledState.distinctCandidates settled)[_]?).getD [] = list
        rw [hlist list rfl, Option.getD_some]
    · have hconflict : cell.conflict? one.state (SettledState.distinctCandidates settled) =
          some ⟨one.state, cell.terminal, cell.competition.shift, cell.competition.reduces, cause,
            cell.verdict.toAction (SettledState.distinctCandidates settled)⟩ := by
        rw [Cell.conflict?, hcause, Option.map_some]
      exact ⟨_, List.mem_flatMap.mpr ⟨one, hone, List.mem_filterMap.mpr ⟨cell, hcell, hconflict⟩⟩,
        rfl⟩

/-- A table leaves open whatever the automaton has, if it does so where several actions compete. -/
theorem mem_ways_of_conflicts (h : g.Built a) (hbuild : (g.build options).2 = .ok table)
    {action : Action} (hacts : g.Acts a q t action)
    (hopen : ∀ (c : Competition) (cell : Cell),
      g.settle options q t c = .ok (cell.verdict, cell.cause) →
      (∀ cause, cell.cause = some cause → ∃ conflict ∈ table.conflicts, conflict.cause = cause) →
      1 < c.candidates.length → acceptRule ∉ c.reduces ∧ cell.verdict.ways = c.candidates) :
    action ∈ table.toParseTable.ways q t := by
  obtain ⟨s, hs, c, hc, hmem⟩ := h.exists_competition hacts
  obtain ⟨cell, hsettle, hways, hcause⟩ := h.exists_cell hbuild hs hc
  rw [hways]
  by_cases hle : c.ordered.candidates.length ≤ 1
  · obtain ⟨single, hverdict, hactions | ⟨hactions, -⟩⟩ := settle_single hsettle hle
    · rw [hactions] at hmem
      rw [hverdict]
      exact hmem
    · rw [hactions] at hmem
      cases hmem
  · obtain ⟨haccept, hall⟩ := hopen _ cell hsettle hcause (Nat.lt_of_not_le hle)
    rw [hall, ← Competition.actions_eq_candidates haccept]
    exact hmem

/-- Where no terminal has a precedence and all conflicts are left to the operators, a table leaves
open whatever the automaton has. -/
theorem mem_ways (h : g.Built a) (hbuild : (g.build options).2 = .ok table)
    (hprecedence : ∀ t, g.terminalPrecedence t = none)
    (hconflicts : ∀ conflict ∈ table.conflicts, conflict.cause = .dynamicOperator)
    {action : Action} (hacts : g.Acts a q t action) : action ∈ table.toParseTable.ways q t := by
  refine h.mem_ways_of_conflicts hbuild hacts fun c cell hsettle hcause hmany => ?_
  cases hdynamic : g.isDynamic t c.reduces with
  | true => exact settle_dynamic hsettle hmany hdynamic
  | false =>
    obtain ⟨cause, hsome, hne⟩ := settle_static hsettle hmany hdynamic (hprecedence t)
    obtain ⟨conflict, hconflict, rfl⟩ := hcause cause hsome
    exact absurd (hconflicts conflict hconflict) hne

/-- Where no terminal has a precedence and the policies are to try all actions, a table leaves open
whatever the automaton has. -/
theorem mem_ways_of_tryAll (h : g.Built a) (hbuild : (g.build options).2 = .ok table)
    (hprecedence : ∀ t, g.terminalPrecedence t = none) (hshift : options.shiftPolicy = .tryAll)
    (hreduce : options.reducePolicy = .tryAll) {action : Action} (hacts : g.Acts a q t action) :
    action ∈ table.toParseTable.ways q t :=
  h.mem_ways_of_conflicts hbuild hacts fun _ _ hsettle _ hmany =>
    settle_tryAll hsettle hmany (hprecedence t) hshift hreduce

end Built

/-- In no state and on no terminal more than one shift, reduction or acceptance competes. -/
def ConflictFree (g : Grammar) (a : Analysis) : Prop :=
  ∀ q s, (g.automaton a).state? q = some s →
    ∀ e ∈ (s.competitions ((g.automaton a).lookaheadSets g a) q).entries,
      e.2.ordered.candidates.length ≤ 1

namespace Built

variable {table : GeneratedTable}

/-- Where the automaton has no state, the table has refusals. -/
theorem action_of_state?_eq_none (h : g.Built a) (hsettled : List.Forall₂
      (fun e settled => g.settleState options ((g.automaton a).lookaheadSets g a) e.1 e.2 =
        .ok settled) (g.automaton a).numbered settled)
    (hs : (g.automaton a).state? q = none) (t : TerminalId) :
    (GeneratedTable.ofSettled g settled).toParseTable.action q t = .error := by
  have hrow : (GeneratedTable.ofSettled g settled).row? q = none := by
    rw [Option.eq_none_iff_forall_ne_some]
    intro row hrow
    obtain ⟨s, -, hs', -⟩ := h.row?_eq_some hsettled hrow
    rw [hs] at hs'
    cases hs'
  rw [GeneratedTable.toParseTable]
  dsimp only
  rw [hrow]
  rfl

/-- Without conflicts the table has the action of the automaton, or a refusal. -/
theorem action_of_conflictFree (h : g.Built a) (hbuild : (g.build options).2 = .ok table)
    (hfree : g.ConflictFree a) (q : StateId) (t : TerminalId) :
    (∀ action, g.Acts a q t action → table.toParseTable.action q t = action) ∧
      (table.toParseTable.action q t = .error ∨
        g.Acts a q t (table.toParseTable.action q t)) := by
  obtain ⟨settled, hsettled, rfl⟩ := h.exists_settled hbuild
  cases hs : (g.automaton a).state? q with
  | none =>
    refine ⟨fun action hacts => ?_, .inl (h.action_of_state?_eq_none hsettled hs t)⟩
    obtain ⟨s, hs'⟩ := h.exists_state_of_acts hacts
    rw [hs] at hs'
    cases hs'
  | some s =>
    rcases action_of_settled hsettled hs t with
      ⟨hnone, haction⟩ | ⟨one, -, cell, -, c, hc, hsettle, haction⟩
    · refine ⟨fun action hacts => ?_, .inl haction⟩
      obtain ⟨c, hc, -⟩ := (h.acts_iff hs).mp hacts
      rw [hnone] at hc
      cases hc
    · have hle := hfree q s hs _ (OrderedMap.mem_of_find? hc)
      obtain ⟨single, hverdict, hsingle⟩ := settle_single hsettle hle
      rw [hverdict] at haction
      have hsame : (GeneratedTable.ofSettled g settled).toParseTable.action q t = single := haction
      rw [hsame]
      constructor
      · intro action hacts
        have hmem := (h.mem_actions_ordered hs hc action).mpr hacts
        rcases hsingle with hactions | ⟨hactions, -⟩
        · rw [hactions] at hmem
          exact (List.mem_singleton.mp hmem).symm
        · rw [hactions] at hmem
          cases hmem
      · rcases hsingle with hactions | ⟨-, herror⟩
        · refine .inr ((h.mem_actions_ordered hs hc single).mp ?_)
          rw [hactions]
          exact List.mem_singleton_self single
        · exact .inl herror

end Built

end Grammar

end OperatorLALR
