import OperatorLALR.Proofs.ParseTable.Acceptance
import OperatorLALR.Proofs.ParseTable.Settlement

/-!
# Tables and the records of their conflicts

A table loses none of the actions that compete in a state on a terminal, and invents none
(`GeneratedTable.Accounts`). What it makes of several of them is on record once, with all of them
and the action of the cell, unless precedences decide between them, which they do silently
(`conflicts_recorded`).
-/

namespace OperatorLALR

/-- Where one element only of a list yields anything, the list yields what that element does. -/
theorem flatMap_eq_of_unique {α β : Type} {f : α → List β} {xs : List α} {x : α}
    (hnodup : xs.Nodup) (hx : x ∈ xs) (hother : ∀ y ∈ xs, y ≠ x → f y = []) :
    xs.flatMap f = f x := by
  obtain ⟨before, after, rfl⟩ := List.append_of_mem hx
  rw [List.nodup_append, List.nodup_cons] at hnodup
  obtain ⟨-, ⟨hafter, -⟩, hbefore⟩ := hnodup
  have hleft : before.flatMap f = [] := List.flatMap_eq_nil_iff.mpr fun y hy =>
    hother y (List.mem_append_left _ hy) (hbefore y hy x List.mem_cons_self)
  have hright : after.flatMap f = [] := List.flatMap_eq_nil_iff.mpr fun y hy =>
    hother y (List.mem_append_right _ (List.mem_cons_of_mem x hy)) fun heq => hafter (heq ▸ hy)
  rw [List.flatMap_append, List.flatMap_cons, hleft, hright, List.append_nil, List.nil_append]

/-- The actions between which a conflict is: the shift, then the reductions. -/
def Conflict.candidates (c : Conflict) : List Action :=
  c.shift.toList.map .shift ++ c.reduces.map .reduce

/-- The records of conflicts in a state on a terminal. -/
def GeneratedTable.conflictsAt (table : GeneratedTable) (q : StateId) (t : TerminalId) :
    List Conflict :=
  table.conflicts.filter fun c => c.state = q ∧ c.terminal = t

namespace Automaton

instance (m : Automaton) (q : StateId) (item : Item) : Decidable (m.Has q item) :=
  decidable_of_iff ((m.state? q).any fun s => decide (item ∈ s.items))
    (by simp [Has, Option.any_eq_true])

instance (m : Automaton) (p : StateId) (symbol : Symbol) (q : StateId) :
    Decidable (m.Goes p symbol q) :=
  decidable_of_iff
    ((m.state? p).any fun s => s.transitions.any fun t => t.marker = some symbol ∧ t.next = some q)
    (by simp [Goes, Option.any_eq_true])

end Automaton

namespace Grammar

/-- An action that the automaton has in a state on a terminal: the shift across the terminal, a
reduction by a rule that is complete in the state and has the terminal in its lookahead set, or the
acceptance at the end of the input. -/
inductive Pends (g : Grammar) (a : Analysis) (q : StateId) (t : TerminalId) : Action → Prop
  | shift {next : StateId} (hgoes : (g.automaton a).Goes q (.terminal t) next) :
      Pends g a q t (.shift next)
  | reduce {r : RuleId} {set : TerminalSet} (hr : r ≠ acceptRule)
      (hitem : (g.automaton a).Has q ⟨r, (g.body r).length⟩)
      (hset : ((g.automaton a).lookaheadSets g a).get? q r = some set) (ht : t ∈ set) :
      Pends g a q t (.reduce r)
  | accept (hitem : (g.automaton a).Has q ⟨acceptRule, (g.body acceptRule).length⟩)
      (ht : t = endOfInput) : Pends g a q t .accept

end Grammar

/-- What a table has in a state on a terminal accounts for several actions that the automaton has
there, which are given in order. -/
structure GeneratedTable.Accounts (table : GeneratedTable) (g : Grammar) (q : StateId)
    (t : TerminalId) (pend : List Action) : Prop where
  /-- What the table leaves open is among the actions, unless it refuses. -/
  known : table.toParseTable.action q t ≠ .error →
    ∀ way ∈ table.toParseTable.ways q t, way ∈ pend
  /-- A list of candidates holds all actions in order. -/
  listed : ∀ d, table.toParseTable.action q t = .dynamic d ∨
    table.toParseTable.action q t = .choice d → table.toParseTable.candidates d = some pend
  /-- What operators decide is left to the parser. -/
  deferred : g.Defers t pend → ∃ d,
    table.toParseTable.action q t = .dynamic d ∨ table.toParseTable.action q t = .choice d
  /-- The terminal is refused only if all have one priority and no associativity. -/
  refused : table.toParseTable.action q t = .error → ∃ priority,
    g.terminalPrecedence t = some ⟨priority, .nonassoc⟩ ∧
      ∀ r, .reduce r ∈ pend → g.rulePrecedence r = some ⟨priority, .nonassoc⟩
  /-- Where precedences decide, their decision stands and nothing is recorded. -/
  decided : ¬ g.Defers t pend → ∀ action, g.Decided t pend action →
    table.toParseTable.action q t = action ∧ table.conflictsAt q t = []
  /-- Else there is one record, with the actions and with what the table has. -/
  recorded : (g.Defers t pend ∨ ∀ action, ¬ g.Decided t pend action) →
    ∃ conflict, table.conflictsAt q t = [conflict] ∧ conflict.candidates = pend ∧
      conflict.resolution = table.toParseTable.action q t

/-- A record stands for its state and terminal only. -/
theorem Cell.filter_conflict? (c : Cell) (q' q : StateId) (t : TerminalId)
    (lists : List (List Action)) :
    ((c.conflict? q' lists).toList.filter fun x => x.state = q ∧ x.terminal = t) =
      if q' = q ∧ c.terminal = t then (c.conflict? q' lists).toList else [] := by
  rw [Cell.conflict?]
  cases c.cause with
  | none => simp
  | some cause => by_cases h : q' = q ∧ c.terminal = t <;> simp [h]

/-- Lists that are related by what each element is have the same such elements. -/
theorem map_eq_of_forall₂ {α β γ : Type} {R : α → β → Prop} {f : α → γ} {f' : β → γ} {xs : List α}
    {ys : List β} (h : List.Forall₂ R xs ys) (hR : ∀ x y, R x y → f' y = f x) :
    ys.map f' = xs.map f := by
  induction h with
  | nil => rfl
  | cons hxy _ ih => rw [List.map_cons, List.map_cons, hR _ _ hxy, ih]

namespace Grammar

variable {g : Grammar} {a : Analysis} {q : StateId} {s : State} {t : TerminalId} {r : RuleId}
  {l : LookaheadSets} {options : BuildOptions} {settled : List SettledState}
  {table : GeneratedTable} {c : Competition}

/-- A competition of one action at most is settled without a record. -/
theorem settle_of_length_le (g : Grammar) (options : BuildOptions) (q : StateId) (t : TerminalId)
    (hle : c.candidates.length ≤ 1) :
    ∃ action, g.settle options q t c = .ok (.action action, none) := by
  obtain ⟨shift, shiftRules, reduces⟩ := c
  cases shift with
  | some next =>
    cases reduces with
    | nil => exact ⟨_, rfl⟩
    | cons first others => simp [Competition.candidates] at hle
  | none =>
    cases reduces with
    | nil => exact ⟨_, rfl⟩
    | cons first others =>
      cases others with
      | nil => exact ⟨_, rfl⟩
      | cons second others => simp [Competition.candidates] at hle

/-- What is settled for a state is so for each terminal with a competition, and for no other. -/
theorem settleState_spec {one : SettledState} (h : g.settleState options l q s = .ok one) :
    one.state = q ∧ List.Forall₂ (fun e cell => g.settleCell options q e.1 e.2 = .ok cell)
      (s.competitions l q).entries one.cells := by
  obtain ⟨cells, hcells, rfl⟩ := map_eq_ok_iff.mp h
  exact ⟨rfl, mapM_eq_ok_iff.mp hcells⟩

/-- A settled cell is for its terminal and competition. -/
theorem settleCell_spec {cell : Cell} (h : g.settleCell options q t c = .ok cell) :
    cell.terminal = t ∧ cell.competition = c.ordered ∧
      g.settle options q t c.ordered = .ok (cell.verdict, cell.cause) := by
  obtain ⟨⟨verdict, cause⟩, hsettle, rfl⟩ := map_eq_ok_iff.mp h
  exact ⟨rfl, rfl, hsettle⟩

namespace Built

section Settled

variable (hsettled : List.Forall₂
  (fun e settled => g.settleState options l e.1 e.2 = .ok settled) (g.automaton a).numbered settled)

include hsettled

/-- No state is settled twice. -/
theorem nodup_settled : (settled.map SettledState.state).Nodup := by
  have hstates : settled.map SettledState.state = (g.automaton a).numbered.map Prod.fst :=
    map_eq_of_forall₂ hsettled fun e one hone => (settleState_spec hone).1
  rw [hstates, Automaton.numbered, List.map_fst_zip (by simp [Automaton.stateIds,
    Index.length_below])]
  exact List.nodup_range.map fun _ _ => Index.mk.inj

/-- What is settled is so for a state of the automaton. -/
theorem exists_state_of_settled {one : SettledState} (hone : one ∈ settled) :
    ∃ s, (g.automaton a).state? one.state = some s ∧
      List.Forall₂ (fun e cell => g.settleCell options one.state e.1 e.2 = .ok cell)
        (s.competitions l one.state).entries one.cells := by
  obtain ⟨i, hi⟩ := List.mem_iff_getElem?.mp hone
  obtain ⟨⟨q, s⟩, hnumbered, hsettle⟩ := exists_getElem?_left hsettled hi
  obtain ⟨rfl, hcells⟩ := settleState_spec hsettle
  exact ⟨s, (Automaton.getElem?_numbered.mp hnumbered).2, hcells⟩

/-- No terminal is settled twice in a state. -/
theorem nodup_cells {one : SettledState} (hone : one ∈ settled) :
    (one.cells.map Cell.terminal).Nodup := by
  obtain ⟨s, -, hcells⟩ := exists_state_of_settled hsettled hone
  have hkeys : one.cells.map Cell.terminal = (s.competitions l one.state).entries.map Prod.fst :=
    map_eq_of_forall₂ hcells fun e cell hcell => (settleCell_spec hcell).1
  rw [hkeys]
  exact Competitions.nodup_keys s l one.state

/-- A competition in a state is settled, and the table has what was settled. -/
theorem exists_cell_of_settled (hs : (g.automaton a).state? q = some s)
    (hc : (s.competitions l q).find? t = some c) :
    ∃ one ∈ settled, one.state = q ∧ ∃ cell ∈ one.cells,
      g.settleCell options q t c = .ok cell ∧
        (GeneratedTable.ofSettled g settled).toParseTable.action q t =
          cell.verdict.toAction (SettledState.distinctCandidates settled) := by
  obtain ⟨one, hone, hsettle, hrow⟩ := exists_row hsettled hs
  obtain ⟨hstate, hcells⟩ := settleState_spec hsettle
  obtain ⟨i, hi⟩ := List.mem_iff_getElem?.mp (OrderedMap.mem_of_find? hc)
  obtain ⟨cell, hplace, hcell⟩ := exists_getElem?_right hcells hi
  have hmem := List.mem_of_getElem? hplace
  refine ⟨one, hone, hstate, cell, hmem, hcell, ?_⟩
  have hfind : (one.row (SettledState.distinctCandidates settled)).actions.find? t =
      some (cell.verdict.toAction (SettledState.distinctCandidates settled)) := by
    refine OrderedMap.find?_of_mem ?_ (List.mem_map.mpr ⟨cell, hmem, ?_⟩)
    · rw [OrderedMap.keys, SettledState.row, List.map_map]
      exact nodup_cells hsettled hone
    · rw [(settleCell_spec hcell).1]
  rw [GeneratedTable.toParseTable]
  dsimp only
  rw [hrow, Option.map_some, Option.getD_some, TableRow.action, hfind, Option.getD_some]

/-- The records in a state on a terminal are those of the cell. -/
theorem conflictsAt_of_cell {one : SettledState} {cell : Cell} (hone : one ∈ settled)
    (hcell : cell ∈ one.cells) :
    (GeneratedTable.ofSettled g settled).conflictsAt one.state cell.terminal =
      (cell.conflict? one.state (SettledState.distinctCandidates settled)).toList := by
  have hstates := nodup_settled hsettled
  have hcells := nodup_cells hsettled hone
  rw [GeneratedTable.conflictsAt, GeneratedTable.ofSettled]
  dsimp only [SettledState.conflicts]
  simp only [List.filterMap_eq_flatMap_toList, List.filter_flatMap, Cell.filter_conflict?]
  rw [flatMap_eq_of_unique hstates.of_map hone, flatMap_eq_of_unique hcells.of_map hcell]
  · exact if_pos ⟨rfl, rfl⟩
  · intro other hother hne
    refine if_neg fun hsame => hne ?_
    exact List.inj_on_of_nodup_map hcells hother hcell hsame.2
  · intro other hother hne
    refine List.flatMap_eq_nil_iff.mpr fun c _ => if_neg fun hsame => hne ?_
    exact List.inj_on_of_nodup_map hstates hother hone hsame.1

end Settled

/-- Where nothing is settled there are no records. -/
theorem conflictsAt_eq_nil (hnone : ∀ one ∈ settled, one.state = q →
    ∀ cell ∈ one.cells, cell.terminal ≠ t) :
    (GeneratedTable.ofSettled g settled).conflictsAt q t = [] := by
  rw [GeneratedTable.conflictsAt, GeneratedTable.ofSettled]
  dsimp only [SettledState.conflicts]
  simp only [List.filterMap_eq_flatMap_toList, List.filter_flatMap, Cell.filter_conflict?]
  refine List.flatMap_eq_nil_iff.mpr fun one hone =>
    List.flatMap_eq_nil_iff.mpr fun cell hcell => ?_
  exact if_neg fun hsame => hnone one hone hsame.1 cell hcell hsame.2

/-- Behind a complete item a terminal is looked for if it is in the lookahead set of the rule. -/
theorem look_iff_lookaheadSets (h : g.Built a)
    (hitem : (g.automaton a).Has q ⟨r, (g.body r).length⟩) :
    (g.automaton a).Look g q ⟨r, (g.body r).length⟩ t ↔
      ∃ set, ((g.automaton a).lookaheadSets g a).get? q r = some set ∧ t ∈ set := by
  obtain ⟨s, hs, hmem⟩ := id hitem
  obtain ⟨place, hplace⟩ := List.mem_iff_getElem?.mp hmem
  have hnext : (Item.mk r (g.body r).length).next? g = none :=
    List.getElem?_eq_none (Nat.le_refl _)
  rw [h.get?_lookaheadSets hs hplace hnext]
  simp only [Option.some.injEq, exists_eq_left', h.mem_afterRule hs hplace]
  exact ⟨fun hlook => h.after_of_justified (h.justified_of_look hlook).2,
    h.look_of_after h.followSets_spec.1 hitem⟩

/-- The actions of the automaton are those by the lookahead sets. -/
theorem pends_iff (h : g.Built a) {action : Action} :
    g.Pends a q t action ↔ g.Acts a q t action := by
  constructor
  · intro hpends
    cases hpends with
    | shift hgoes => exact hgoes
    | reduce hr hitem hset ht => exact ⟨hr, (h.look_iff_lookaheadSets hitem).mpr ⟨_, hset, ht⟩⟩
    | accept hitem ht => exact ht ▸ h.look_accept hitem rfl
  · intro hacts
    cases action with
    | shift next => exact .shift hacts
    | reduce r =>
      obtain ⟨hr, hlook⟩ := hacts
      have hitem := (h.justified_of_look hlook).1
      obtain ⟨set, hset, ht⟩ := (h.look_iff_lookaheadSets hitem).mp hlook
      exact .reduce hr hitem hset ht
    | accept =>
      obtain ⟨hitem, ⟨-, ht⟩ | ⟨hne, -⟩⟩ := h.justified_of_look hacts
      · exact .accept hitem ht
      · exact absurd rfl hne
    | dynamic | choice | error => exact absurd hacts id

end Built

/-- What precedences decide is by what they favour against any of the reductions. -/
theorem Decided.eq_decision {action : Action} (h : g.Decided t c.candidates action)
    (hr : r ∈ c.reduces) :
    ∃ preference, g.favours t r = some preference ∧ action = c.decision r preference := by
  have hmem : .reduce r ∈ c.candidates := Competition.reduce_mem_candidates.mpr hr
  cases h with
  | shift hshift hall =>
    refine ⟨.shift, hall r hmem, ?_⟩
    rw [Competition.decision, Competition.shift_mem_candidates.mp hshift]
    rfl
  | neither _ hall => exact ⟨.neither, hall r hmem, rfl⟩
  | reduce hpend hfavours =>
    obtain ⟨-, hsingle⟩ := Competition.candidates_eq_pair.mp hpend
    rw [hsingle, List.mem_singleton] at hr
    exact ⟨.reduce, hr ▸ hfavours, hr ▸ rfl⟩

/-- Precedences decide in one way. -/
theorem Decided.unique {action action' : Action} (h : g.Decided t c.candidates action)
    (h' : g.Decided t c.candidates action') (hr : r ∈ c.reduces) : action = action' := by
  obtain ⟨preference, hfavours, rfl⟩ := h.eq_decision hr
  obtain ⟨preference', hfavours', rfl⟩ := h'.eq_decision hr
  rw [Option.some.inj (hfavours.symm.trans hfavours')]

end Grammar

namespace GeneratedTable

variable {table : GeneratedTable} {g : Grammar} {q : StateId} {t : TerminalId} {c : Competition}
  {pend : List Action} {action : Action}

/-- A list of candidates that holds all actions accounts for them, with a record. -/
theorem accounts_of_list {d : CandidatesId}
    (haction : table.toParseTable.action q t = .dynamic d ∨
      table.toParseTable.action q t = .choice d)
    (hlist : table.toParseTable.candidates d = some pend)
    (hopen : ¬ g.Defers t pend → ∀ action, ¬ g.Decided t pend action)
    (hrecord : ∃ conflict, table.conflictsAt q t = [conflict] ∧ conflict.candidates = pend ∧
      conflict.resolution = table.toParseTable.action q t) : table.Accounts g q t pend where
  known _ way hway := by
    have hways : table.toParseTable.ways q t = pend := by
      rcases haction with haction | haction <;> rw [ParseTable.ways, haction] <;> simp [hlist]
    rwa [hways] at hway
  listed d' hd' := by
    have hsame : d' = d := by
      rcases haction with haction | haction <;> rw [haction] at hd' <;> simpa [eq_comm] using hd'
    rw [hsame, hlist]
  deferred _ := ⟨d, haction⟩
  refused herror := by rcases haction with haction | haction <;> cases haction.symm.trans herror
  decided hstatic action hdecided := absurd hdecided (hopen hstatic action)
  recorded _ := hrecord

/-- A single action accounts for all if it competes or is a due refusal, and if it is the decision
of the precedences or on record. -/
theorem accounts_of_action (haction : table.toParseTable.action q t = action)
    (hsingle : ∀ d, action ≠ .dynamic d ∧ action ≠ .choice d)
    (hmem : action ≠ .error → action ∈ pend) (hstatic : ¬ g.Defers t pend)
    (hrefused : action = .error → ∀ r, .reduce r ∈ pend → g.favours t r = some .neither)
    (hreduce : ∃ r, .reduce r ∈ pend)
    (hdecided : ∀ action', g.Decided t pend action' →
      action = action' ∧ table.conflictsAt q t = [])
    (hrecorded : (∀ action, ¬ g.Decided t pend action) →
      ∃ conflict, table.conflictsAt q t = [conflict] ∧ conflict.candidates = pend ∧
        conflict.resolution = table.toParseTable.action q t) : table.Accounts g q t pend where
  known herror way hway := by
    have hways : table.toParseTable.ways q t = [action] := by
      rw [ParseTable.ways, haction]
      cases action with
      | dynamic d => exact absurd rfl (hsingle d).1
      | choice d => exact absurd rfl (hsingle d).2
      | _ => rfl
    rw [hways, List.mem_singleton] at hway
    exact hway ▸ hmem (haction ▸ herror)
  listed d hd := by
    rw [haction] at hd
    exact absurd hd (not_or.mpr (hsingle d))
  deferred hdefers := absurd hdefers hstatic
  refused herror := by
    have hall := hrefused (haction ▸ herror)
    obtain ⟨r, hr⟩ := hreduce
    obtain ⟨priority, hterminal, -⟩ := Grammar.precedence_of_favours_neither (hall r hr)
    refine ⟨priority, hterminal, fun r' hr' => ?_⟩
    obtain ⟨priority', hterminal', hrule⟩ := Grammar.precedence_of_favours_neither (hall r' hr')
    obtain rfl := (Precedence.mk.inj (Option.some.inj (hterminal.symm.trans hterminal'))).1
    exact hrule
  decided _ action' h := haction ▸ hdecided action' h
  recorded h := hrecorded (h.resolve_left hstatic)

end GeneratedTable

namespace Grammar

variable {g : Grammar} {a : Analysis} {q : StateId} {s : State} {t : TerminalId}
  {c : Competition} {table : GeneratedTable} {options : BuildOptions}

/-- What becomes of several actions accounts for them, if the table holds it. -/
theorem Resolves.accounts {verdict : Verdict} {cause : Option ConflictCause}
    {lists : List (List Action)} (h : g.Resolves t c.candidates verdict cause)
    (hne : c.reduces ≠ [])
    (haction : table.toParseTable.action q t = verdict.toAction lists)
    (hlists : ∀ list, verdict.candidates? = some list →
      table.toParseTable.candidates ⟨lists.idxOf list⟩ = some list)
    (hconflicts : table.conflictsAt q t = (cause.map fun cause =>
      ⟨q, t, c.shift, c.reduces, cause, verdict.toAction lists⟩).toList) :
    table.Accounts g q t c.candidates := by
  obtain ⟨r, hr⟩ := List.exists_mem_of_ne_nil _ hne
  have hreduce : ∃ r, .reduce r ∈ c.candidates := ⟨r, Competition.reduce_mem_candidates.mpr hr⟩
  have hrecord : ∀ known, cause = some known → ∃ conflict,
      table.conflictsAt q t = [conflict] ∧ conflict.candidates = c.candidates ∧
        conflict.resolution = table.toParseTable.action q t := by
    rintro known rfl
    exact ⟨_, hconflicts, rfl, haction.symm⟩
  cases h with
  | deferred hdefers hverdict =>
    refine table.accounts_of_list (d := ⟨lists.idxOf c.candidates⟩) ?_ (hlists _ ?_)
      (absurd hdefers) (hrecord _ rfl)
    · rw [haction]
      rcases hverdict with rfl | rfl
      · exact .inl rfl
      · exact .inr rfl
    · rcases hverdict with rfl | rfl <;> rfl
  | listed hstatic hopen =>
    exact table.accounts_of_list (.inr haction) (hlists _ rfl) (fun _ => hopen) (hrecord _ rfl)
  | decided hstatic hdecided =>
    refine table.accounts_of_action haction ?_ ?_ hstatic ?_ hreduce ?_
      fun h => absurd hdecided (h _)
    · intro d
      cases hdecided <;> exact ⟨nofun, nofun⟩
    · intro herror
      cases hdecided with
      | shift hshift => exact hshift
      | neither => exact absurd rfl herror
      | reduce hpend => exact hpend ▸ List.mem_cons_of_mem _ List.mem_cons_self
    · intro herror
      cases hdecided with
      | neither _ hall => exact hall
      | shift | reduce => cases herror
    · exact fun action' h => ⟨hdecided.unique h hr, hconflicts⟩
  | @chosen action cause hstatic hopen hmem =>
    have hsimple : (∃ next, action = .shift next) ∨ ∃ r, action = .reduce r := by
      rcases List.mem_append.mp hmem with hmem | hmem
      · obtain ⟨next, -, heq⟩ := List.mem_map.mp hmem
        exact .inl ⟨next, heq.symm⟩
      · obtain ⟨r, -, heq⟩ := List.mem_map.mp hmem
        exact .inr ⟨r, heq.symm⟩
    refine table.accounts_of_action haction ?_ (fun _ => hmem) hstatic ?_ hreduce
      (fun action' h => absurd h (hopen action')) fun _ => hrecord _ rfl
    · rcases hsimple with ⟨next, rfl⟩ | ⟨r, rfl⟩ <;> exact fun d => ⟨nofun, nofun⟩
    · rcases hsimple with ⟨next, rfl⟩ | ⟨r, rfl⟩ <;> exact nofun

namespace Built

/-- The competing actions in order, the reductions without repetition. -/
theorem pairwise_ordered (c : Competition) : c.ordered.candidates.Pairwise Action.Before :=
  Competition.pairwise_candidates <|
    pairwise_sortDistinct (fun _ _ => Nat.compare_eq_lt.mp) (fun _ _ => Nat.compare_eq_gt.mp)
      (fun _ _ heq => Index.ext (Nat.compare_eq_eq.mp heq)) (fun _ _ _ => Nat.lt_trans) c.reduces

/-- Where nothing competes the terminal is refused without a record. -/
theorem refuses_of_find?_eq_none (h : g.Built a) (hbuild : (g.build options).2 = .ok table)
    (hnone : ∀ s, (g.automaton a).state? q = some s →
      (s.competitions ((g.automaton a).lookaheadSets g a) q).find? t = none) :
    table.toParseTable.action q t = .error ∧ table.conflictsAt q t = [] := by
  obtain ⟨settled, hsettled, rfl⟩ := h.exists_settled hbuild
  constructor
  · cases hs : (g.automaton a).state? q with
    | none => exact h.action_of_state?_eq_none hsettled hs t
    | some s =>
      rcases action_of_settled hsettled hs t with ⟨-, haction⟩ | ⟨-, -, -, -, c, hc, -⟩
      · exact haction
      · cases (hnone s hs).symm.trans hc
  · refine conflictsAt_eq_nil fun one hone hstate cell hcell hterminal => ?_
    obtain ⟨s, hs, hcells⟩ := exists_state_of_settled hsettled hone
    obtain ⟨i, hi⟩ := List.mem_iff_getElem?.mp hcell
    obtain ⟨⟨t', c⟩, hentry, hsettle⟩ := exists_getElem?_left hcells hi
    obtain rfl : cell.terminal = t' := (settleCell_spec hsettle).1
    have hc := OrderedMap.find?_of_mem (Competitions.nodup_keys s _ _)
      (List.mem_of_getElem? hentry)
    subst hstate
    subst hterminal
    cases (hnone s hs).symm.trans hc

/-- What competes is settled, and the table and its records have what was settled. -/
theorem exists_verdict (h : g.Built a) (hbuild : (g.build options).2 = .ok table)
    (hs : (g.automaton a).state? q = some s)
    (hc : (s.competitions ((g.automaton a).lookaheadSets g a) q).find? t = some c) :
    ∃ verdict cause lists, g.settle options q t c.ordered = .ok (verdict, cause) ∧
      table.toParseTable.action q t = verdict.toAction lists ∧
      (∀ list, verdict.candidates? = some list →
        table.toParseTable.candidates ⟨lists.idxOf list⟩ = some list) ∧
      table.conflictsAt q t = (cause.map fun cause =>
        ⟨q, t, c.ordered.shift, c.ordered.reduces, cause, verdict.toAction lists⟩).toList := by
  obtain ⟨settled, hsettled, rfl⟩ := h.exists_settled hbuild
  obtain ⟨one, hone, rfl, cell, hcell, hsettle, haction⟩ := exists_cell_of_settled hsettled hs hc
  obtain ⟨rfl, hcompetition, hsettle⟩ := settleCell_spec hsettle
  have hrecords := conflictsAt_of_cell hsettled hone hcell
  rw [Cell.conflict?, hcompetition] at hrecords
  exact ⟨cell.verdict, cell.cause, _, hsettle, haction,
    fun list hlist => candidates_idxOf hone hcell hlist, hrecords⟩

/-- A table accounts for what competes in every state on every terminal. -/
theorem accounts (h : g.Built a) (hbuild : (g.build options).2 = .ok table) (q : StateId)
    (t : TerminalId) :
    ∃ pend : List Action, (∀ action, action ∈ pend ↔ g.Pends a q t action) ∧
      pend.Pairwise Action.Before ∧
      (pend = [] → table.toParseTable.action q t = .error) ∧
      (∀ action, pend = [action] → table.toParseTable.action q t = action) ∧
      (pend.length ≤ 1 → table.conflictsAt q t = []) ∧
      (1 < pend.length → table.Accounts g q t pend) := by
  simp only [h.pends_iff]
  have hempty : ∀ action : Action, [] ≠ [action] := fun action => (List.cons_ne_nil action []).symm
  by_cases hnone : ∀ s, (g.automaton a).state? q = some s →
      (s.competitions ((g.automaton a).lookaheadSets g a) q).find? t = none
  · obtain ⟨haction, hrecords⟩ := h.refuses_of_find?_eq_none hbuild hnone
    refine ⟨[], fun action => iff_of_false List.not_mem_nil fun hacts => ?_, .nil,
      fun _ => haction, fun action hone => absurd hone (hempty action), fun _ => hrecords,
      fun hmany => absurd hmany (Nat.not_lt_zero 1)⟩
    obtain ⟨s, hs, c, hc, -⟩ := h.exists_competition hacts
    cases (hnone s hs).symm.trans hc
  · push Not at hnone
    obtain ⟨s, hs, hsome⟩ := hnone
    obtain ⟨c, hc⟩ := Option.ne_none_iff_exists'.mp hsome
    obtain ⟨verdict, cause, lists, hsettle, haction, hlists, hrecords⟩ :=
      h.exists_verdict hbuild hs hc
    have hacts := h.mem_actions_ordered hs hc
    by_cases hle : c.ordered.candidates.length ≤ 1
    · obtain ⟨action, hsingle⟩ := settle_of_length_le g options q t hle
      obtain ⟨rfl, rfl⟩ := Prod.mk.inj (Except.ok.inj (hsettle.symm.trans hsingle))
      obtain ⟨action', heq, hactions⟩ := settle_single hsettle hle
      obtain rfl := Verdict.action.inj heq
      rcases hactions with hactions | ⟨hactions, rfl⟩
      · rw [hactions] at hacts
        refine ⟨[action], hacts, List.pairwise_singleton _ _,
          fun hnil => absurd hnil.symm (hempty action), fun action' heq => ?_,
          fun _ => hrecords, fun hmany => absurd hmany (Nat.lt_irrefl 1)⟩
        rw [haction, ← (List.cons.inj heq).1]
        rfl
      · rw [hactions] at hacts
        exact ⟨[], hacts, .nil, fun _ => haction, fun action hone => absurd hone (hempty action),
          fun _ => hrecords, fun hmany => absurd hmany (Nat.not_lt_zero 1)⟩
    · have hmany := Nat.lt_of_not_le hle
      obtain ⟨hne, haccept, -⟩ := settle_conflict hsettle hmany
      rw [Competition.actions_eq_candidates haccept] at hacts
      have hresolves := resolves_of_settle hsettle hmany
      refine ⟨c.ordered.candidates, hacts, pairwise_ordered c, fun hnil => ?_,
        fun action hone => ?_, fun hle' => absurd hle' hle,
        fun _ => hresolves.accounts hne haction hlists hrecords⟩
      · rw [hnil] at hmany
        exact absurd hmany (Nat.not_lt_zero 1)
      · rw [hone] at hmany
        exact absurd hmany (Nat.lt_irrefl 1)

end Built

end Grammar

/-- Of the actions that the automaton has in a state on a terminal a table loses none and invents
none. A single one stands. Several are accounted for: they are left to the operators, or precedences
decide between them in silence, or what the table makes of them is on record once, with all of
them. -/
theorem conflicts_recorded {g : Grammar} {a : Analysis} (hg : g.IsDefined)
    (ha : g.analyse = .ok a) (hstates : (g.kernels a).items.size < stateNumbers)
    {options : BuildOptions} {table : GeneratedTable} (hbuild : (g.build options).2 = .ok table)
    (q : StateId) (t : TerminalId) :
    ∃ pend : List Action, (∀ action, action ∈ pend ↔ g.Pends a q t action) ∧
      pend.Pairwise Action.Before ∧
      (pend = [] → table.toParseTable.action q t = .error) ∧
      (∀ action, pend = [action] → table.toParseTable.action q t = action) ∧
      (pend.length ≤ 1 → table.conflictsAt q t = []) ∧
      (1 < pend.length → table.Accounts g q t pend) :=
  Grammar.Built.accounts ⟨hg.wellFormed, ha, hstates⟩ hbuild q t

/-- The table of the grammar of repetitions that prefers shifts. -/
def greedyRepetitionTable : GeneratedTable :=
  (repetition.build .default).2.toOption.getD ⟨#[], [], [], [], ∅, ∅, []⟩

/-- Behind two repetitions a further one may be shifted, or the two reduced to one. Without
precedences the conflict is on record, with both actions and the one chosen. -/
theorem conflicts_recorded_repetition :
    ∃ conflict, greedyRepetitionTable.conflictsAt ⟨3⟩ ⟨1⟩ = [conflict] ∧
      .shift ⟨2⟩ ∈ conflict.candidates ∧ .reduce ⟨1⟩ ∈ conflict.candidates ∧
      conflict.resolution = greedyRepetitionTable.toParseTable.action ⟨3⟩ ⟨1⟩ := by
  have hbuild : (repetition.build .default).2 = .ok greedyRepetitionTable := by decide +kernel
  obtain ⟨pend, hpend, -, -, -, -, hseveral⟩ := conflicts_recorded repetition_isDefined
    (a := repetitionAnalysis) (by decide +kernel) (by decide +kernel) hbuild ⟨3⟩ ⟨1⟩
  have hshift : .shift ⟨2⟩ ∈ pend := (hpend _).mpr (.shift (by decide +kernel))
  have hset : ∃ set ∈ ((repetition.automaton repetitionAnalysis).lookaheadSets repetition
      repetitionAnalysis).get? ⟨3⟩ ⟨1⟩, ⟨1⟩ ∈ set := by
    decide +kernel
  obtain ⟨set, hset, ht⟩ := hset
  have hreduce : .reduce ⟨1⟩ ∈ pend :=
    (hpend _).mpr (.reduce (by decide) (by decide +kernel) hset ht)
  have hmany : 1 < pend.length := by
    rcases pend with _ | ⟨first, _ | ⟨second, rest⟩⟩
    · cases hshift
    · cases (List.mem_singleton.mp hshift).trans (List.mem_singleton.mp hreduce).symm
    · simp
  have hfavours : ∀ r, repetition.favours ⟨1⟩ r = none := fun _ => rfl
  have hopen : ∀ action, ¬ repetition.Decided ⟨1⟩ pend action := by
    intro action hdecided
    cases hdecided with
    | shift _ hall | neither _ hall => cases (hfavours _).symm.trans (hall _ hreduce)
    | reduce _ hreduce => cases (hfavours _).symm.trans hreduce
  obtain ⟨conflict, hconflict, hcandidates, hresolution⟩ := (hseveral hmany).recorded (.inr hopen)
  exact ⟨conflict, hconflict, hcandidates ▸ hshift, hcandidates ▸ hreduce, hresolution⟩

/-- The grammar `E := E - E | n` (as rules 1 and 2) with a left-associative precedence of `-`. -/
def subtraction : Grammar where
  terminals := [.endOfInput, ⟨"-", some ⟨1, .left⟩, .plain⟩, ⟨"n", none, .plain⟩]
  nonterminals := [augmentedStartName, "E"]
  rules := [⟨augmentedStart, [.nonterminal ⟨1⟩], none⟩,
    ⟨⟨1⟩, [.nonterminal ⟨1⟩, .terminal ⟨1⟩, .nonterminal ⟨1⟩], none⟩,
    ⟨⟨1⟩, [.terminal ⟨2⟩], none⟩]
  start := ⟨1⟩
  operators := ∅
  operatorTerminals := ∅

/-- The analysis of the grammar. -/
def subtractionAnalysis : Analysis := subtraction.analyse.toOption.getD ⟨∅, [], []⟩

/-- The table of the grammar. -/
def subtractionTable : GeneratedTable where
  rows := #[
    ⟨⟨[(⟨2⟩, .shift ⟨2⟩)]⟩, ⟨[(⟨1⟩, ⟨1⟩)]⟩⟩,
    ⟨⟨[(⟨1⟩, .shift ⟨3⟩), (endOfInput, .accept)]⟩, ∅⟩,
    ⟨⟨[(endOfInput, .reduce ⟨2⟩), (⟨1⟩, .reduce ⟨2⟩)]⟩, ∅⟩,
    ⟨⟨[(⟨2⟩, .shift ⟨2⟩)]⟩, ⟨[(⟨1⟩, ⟨4⟩)]⟩⟩,
    ⟨⟨[(⟨1⟩, .reduce ⟨1⟩), (endOfInput, .reduce ⟨1⟩)]⟩, ∅⟩]
  rules := [⟨augmentedStart, 1, none⟩, ⟨⟨1⟩, 3, none⟩, ⟨⟨1⟩, 1, none⟩]
  candidates := []
  conflicts := []
  operators := ∅
  operatorTerminals := ∅
  nonterminals := [augmentedStartName, "E"]

/-- Behind a subtraction the next one may be shifted, or the subtraction reduced. The precedence
decides for the reduction, and the conflict is not on record. -/
theorem subtraction_unrecorded :
    subtraction.IsDefined ∧ subtraction.analyse = .ok subtractionAnalysis ∧
      (subtraction.kernels subtractionAnalysis).items.size < stateNumbers ∧
      (subtraction.build .default).2 = .ok subtractionTable ∧
      subtraction.Pends subtractionAnalysis ⟨4⟩ ⟨1⟩ (.shift ⟨3⟩) ∧
      subtraction.Pends subtractionAnalysis ⟨4⟩ ⟨1⟩ (.reduce ⟨1⟩) ∧
      subtractionTable.toParseTable.action ⟨4⟩ ⟨1⟩ = .reduce ⟨1⟩ ∧
      ¬ ∃ conflict, subtractionTable.conflictsAt ⟨4⟩ ⟨1⟩ = [conflict] := by
  have hset : ∃ set ∈ ((subtraction.automaton subtractionAnalysis).lookaheadSets subtraction
      subtractionAnalysis).get? ⟨4⟩ ⟨1⟩, ⟨1⟩ ∈ set := by
    decide +kernel
  obtain ⟨set, hset, ht⟩ := hset
  exact ⟨⟨[.terminal "-" (some ⟨1, .left⟩), .terminal "n" none, .nonterminal "E",
    .rule ⟨1⟩ [.nonterminal ⟨1⟩, .terminal ⟨1⟩, .nonterminal ⟨1⟩] none,
    .rule ⟨1⟩ [.terminal ⟨2⟩] none], .inl (by decide)⟩, by decide +kernel, by decide +kernel,
    by decide +kernel, .shift (by decide +kernel),
    .reduce (by decide) (by decide +kernel) hset ht, rfl, nofun⟩

end OperatorLALR
