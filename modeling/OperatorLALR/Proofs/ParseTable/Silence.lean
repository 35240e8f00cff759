import OperatorLALR.Proofs.ParseTable.Records

/-!
# Grammars whose conflicts precedences decide

Where precedences decide between all actions that compete, in every state on every terminal
(`Grammar.Silent`), a table is built whatever the policies are, and it leaves no record
(`Grammar.Built.exists_table`). In each of its cells stands the only action that the automaton has,
or the one decided on, or a refusal (`Grammar.Built.chosen`).
-/

namespace OperatorLALR

namespace Grammar

/-- Precedences decide wherever several actions compete. -/
def Silent (g : Grammar) (a : Analysis) : Prop :=
  ∀ q t (pend : List Action), (∀ action, action ∈ pend ↔ g.Acts a q t action) →
    pend.Pairwise Action.Before → 1 < pend.length →
    ¬ g.Defers t pend ∧ ∃ action, g.Decided t pend action

/-- What a table has in a state on a terminal if precedences decide: a refusal where the automaton
has no action, its only action, or else the decision. -/
inductive Chosen (g : Grammar) (a : Analysis) (q : StateId) (t : TerminalId) : Action → Prop
  | refused (hnone : ∀ action, ¬ g.Acts a q t action) : Chosen g a q t .error
  | single {action : Action} (honly : ∀ other, g.Acts a q t other ↔ other = action) :
      Chosen g a q t action
  | decided {pend : List Action} {action : Action}
      (hpend : ∀ other, other ∈ pend ↔ g.Acts a q t other) (horder : pend.Pairwise Action.Before)
      (hmany : 1 < pend.length) (hdecided : g.Decided t pend action) : Chosen g a q t action

variable {g : Grammar} {a : Analysis} {q : StateId} {t : TerminalId} {options : BuildOptions}
  {table : GeneratedTable}

/-- What precedences decide on is a refusal or one of the actions. -/
theorem Decided.eq_error_or_mem {pend : List Action} {action : Action}
    (h : g.Decided t pend action) : action = .error ∨ action ∈ pend := by
  cases h with
  | shift hshift => exact .inr hshift
  | neither => exact .inl rfl
  | reduce hpend => exact .inr (hpend ▸ List.mem_cons_of_mem _ List.mem_cons_self)

/-- What is chosen is a refusal or an action of the automaton. -/
theorem Chosen.eq_error_or_acts {action : Action} (h : g.Chosen a q t action) :
    action = .error ∨ g.Acts a q t action := by
  cases h with
  | refused => exact .inl rfl
  | single honly => exact .inr ((honly action).mpr rfl)
  | decided hpend _ _ hdecided => exact hdecided.eq_error_or_mem.imp_right (hpend action).mp

namespace Built

/-- Where precedences decide, a cell has a single action and no record is due. -/
theorem verdict_of_silent (h : g.Built a) (hsilent : g.Silent a) {settled : List SettledState}
    (hsettled : List.Forall₂ (fun e settled => g.settleState options
      ((g.automaton a).lookaheadSets g a) e.1 e.2 = .ok settled) (g.automaton a).numbered settled)
    {one : SettledState} (hone : one ∈ settled) {cell : Cell} (hcell : cell ∈ one.cells) :
    (∃ action, cell.verdict = .action action) ∧ cell.cause = none := by
  obtain ⟨s, hs, hcells⟩ := exists_state_of_settled hsettled hone
  obtain ⟨i, hi⟩ := List.mem_iff_getElem?.mp hcell
  obtain ⟨⟨t, c⟩, hentry, hsettle⟩ := exists_getElem?_left hcells hi
  have hc := OrderedMap.find?_of_mem (Competitions.nodup_keys s _ _) (List.mem_of_getElem? hentry)
  obtain ⟨-, -, hsettle⟩ := settleCell_spec hsettle
  by_cases hle : c.ordered.candidates.length ≤ 1
  · obtain ⟨action, hsingle⟩ := settle_of_length_le g options one.state t hle
    obtain ⟨hverdict, hcause⟩ := Prod.mk.inj (Except.ok.inj (hsettle.symm.trans hsingle))
    exact ⟨⟨action, hverdict⟩, hcause⟩
  · have hmany := Nat.lt_of_not_le hle
    obtain ⟨-, haccept, -⟩ := settle_conflict hsettle hmany
    have hacts := h.mem_actions_ordered hs hc
    rw [Competition.actions_eq_candidates haccept] at hacts
    obtain ⟨hstatic, action, hdecided⟩ :=
      hsilent one.state t _ hacts (pairwise_ordered c) hmany
    have hresolves := resolves_of_settle hsettle hmany
    generalize cell.verdict = verdict at hresolves ⊢
    generalize cell.cause = cause at hresolves ⊢
    cases hresolves with
    | deferred hdefers => exact absurd hdefers hstatic
    | decided => exact ⟨⟨_, rfl⟩, rfl⟩
    | chosen _ hopen | listed _ hopen => exact absurd hdecided (hopen action)

/-- A table is built without a record where precedences decide. -/
theorem exists_table (h : g.Built a) (hsilent : g.Silent a) (options : BuildOptions) :
    ∃ table, (g.build options).2 = .ok table ∧ table.conflicts = [] := by
  obtain ⟨settled, hsettled⟩ := h.exists_settleStates options
  have hcells := fun one (hone : one ∈ settled) cell (hcell : cell ∈ one.cells) =>
    h.verdict_of_silent hsilent (mapM_eq_ok_iff.mp hsettled) hone hcell
  have hlists : SettledState.distinctCandidates settled = [] := by
    refine List.eq_nil_iff_forall_not_mem.mpr fun list hlist => ?_
    rw [SettledState.distinctCandidates, mem_fresh, List.mem_flatMap] at hlist
    obtain ⟨⟨one, hone, hmem⟩, -⟩ := hlist
    obtain ⟨cell, hcell, hcandidates⟩ := List.mem_filterMap.mp hmem
    obtain ⟨⟨action, hverdict⟩, -⟩ := hcells one hone cell hcell
    rw [hverdict] at hcandidates
    cases hcandidates
  have hconflicts : (GeneratedTable.ofSettled g settled).conflicts = [] := by
    refine List.flatMap_eq_nil_iff.mpr fun one hone => List.filterMap_eq_nil_iff.mpr ?_
    intro cell hcell
    rw [Cell.conflict?, (hcells one hone cell hcell).2, Option.map_none]
  have hgenerate : (g.automaton a).generate g ((g.automaton a).lookaheadSets g a) options =
      .ok (GeneratedTable.ofSettled g settled) := by
    rw [Automaton.generate, hsettled]
    refine if_neg ?_
    change ¬ candidatesNumbers < (SettledState.distinctCandidates settled).length
    rw [hlists]
    exact Nat.not_lt_zero _
  have hexcess : conflictExcess? options 0 = none := by
    rw [conflictExcess?]
    split
    · exact if_neg (Nat.not_lt_zero _)
    · rfl
  refine ⟨_, ?_, hconflicts⟩
  rw [build, h.analysed]
  dsimp only
  rw [hgenerate]
  dsimp only
  rw [reportedConflicts, hconflicts, List.filter_nil, List.length_nil, hexcess]

/-- Where precedences decide, a table has the only action of the automaton or the decision. -/
theorem chosen (h : g.Built a) (hsilent : g.Silent a) (hbuild : (g.build options).2 = .ok table)
    (q : StateId) (t : TerminalId) : g.Chosen a q t (table.toParseTable.action q t) := by
  obtain ⟨pend, hpend, horder, hempty, hsingle, -, hseveral⟩ := h.accounts hbuild q t
  simp only [h.pends_iff] at hpend
  rcases pend with _ | ⟨first, _ | ⟨second, rest⟩⟩
  · rw [hempty rfl]
    exact .refused fun action hacts => List.not_mem_nil ((hpend action).mpr hacts)
  · rw [hsingle first rfl]
    exact .single fun other => by rw [← hpend, List.mem_singleton]
  · have hmany : 1 < (first :: second :: rest).length := by simp
    obtain ⟨hstatic, action, hdecided⟩ := hsilent q t _ hpend horder hmany
    rw [((hseveral hmany).decided hstatic action hdecided).1]
    exact .decided hpend horder hmany hdecided

end Built

end Grammar

end OperatorLALR
