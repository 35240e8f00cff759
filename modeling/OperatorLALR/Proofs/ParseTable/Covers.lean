import OperatorLALR.Proofs.ParseTable.Permits

/-!
# What the table of a grammar covers

A table lacks nothing that a parser asks for on a path of the automaton: it has a row for every
state, the shape of every rule, and a transition behind every reduction for which the automaton has
one (`Grammar.Built.covers`).
-/

namespace OperatorLALR.Grammar

variable {g : Grammar} {a : Analysis} {q : StateId} {s : State}

/-- A table has the shapes of all rules, and all transitions across nonterminals. -/
structure Covers (g : Grammar) (a : Analysis) (table : ParseTable) : Prop where
  rule : ∀ r rule, g.rule? r = some rule → table.rule r = some (rule.shape g)
  goto : ∀ q n next, (g.automaton a).Goes q (.nonterminal n) next → table.goto q n = some next

namespace Built

variable {l : LookaheadSets} {options : BuildOptions} {table : GeneratedTable}
  {settled : List SettledState}

/-- The row of a state is made from what was settled for it. -/
theorem exists_row (hsettled : List.Forall₂
      (fun e settled => g.settleState options l e.1 e.2 = .ok settled) (g.automaton a).numbered
      settled) (hs : (g.automaton a).state? q = some s) :
    ∃ one ∈ settled, g.settleState options l q s = .ok one ∧
      (GeneratedTable.ofSettled g settled).row? q =
        some (one.row (SettledState.distinctCandidates settled)) := by
  have hnumbered : (g.automaton a).numbered[q.val]? = some (q, s) :=
    Automaton.getElem?_numbered.mpr ⟨rfl, hs⟩
  obtain ⟨one, hone, hsettle⟩ := exists_getElem?_right hsettled hnumbered
  refine ⟨one, List.mem_of_getElem? hone, hsettle, ?_⟩
  rw [GeneratedTable.row?, GeneratedTable.ofSettled]
  dsimp only
  rw [List.getElem?_toArray, List.getElem?_map, hone]
  rfl

/-- Across a nonterminal the table leads to where the automaton does. -/
theorem goto_of_goes (h : g.Built a) (hsettled : List.Forall₂
      (fun e settled => g.settleState options l e.1 e.2 = .ok settled) (g.automaton a).numbered
      settled) {n : NonterminalId} {next : StateId}
    (hgoes : (g.automaton a).Goes q (.nonterminal n) next) :
    (GeneratedTable.ofSettled g settled).toParseTable.goto q n = some next := by
  obtain ⟨s, hs, t, ht, hmarker, hnext⟩ := id hgoes
  obtain ⟨one, -, hsettle, hrow⟩ := exists_row hsettled hs
  obtain ⟨hgotos, -⟩ := h.permits_cells hs hsettle
  have hmem : (n, next) ∈ s.gotos := by
    rw [State.gotos, List.mem_filterMap]
    refine ⟨t, ht, ?_⟩
    rw [hmarker, hnext]
  have hunique : ∀ next', (n, next') ∈ s.gotos → next' = next := by
    intro next' hmem'
    rw [State.gotos, List.mem_filterMap] at hmem'
    obtain ⟨t', ht', heq⟩ := hmem'
    split at heq
    · next n' q' hmarker' hnext' =>
      obtain ⟨rfl, rfl⟩ := Prod.mk.inj (Option.some.inj heq)
      exact h.goes_unique ⟨s, hs, t', ht', hmarker', hnext'⟩ hgoes
    · cases heq
  rw [GeneratedTable.toParseTable]
  dsimp only
  rw [hrow, Option.bind_some, SettledState.row, hgotos]
  exact OrderedMap.find?_ofList hmem hunique

/-- The table of a grammar covers all of its automaton. -/
theorem covers (h : g.Built a) (hbuild : (g.build options).2 = .ok table) :
    g.Covers a table.toParseTable := by
  obtain ⟨settled, hsettled, rfl⟩ := h.exists_settled hbuild
  refine ⟨?_, fun q n next hgoes => h.goto_of_goes hsettled hgoes⟩
  intro r rule hrule
  change (g.rules.map fun rule => rule.shape g)[r.val]? = some (rule.shape g)
  have hplace : g.rules[r.val]? = some rule := hrule
  rw [List.getElem?_map, hplace, Option.map_some]

end Built

end OperatorLALR.Grammar
