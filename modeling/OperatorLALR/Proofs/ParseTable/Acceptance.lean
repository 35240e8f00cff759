import OperatorLALR.Proofs.Analysis.Acyclic
import OperatorLALR.Proofs.Automaton.Expected
import OperatorLALR.Proofs.ParseTable.Exact

/-!
# Nothing competes with acceptance

The state behind the start symbol accepts at the end of the input. No transition leads across the
end of the input. It is looked for behind another rule that is complete there only if the start
symbol, led up from that rule, is lifted to itself (`Grammar.Built.rule_eq_of_look_endOfInput`),
which an analysis excludes. Hence the errors that a table construction has for conflicts with
acceptance do not arise (`acceptance_unopposed`).
-/

namespace OperatorLALR

namespace Grammar

variable {g : Grammar} {a : Analysis} {q : StateId} {item : Item} {t : TerminalId}

/-- What an item expects behind the next symbol does not begin with the end of the input. -/
theorem not_begins_rest (hg : g.WellFormed) : ¬ g.Begins (item.rest g) endOfInput :=
  not_begins_endOfInput hg (hg.declares_rest item)

/-- A rule that expects its leading nonterminal, with nothing behind it, lets its head lift that
nonterminal. -/
theorem lifts_of_next? {r : RuleId} {rule : Rule} {n : NonterminalId}
    (hrule : g.rule? r = some rule) (hnext : (Item.mk r 0).next? g = some (.nonterminal n))
    (hrest : g.Vanishes ((Item.mk r 0).rest g)) : g.Lifts rule.left n :=
  ⟨r, rule, _, hrule, rfl, (body_eq hrule).symm.trans (body_eq_cons hnext), hrest⟩

/-- A complete item expects nothing. -/
theorem vanishes_ahead_complete (r : RuleId) : g.Vanishes (g.ahead ⟨r, (g.body r).length⟩) := by
  rw [ahead, List.drop_length]
  exact vanishes_nil

namespace Built

/-- In the initial state the end of the input is looked for behind the rule of the augmented start
symbol, and behind the rules of nonterminals that the start symbol lifts. -/
theorem lifts_of_look_initialState (h : g.Built a)
    (hlook : (g.automaton a).Look g initialState item endOfInput) :
    item = ⟨acceptRule, 0⟩ ∨ item.dot = 0 ∧ ∃ rule, g.rule? item.rule = some rule ∧
      Relation.ReflTransGen g.Lifts g.start rule.left := by
  generalize hq : initialState = q at hlook
  generalize ht : endOfInput = t at hlook
  induction hlook with
  | start => exact .inl rfl
  | spring _ _ _ hbegins => exact absurd (ht ▸ hbegins) (not_begins_rest h.wellFormed)
  | @pass p item n r t _ hnext hrest hr ih =>
    obtain ⟨rule, hrule, rfl⟩ := mem_rulesOf.mp hr
    refine .inr ⟨rfl, rule, hrule, ?_⟩
    rcases ih hq ht with rfl | ⟨hdot, upper, hupper, hlifts⟩
    · rw [h.wellFormed.next?_start] at hnext
      obtain hstart : g.start = rule.left := Symbol.nonterminal.inj (Option.some.inj hnext)
      rw [hstart]
    · obtain ⟨r', dot⟩ := item
      obtain rfl : dot = 0 := hdot
      exact hlifts.tail (lifts_of_next? hupper hnext hrest)
  | shift _ _ hgoes =>
    subst hq
    exact absurd hgoes h.not_goes_initialState

/-- Transitions to a state where the rule of the augmented start symbol is complete lead there from
the initial state, across the start symbol. -/
theorem eq_initialState_of_goes (h : g.Built a) {p : StateId} {symbol : Symbol}
    (haccept : (g.automaton a).Has q ⟨acceptRule, 1⟩) (hgoes : (g.automaton a).Goes p symbol q) :
    p = initialState ∧ symbol = .nonterminal g.start := by
  obtain ⟨hstart, hnext⟩ := h.has_before hgoes haccept
  rw [h.wellFormed.next?_start] at hnext
  exact ⟨h.eq_initialState_of_has hstart, (Option.some.inj hnext).symm⟩

/-- Where the rule of the augmented start symbol is complete, it does not stand with a symbol
expected. -/
theorem next?_eq_none_of_accept (h : g.Built a) (haccept : (g.automaton a).Has q ⟨acceptRule, 1⟩)
    {dot : Nat} (hitem : (g.automaton a).Has q ⟨acceptRule, dot⟩) :
    (Item.mk acceptRule dot).next? g = none := by
  cases dot with
  | zero =>
    obtain ⟨p, symbol, hgoes⟩ := h.exists_goes_before haccept
    rw [h.eq_initialState_of_has hitem] at hgoes
    exact absurd hgoes h.not_goes_initialState
  | succ dot =>
    rw [Item.next?, body_eq h.wellFormed.accept]
    rfl

/-- Where the rule of the augmented start symbol is complete, the end of the input is looked for
behind no other item that expects nothing more. -/
theorem rule_eq_of_look_endOfInput (h : g.Built a)
    (haccept : (g.automaton a).Has q ⟨acceptRule, 1⟩)
    (hlook : (g.automaton a).Look g q item endOfInput) (hvanishes : g.Vanishes (g.ahead item)) :
    item.rule = acceptRule := by
  generalize ht : endOfInput = t at hlook
  induction hlook with
  | start => rfl
  | spring _ _ _ hbegins => exact absurd (ht ▸ hbegins) (not_begins_rest h.wellFormed)
  | @pass q item n r t hlook hnext hrest hr ih =>
    obtain ⟨rule, hrule, rfl⟩ := mem_rulesOf.mp hr
    have hbody : g.Vanishes rule.body := body_eq hrule ▸ hvanishes
    have hexpected : g.Vanishes (g.ahead item) := by
      rw [ahead_eq hnext]
      exact vanishes_append.mpr ⟨vanishes_rule hrule hbody, hrest⟩
    -- the item that passes the lookahead on expects a symbol, and so is not the accepting one
    have haccepting := ih haccept hexpected ht
    obtain ⟨hitem, -⟩ := h.justified_of_look hlook
    obtain ⟨r', dot⟩ := item
    obtain rfl : r' = acceptRule := haccepting
    rw [h.next?_eq_none_of_accept haccept hitem] at hnext
    cases hnext
  | @shift p q item symbol t hlook hnext hgoes =>
    by_contra hne
    obtain ⟨rfl, rfl⟩ := h.eq_initialState_of_goes haccept hgoes
    subst ht
    rcases h.lifts_of_look_initialState hlook with rfl | ⟨hdot, rule, hrule, hlifts⟩
    · exact hne rfl
    · obtain ⟨r, dot⟩ := item
      obtain rfl : dot = 0 := hdot
      have hself : Relation.TransGen g.Lifts g.start g.start :=
        .tail' hlifts (lifts_of_next? hrule hnext hvanishes)
      exact Analysis.not_lifts_self h.wellFormed h.analysed g.start hself

variable {s : State} {c : Competition} {options : BuildOptions} {e : TableError}

/-- A competition with acceptance has no other action. -/
theorem eq_accept_of_mem_reduces (h : g.Built a) (hs : (g.automaton a).state? q = some s)
    (hc : (s.competitions ((g.automaton a).lookaheadSets g a) q).find? t = some c)
    (haccept : acceptRule ∈ c.ordered.reduces) :
    c.ordered.shift = none ∧ c.ordered.reduces = [acceptRule] := by
  have hmem : ∀ r, r ∈ c.ordered.reduces ↔ r ∈ c.reduces :=
    fun r => mem_sortDistinct fun r r' heq => Index.ext (Nat.compare_eq_eq.mp heq)
  have hreduces : ∀ r ∈ c.ordered.reduces,
      (g.automaton a).Look g q ⟨r, (g.body r).length⟩ t := by
    intro r hr
    rw [← h.mem_reducesOn_competitions hs, Competitions.reducesOn, hc]
    exact (hmem r).mp hr
  have hcompetes := h.competes hs _ (OrderedMap.mem_of_find? hc)
  obtain ⟨hhas, hend⟩ := hcompetes.reduces acceptRule ((hmem _).mp haccept)
  obtain rfl : t = endOfInput := hend rfl
  have hhas' : (g.automaton a).Has q ⟨acceptRule, 1⟩ := by
    rwa [body_eq h.wellFormed.accept] at hhas
  constructor
  · cases hshift : c.shift with
    | none => exact hshift
    | some next => exact absurd (hcompetes.shift next hshift) h.not_goes_endOfInput
  · -- all reductions are by the rule of the augmented start symbol, and none comes twice
    have hall : ∀ r ∈ c.ordered.reduces, r = acceptRule := fun r hr =>
      h.rule_eq_of_look_endOfInput hhas' (hreduces r hr) (vanishes_ahead_complete r)
    have hpairwise : c.ordered.reduces.Pairwise fun r r' => r.val < r'.val :=
      pairwise_sortDistinct (fun _ _ => Nat.compare_eq_lt.mp) (fun _ _ => Nat.compare_eq_gt.mp)
        (fun _ _ heq => Index.ext (Nat.compare_eq_eq.mp heq)) (fun _ _ _ => Nat.lt_trans) c.reduces
    generalize c.ordered.reduces = reduces at haccept hall hpairwise
    cases reduces with
    | nil => exact absurd haccept List.not_mem_nil
    | cons r rest =>
      cases rest with
      | nil => rw [hall r List.mem_cons_self]
      | cons r' rest =>
        have hlt := (List.pairwise_cons.mp hpairwise).1 r' List.mem_cons_self
        rw [hall r List.mem_cons_self, hall r' (by simp)] at hlt
        exact absurd hlt (Nat.lt_irrefl _)

/-- Only a competition of acceptance with something else cannot be settled. -/
theorem accept_of_settle_error (herror : g.settle options q t c = .error e) :
    acceptRule ∈ c.reduces ∧ ¬ (c.shift = none ∧ c.reduces = [acceptRule]) := by
  obtain ⟨shift, shiftRules, reduces⟩ := c
  unfold settle at herror
  dsimp only at herror ⊢
  split at herror
  · cases herror
  · cases herror
  · cases herror
  · next first others hnot =>
    split at herror
    · next haccept =>
      refine ⟨haccept, ?_⟩
      rintro ⟨hshift, hreduces⟩
      obtain ⟨-, rfl⟩ := List.cons.inj hreduces
      exact hnot hshift rfl
    · split at herror
      · cases herror
      · split at herror <;> cases herror

/-- What competes in a state on a terminal is settled. -/
theorem settle_ne_error (h : g.Built a) (hs : (g.automaton a).state? q = some s)
    (hmem : (t, c) ∈ (s.competitions ((g.automaton a).lookaheadSets g a) q).entries) :
    g.settle options q t c.ordered ≠ .error e := by
  intro herror
  obtain ⟨haccept, hnot⟩ := accept_of_settle_error herror
  have hc := OrderedMap.find?_of_mem (Competitions.nodup_keys s _ q) hmem
  exact hnot (h.eq_accept_of_mem_reduces hs hc haccept)

/-- Every state is settled. -/
theorem exists_settleStates (h : g.Built a) (options : BuildOptions) :
    ∃ settled, (g.automaton a).numbered.mapM
      (fun (q, s) => g.settleState options ((g.automaton a).lookaheadSets g a) q s) =
        .ok settled := by
  cases hsettled : (g.automaton a).numbered.mapM
      fun (q, s) => g.settleState options ((g.automaton a).lookaheadSets g a) q s with
  | ok settled => exact ⟨settled, rfl⟩
  | error e =>
    obtain ⟨⟨q, s⟩, hmem, hstate⟩ := exists_of_mapM_eq_error hsettled
    have hs := Automaton.mem_numbered.mp hmem
    obtain ⟨⟨t, c⟩, hentry, hcell⟩ := exists_of_mapM_eq_error (map_eq_error_iff.mp hstate)
    exact absurd (map_eq_error_iff.mp hcell) (h.settle_ne_error hs hentry)

/-- A table is generated unless there are more lists of candidates than can be numbered. -/
theorem generate_error (h : g.Built a)
    (herror : (g.automaton a).generate g ((g.automaton a).lookaheadSets g a) options = .error e) :
    e = .tooManyCandidateLists candidatesNumbers := by
  obtain ⟨settled, hsettled⟩ := h.exists_settleStates options
  rw [Automaton.generate, hsettled] at herror
  dsimp only at herror
  split at herror
  · exact (Except.error.inj herror).symm
  · cases herror

/-- A table accepts at the end of the input where the rule of the augmented start symbol is
complete. -/
theorem action_accept (h : g.Built a) {table : GeneratedTable}
    (hbuild : (g.build options).2 = .ok table)
    (haccept : (g.automaton a).Has q ⟨acceptRule, (g.body acceptRule).length⟩) :
    table.toParseTable.action q endOfInput = .accept := by
  have hacts : g.Acts a q endOfInput .accept := h.look_accept haccept rfl
  obtain ⟨s, hs, c, hc, hmem⟩ := h.exists_competition hacts
  obtain ⟨hshift, hreduces⟩ :=
    h.eq_accept_of_mem_reduces hs hc (Competition.accept_mem_actions.mp hmem)
  obtain ⟨settled, hsettled, rfl⟩ := h.exists_settled hbuild
  rcases action_of_settled hsettled hs endOfInput with
    ⟨hnone, -⟩ | ⟨-, -, cell, -, c', hc', hsettle, haction⟩
  · rw [hc] at hnone
    cases hnone
  · obtain rfl := Option.some.inj (hc.symm.trans hc')
    rw [settle, hshift, hreduces] at hsettle
    have hverdict : cell.verdict = .action .accept :=
      (congrArg Prod.fst (Except.ok.inj hsettle)).symm
    rw [haction, hverdict]
    rfl

end Built

end Grammar

/-- No table construction fails with a conflict of acceptance: where the rule of the augmented start
symbol is complete, nothing is shifted at the end of the input, and the lookahead sets of the other
rules that are complete there lack it. -/
theorem acceptance_unopposed {g : Grammar} {a : Analysis} (hg : g.IsDefined)
    (ha : g.analyse = .ok a) (hstates : (g.kernels a).items.size < stateNumbers)
    (options : BuildOptions) :
    (∀ q name,
      (g.automaton a).generate g ((g.automaton a).lookaheadSets g a) options ≠
        .error (.shiftAccept q name) ∧
      (g.automaton a).generate g ((g.automaton a).lookaheadSets g a) options ≠
        .error (.reduceAccept q name)) ∧
    ∀ q, (g.automaton a).Has q ⟨acceptRule, (g.body acceptRule).length⟩ →
      (∀ next, ¬ (g.automaton a).Goes q (.terminal endOfInput) next) ∧
      ∀ r, r ≠ acceptRule → (g.automaton a).Has q ⟨r, (g.body r).length⟩ →
        ∃ set, ((g.automaton a).lookaheadSets g a).get? q r = some set ∧ endOfInput ∉ set := by
  have h : g.Built a := ⟨hg.wellFormed, ha, hstates⟩
  refine ⟨fun q name => ⟨fun herror => ?_, fun herror => ?_⟩, fun q haccept => ⟨?_, ?_⟩⟩
  · cases h.generate_error herror
  · cases h.generate_error herror
  · exact fun next => h.not_goes_endOfInput
  · intro r hr hitem
    obtain ⟨set, hset, hlooks⟩ := h.exists_lookaheadSet hitem
    refine ⟨set, hset, fun hend => hr ?_⟩
    rw [Grammar.body_eq h.wellFormed.accept] at haccept
    exact h.rule_eq_of_look_endOfInput haccept ((hlooks endOfInput).mp hend)
      (Grammar.vanishes_ahead_complete r)

/-- The grammar `S := S S | a` (as rules 1 and 2). -/
def repetition : Grammar where
  terminals := [.endOfInput, ⟨"a", none, .plain⟩]
  nonterminals := [augmentedStartName, "S"]
  rules := [⟨augmentedStart, [.nonterminal ⟨1⟩], none⟩,
    ⟨⟨1⟩, [.nonterminal ⟨1⟩, .nonterminal ⟨1⟩], none⟩, ⟨⟨1⟩, [.terminal ⟨1⟩], none⟩]
  start := ⟨1⟩
  operators := ∅
  operatorTerminals := ∅

/-- The grammar is defined by declarations. -/
theorem repetition_isDefined : repetition.IsDefined :=
  ⟨[.terminal "a" none, .nonterminal "S", .rule ⟨1⟩ [.nonterminal ⟨1⟩, .nonterminal ⟨1⟩] none,
    .rule ⟨1⟩ [.terminal ⟨1⟩] none], .inl (by decide)⟩

/-- The analysis of the grammar. -/
def repetitionAnalysis : Analysis := repetition.analyse.toOption.getD ⟨∅, [], []⟩

/-- The state behind the first `S` goes on to further ones, and accepts at the end of the input. -/
theorem acceptance_unopposed_repetition :
    (repetition.automaton repetitionAnalysis).Has ⟨1⟩
        ⟨acceptRule, (repetition.body acceptRule).length⟩ ∧
      (∀ next, ¬ (repetition.automaton repetitionAnalysis).Goes ⟨1⟩ (.terminal endOfInput) next) ∧
      ∀ name, (repetition.automaton repetitionAnalysis).generate repetition
        ((repetition.automaton repetitionAnalysis).lookaheadSets repetition repetitionAnalysis)
        .default ≠ .error (.shiftAccept ⟨1⟩ name) := by
  have hitem : (((repetition.automaton repetitionAnalysis).state? ⟨1⟩).any fun s =>
      decide (Item.mk acceptRule (repetition.body acceptRule).length ∈ s.items)) = true := by
    decide +kernel
  obtain ⟨s, hs, hmem⟩ := (Option.any_eq_true _ _).mp hitem
  have hanalysed : repetition.analyse = .ok repetitionAnalysis := by decide +kernel
  have haccept := acceptance_unopposed repetition_isDefined hanalysed (by decide +kernel) .default
  exact ⟨⟨s, hs, of_decide_eq_true hmem⟩,
    (haccept.2 ⟨1⟩ ⟨s, hs, of_decide_eq_true hmem⟩).1, fun name => (haccept.1 ⟨1⟩ name).1⟩

end OperatorLALR
