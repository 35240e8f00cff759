import OperatorLALR.Proofs.ParseTable.Records

/-!
# Priorities against policies

Where no operators decide, a shift and reductions are compared by their precedences. If the terminal
has a higher priority than the rules of all reductions, the table shifts. If all rules have a higher
priority than the terminal, it reduces by the only one of them; several of them are left to the
policy on shifts, which may prefer the shift to each of them (`priorities_decide`).
-/

namespace OperatorLALR

/-- Both precedences are declared, the first with the higher priority. -/
def Outranks (high low : Option Precedence) : Prop :=
  ∃ p ∈ high, ∃ p' ∈ low, p'.priority < p.priority

/-- What the policy on shifts leaves of a shift and reductions: the shift, or a list with all that
competes. -/
inductive GeneratedTable.FollowsPolicy (table : GeneratedTable) (g : Grammar) (a : Analysis)
    (q : StateId) (t : TerminalId) (next : StateId) : ShiftPolicy → Prop
  | preferShift (haction : table.toParseTable.action q t = .shift next) :
      FollowsPolicy table g a q t next .preferShift
  | tryAll {d : CandidatesId} {list : List Action}
      (haction : table.toParseTable.action q t = .choice d)
      (hcandidates : table.toParseTable.candidates d = some list)
      (hlist : ∀ action, action ∈ list ↔ g.Pends a q t action) :
      FollowsPolicy table g a q t next .tryAll

namespace Grammar

variable {g : Grammar} {t : TerminalId} {r : RuleId} {next : StateId} {options : BuildOptions}
  {c : Competition}

/-- A terminal of a higher priority favours its shift. -/
theorem favours_shift_of_outranks (h : Outranks (g.terminalPrecedence t) (g.rulePrecedence r)) :
    g.favours t r = some .shift := by
  obtain ⟨shift, hshift, reduce, hreduce, hlt⟩ := h
  rw [favours, Option.mem_def.mp hshift, Option.mem_def.mp hreduce]
  exact if_pos hlt

/-- A rule of a higher priority favours its reduction. -/
theorem favours_reduce_of_outranks (h : Outranks (g.rulePrecedence r) (g.terminalPrecedence t)) :
    g.favours t r = some .reduce := by
  obtain ⟨reduce, hreduce, shift, hshift, hlt⟩ := h
  rw [favours, Option.mem_def.mp hshift, Option.mem_def.mp hreduce]
  exact (if_neg (Nat.lt_asymm hlt)).trans (if_pos hlt)

/-- Where the shift is favoured against every reduction it is made. -/
theorem settleShiftReduce_shift (hne : c.reduces ≠ [])
    (hall : ∀ r ∈ c.reduces, g.favours t r = some .shift) :
    g.settleShiftReduce options t next c = (.action (.shift next), none) := by
  rw [settleShiftReduce, compareReductions_of_favours c.shiftRules hne hall]
  rfl

/-- A single reduction that is favoured is made. -/
theorem settleShiftReduce_reduce (hsingle : c.reduces = [r])
    (hfavours : g.favours t r = some .reduce) :
    g.settleShiftReduce options t next c = (.action (.reduce r), none) := by
  have hall : ∀ r' ∈ c.reduces, g.favours t r' = some .reduce := by
    rw [hsingle]
    exact fun r' hr' => (List.mem_singleton.mp hr').symm ▸ hfavours
  rw [settleShiftReduce, compareReductions_of_favours c.shiftRules (by simp [hsingle]) hall,
    hsingle]
  rfl

/-- Several reductions are left to the policy, though each is favoured against the shift: the
precedences do not tell them apart. -/
theorem settleShiftReduce_several (hseveral : ∀ r, c.reduces ≠ [r]) (hne : c.reduces ≠ [])
    (hall : ∀ r ∈ c.reduces, g.favours t r = some .reduce) :
    g.settleShiftReduce options t next c =
      (options.shiftVerdict next c, some .inconsistentShiftResolution) := by
  rw [settleShiftReduce, compareReductions_of_favours c.shiftRules hne hall]
  dsimp only
  split
  · next r hsingle => exact absurd hsingle (hseveral r)
  · rfl

end Grammar

/-- A table has in a state on a terminal what precedences and the policy make of a shift and the
reductions that compete with it. -/
structure GeneratedTable.Weighs (table : GeneratedTable) (g : Grammar) (a : Analysis)
    (options : BuildOptions) (q : StateId) (t : TerminalId) (next : StateId) (c : Competition) :
    Prop where
  nodup : c.reduces.Nodup
  pends : ∀ action, action ∈ c.candidates ↔ g.Pends a q t action
  settled : ∀ {verdict : Verdict} {cause : Option ConflictCause},
    g.settleShiftReduce options t next c = (verdict, cause) →
      ∃ lists, table.toParseTable.action q t = verdict.toAction lists ∧
        (∀ list, verdict.candidates? = some list →
          table.toParseTable.candidates ⟨lists.idxOf list⟩ = some list) ∧
        table.conflictsAt q t = (cause.map fun cause =>
          ⟨q, t, c.shift, c.reduces, cause, verdict.toAction lists⟩).toList

section Weighs

variable {g : Grammar} {a : Analysis} {q : StateId} {t : TerminalId} {r r' : RuleId}
  {next : StateId} {options : BuildOptions} {table : GeneratedTable} {c : Competition}
  {preference : Preference}

/-- A shift and reductions between which no operators decide are settled by precedences and the
policy. -/
theorem Grammar.Built.exists_weighs (h : g.Built a) (hbuild : (g.build options).2 = .ok table)
    (hshift : g.Pends a q t (.shift next)) (hreduce : g.Pends a q t (.reduce r))
    (ht : g.isOperatorTerminal t = false)
    (hrules : ∀ r, g.Pends a q t (.reduce r) → g.governingPlace r = none) :
    ∃ c, table.Weighs g a options q t next c := by
  obtain ⟨s, hs, c, hc, hmem⟩ := h.exists_competition (h.pends_iff.mp hshift)
  have hpend : ∀ action, action ∈ c.ordered.actions ↔ g.Pends a q t action := fun action =>
    (h.mem_actions_ordered hs hc action).trans h.pends_iff.symm
  have hnext : c.ordered.shift = some next := Competition.shift_mem_actions.mp hmem
  have hr : r ∈ c.ordered.reduces := (Competition.reduce_mem_actions.mp ((hpend _).mpr hreduce)).2
  obtain ⟨verdict, cause, lists, hsettle, htable⟩ := h.exists_verdict hbuild hs hc
  have hmany : 1 < c.ordered.candidates.length := by
    rw [Competition.candidates, hnext, List.length_append, List.length_map, List.length_map]
    exact Nat.add_lt_add_left (List.length_pos_of_mem hr) 1
  obtain ⟨hne, haccept, -⟩ := settle_conflict hsettle hmany
  rw [Competition.actions_eq_candidates haccept] at hpend
  have hstatic : g.isDynamic t c.ordered.reduces = false := by
    rw [← Bool.not_eq_true, isDynamic_iff]
    rintro (hoperator | ⟨r', hr', hplace⟩)
    · cases ht.symm.trans hoperator
    · rw [hrules r' ((hpend _).mp hr')] at hplace
      cases hplace
  rw [settle_shift hnext hne haccept hstatic] at hsettle
  have horder := (List.pairwise_append.mp (pairwise_ordered c)).2.1
  refine ⟨c.ordered, (List.pairwise_map.mp horder).imp fun hbefore heq => ?_, hpend,
    fun hsettle' => ?_⟩
  · cases hbefore with
    | reduce hlt => exact Nat.lt_irrefl _ (heq ▸ hlt)
  · obtain ⟨rfl, rfl⟩ := Prod.mk.inj ((Except.ok.inj hsettle).symm.trans hsettle')
    exact ⟨lists, htable⟩

namespace GeneratedTable.Weighs

variable (h : table.Weighs g a options q t next c)

include h

/-- The reductions of the competition are those that pend. -/
theorem mem_reduces : r ∈ c.reduces ↔ g.Pends a q t (.reduce r) := by
  rw [← h.pends, Competition.reduce_mem_candidates]

/-- What favours the same side against each reduction that pends does so in the competition. -/
theorem favours_of_pends
    (hall : ∀ r, g.Pends a q t (.reduce r) → g.favours t r = some preference) :
    ∀ r ∈ c.reduces, g.favours t r = some preference :=
  fun r hr => hall r (h.mem_reduces.mp hr)

/-- A shift that is favoured against every reduction is made. -/
theorem action_shift (hr : g.Pends a q t (.reduce r))
    (hall : ∀ r, g.Pends a q t (.reduce r) → g.favours t r = some .shift) :
    table.toParseTable.action q t = .shift next := by
  have hne : c.reduces ≠ [] := List.ne_nil_of_mem (h.mem_reduces.mpr hr)
  obtain ⟨lists, haction, -⟩ :=
    h.settled (Grammar.settleShiftReduce_shift hne (h.favours_of_pends hall))
  exact haction

/-- The only reduction is made if it is favoured. -/
theorem action_reduce (hsingle : ∀ r', g.Pends a q t (.reduce r') ↔ r' = r)
    (hfavours : g.favours t r = some .reduce) : table.toParseTable.action q t = .reduce r := by
  have hperm : c.reduces.Perm [r] :=
    (List.perm_ext_iff_of_nodup h.nodup (List.nodup_singleton r)).mpr fun r' => by
      rw [h.mem_reduces, hsingle, List.mem_singleton]
  obtain ⟨lists, haction, -⟩ :=
    h.settled (Grammar.settleShiftReduce_reduce (List.perm_singleton.mp hperm) hfavours)
  exact haction

/-- Several reductions are left to the policy, though each is favoured against the shift. -/
theorem followsPolicy (hr : g.Pends a q t (.reduce r)) (hr' : g.Pends a q t (.reduce r'))
    (hne : r ≠ r') (hall : ∀ r, g.Pends a q t (.reduce r) → g.favours t r = some .reduce) :
    table.FollowsPolicy g a q t next options.shiftPolicy ∧
      ∃ conflict, table.conflictsAt q t = [conflict] ∧
        conflict.cause = .inconsistentShiftResolution ∧
        conflict.resolution = table.toParseTable.action q t := by
  have hmem := h.mem_reduces.mpr hr
  have hmem' := h.mem_reduces.mpr hr'
  have hseveral : ∀ only, c.reduces ≠ [only] := by
    intro only hone
    rw [hone, List.mem_singleton] at hmem hmem'
    exact hne (hmem.trans hmem'.symm)
  obtain ⟨lists, haction, hlists, hrecords⟩ := h.settled
    (Grammar.settleShiftReduce_several hseveral (List.ne_nil_of_mem hmem) (h.favours_of_pends hall))
  refine ⟨?_, _, hrecords, rfl, haction.symm⟩
  rw [BuildOptions.shiftVerdict] at haction hlists
  cases hpolicy : options.shiftPolicy with
  | preferShift =>
    rw [hpolicy] at haction
    exact .preferShift haction
  | tryAll =>
    rw [hpolicy] at haction hlists
    exact .tryAll haction (hlists _ rfl) h.pends

end GeneratedTable.Weighs

end Weighs

/-- Where no operators decide between a shift and reductions, a higher priority of the terminal
makes the table shift. If all rules have a higher priority than the terminal, the table reduces by
the only one. Several of them are on record as an inconsistent comparison, and the policy on shifts
decides: it shifts, or leaves everything open. -/
theorem priorities_decide {g : Grammar} {a : Analysis} (hg : g.IsDefined)
    (ha : g.analyse = .ok a) (hstates : (g.kernels a).items.size < stateNumbers)
    {options : BuildOptions} {table : GeneratedTable} (hbuild : (g.build options).2 = .ok table)
    {q next : StateId} {t : TerminalId} (hshift : g.Pends a q t (.shift next))
    (hreduces : ∃ r, g.Pends a q t (.reduce r)) (ht : g.isOperatorTerminal t = false)
    (hrules : ∀ r, g.Pends a q t (.reduce r) → g.governingPlace r = none) :
    ((∀ r, g.Pends a q t (.reduce r) →
        Outranks (g.terminalPrecedence t) (g.rulePrecedence r)) →
      table.toParseTable.action q t = .shift next) ∧
    ((∀ r, g.Pends a q t (.reduce r) →
        Outranks (g.rulePrecedence r) (g.terminalPrecedence t)) →
      (∀ r, (∀ r', g.Pends a q t (.reduce r') ↔ r' = r) →
        table.toParseTable.action q t = .reduce r) ∧
      ∀ r r', g.Pends a q t (.reduce r) → g.Pends a q t (.reduce r') → r ≠ r' →
        table.FollowsPolicy g a q t next options.shiftPolicy ∧
        ∃ conflict, table.conflictsAt q t = [conflict] ∧
          conflict.cause = .inconsistentShiftResolution ∧
          conflict.resolution = table.toParseTable.action q t) := by
  have h : g.Built a := ⟨hg.wellFormed, ha, hstates⟩
  obtain ⟨r, hr⟩ := hreduces
  obtain ⟨c, hweighs⟩ := h.exists_weighs hbuild hshift hr ht hrules
  refine ⟨fun hhigher => ?_, fun hhigher => ?_⟩
  · exact hweighs.action_shift hr fun r hr => Grammar.favours_shift_of_outranks (hhigher r hr)
  · have hfavours : ∀ r, g.Pends a q t (.reduce r) → g.favours t r = some .reduce :=
      fun r hr => Grammar.favours_reduce_of_outranks (hhigher r hr)
    exact ⟨fun r hsingle => hweighs.action_reduce hsingle (hfavours r ((hsingle r).mpr rfl)),
      fun r r' hr hr' hne => hweighs.followsPolicy hr hr' hne hfavours⟩

/-- The grammar `S := A a | A b | B b b | x a x | x b x`, `A := x`, `B := x` (as rules 1 to 7), with
a higher priority of `x` than of `a` and `b`. -/
def outranked : Grammar where
  terminals := [.endOfInput, ⟨"x", some ⟨2, .left⟩, .plain⟩, ⟨"a", some ⟨1, .left⟩, .plain⟩,
    ⟨"b", some ⟨1, .left⟩, .plain⟩]
  nonterminals := [augmentedStartName, "S", "A", "B"]
  rules := [⟨augmentedStart, [.nonterminal ⟨1⟩], none⟩,
    ⟨⟨1⟩, [.nonterminal ⟨2⟩, .terminal ⟨2⟩], none⟩,
    ⟨⟨1⟩, [.nonterminal ⟨2⟩, .terminal ⟨3⟩], none⟩,
    ⟨⟨1⟩, [.nonterminal ⟨3⟩, .terminal ⟨3⟩, .terminal ⟨3⟩], none⟩,
    ⟨⟨1⟩, [.terminal ⟨1⟩, .terminal ⟨2⟩, .terminal ⟨1⟩], none⟩,
    ⟨⟨1⟩, [.terminal ⟨1⟩, .terminal ⟨3⟩, .terminal ⟨1⟩], none⟩,
    ⟨⟨2⟩, [.terminal ⟨1⟩], none⟩,
    ⟨⟨3⟩, [.terminal ⟨1⟩], none⟩]
  start := ⟨1⟩
  operators := ∅
  operatorTerminals := ∅

/-- The analysis of the grammar. -/
def outrankedAnalysis : Analysis := outranked.analyse.toOption.getD ⟨∅, [], []⟩

/-- The table of the grammar that prefers shifts. -/
def outrankedTable : GeneratedTable where
  rows := #[
    ⟨⟨[(⟨1⟩, .shift ⟨4⟩)]⟩, ⟨[(⟨1⟩, ⟨1⟩), (⟨2⟩, ⟨2⟩), (⟨3⟩, ⟨3⟩)]⟩⟩,
    ⟨⟨[(endOfInput, .accept)]⟩, ∅⟩,
    ⟨⟨[(⟨2⟩, .shift ⟨5⟩), (⟨3⟩, .shift ⟨6⟩)]⟩, ∅⟩,
    ⟨⟨[(⟨3⟩, .shift ⟨7⟩)]⟩, ∅⟩,
    ⟨⟨[(⟨2⟩, .reduce ⟨6⟩), (⟨3⟩, .shift ⟨9⟩)]⟩, ∅⟩,
    ⟨⟨[(endOfInput, .reduce ⟨1⟩)]⟩, ∅⟩,
    ⟨⟨[(endOfInput, .reduce ⟨2⟩)]⟩, ∅⟩,
    ⟨⟨[(⟨3⟩, .shift ⟨10⟩)]⟩, ∅⟩,
    ⟨⟨[(⟨1⟩, .shift ⟨11⟩)]⟩, ∅⟩,
    ⟨⟨[(⟨1⟩, .shift ⟨12⟩)]⟩, ∅⟩,
    ⟨⟨[(endOfInput, .reduce ⟨3⟩)]⟩, ∅⟩,
    ⟨⟨[(endOfInput, .reduce ⟨4⟩)]⟩, ∅⟩,
    ⟨⟨[(endOfInput, .reduce ⟨5⟩)]⟩, ∅⟩]
  rules := [⟨augmentedStart, 1, none⟩, ⟨⟨1⟩, 2, none⟩, ⟨⟨1⟩, 2, none⟩, ⟨⟨1⟩, 3, none⟩,
    ⟨⟨1⟩, 3, none⟩, ⟨⟨1⟩, 3, none⟩, ⟨⟨2⟩, 1, none⟩, ⟨⟨3⟩, 1, none⟩]
  candidates := []
  conflicts := [⟨⟨4⟩, ⟨3⟩, some ⟨9⟩, [⟨6⟩, ⟨7⟩], .inconsistentShiftResolution, .shift ⟨9⟩⟩]
  operators := ∅
  operatorTerminals := ∅
  nonterminals := [augmentedStartName, "S", "A", "B"]

/-- The grammar is that of a definition. -/
theorem outranked_isDefined : outranked.IsDefined :=
  ⟨[.terminal "x" (some ⟨2, .left⟩), .terminal "a" (some ⟨1, .left⟩),
    .terminal "b" (some ⟨1, .left⟩), .nonterminal "S", .nonterminal "A", .nonterminal "B",
    .rule ⟨1⟩ [.nonterminal ⟨2⟩, .terminal ⟨2⟩] none,
    .rule ⟨1⟩ [.nonterminal ⟨2⟩, .terminal ⟨3⟩] none,
    .rule ⟨1⟩ [.nonterminal ⟨3⟩, .terminal ⟨3⟩, .terminal ⟨3⟩] none,
    .rule ⟨1⟩ [.terminal ⟨1⟩, .terminal ⟨2⟩, .terminal ⟨1⟩] none,
    .rule ⟨1⟩ [.terminal ⟨1⟩, .terminal ⟨3⟩, .terminal ⟨1⟩] none,
    .rule ⟨2⟩ [.terminal ⟨1⟩] none, .rule ⟨3⟩ [.terminal ⟨1⟩] none], .inl (by decide)⟩

/-- Behind `x` it may be reduced to `A` before `a` and `b`, and to `B` before `b`. -/
theorem pends_outranked {t : TerminalId} {r : RuleId} :
    outranked.Pends outrankedAnalysis ⟨4⟩ t (.reduce r) ↔
      r = ⟨6⟩ ∧ t ∈ [⟨2⟩, ⟨3⟩] ∨ r = ⟨7⟩ ∧ t ∈ [⟨3⟩] := by
  have hrules : ∀ s ∈ (outranked.automaton outrankedAnalysis).state? ⟨4⟩, ∀ item ∈ s.items,
      item.dot = (outranked.body item.rule).length → item.rule ∈ [⟨6⟩, ⟨7⟩] := by
    decide +kernel
  obtain ⟨first, hfirst, hlist⟩ : ∃ set ∈ ((outranked.automaton outrankedAnalysis).lookaheadSets
      outranked outrankedAnalysis).get? ⟨4⟩ ⟨6⟩, set.toList = [⟨2⟩, ⟨3⟩] := by
    decide +kernel
  obtain ⟨second, hsecond, hlist'⟩ : ∃ set ∈ ((outranked.automaton outrankedAnalysis).lookaheadSets
      outranked outrankedAnalysis).get? ⟨4⟩ ⟨7⟩, set.toList = [⟨3⟩] := by
    decide +kernel
  rw [← hlist, ← hlist', IndexSet.mem_toList, IndexSet.mem_toList]
  constructor
  · intro hpends
    cases hpends with
    | reduce hr hitem hset ht =>
      obtain ⟨s, hs, hmem⟩ := hitem
      rcases List.mem_pair.mp (hrules s hs _ hmem rfl) with rfl | rfl
      · exact .inl ⟨rfl, Option.some.inj (hset.symm.trans hfirst) ▸ ht⟩
      · exact .inr ⟨rfl, Option.some.inj (hset.symm.trans hsecond) ▸ ht⟩
  · rintro (⟨rfl, ht⟩ | ⟨rfl, ht⟩)
    · exact .reduce (by decide) (by decide +kernel) hfirst ht
    · exact .reduce (by decide) (by decide +kernel) hsecond ht

/-- Behind `x` the terminal `a` may be shifted, or `x` reduced. The rule has the higher priority,
and the table reduces. -/
theorem priorities_decide_outranked :
    outranked.Pends outrankedAnalysis ⟨4⟩ ⟨2⟩ (.shift ⟨8⟩) ∧
      outrankedTable.toParseTable.action ⟨4⟩ ⟨2⟩ = .reduce ⟨6⟩ := by
  have hshift : outranked.Pends outrankedAnalysis ⟨4⟩ ⟨2⟩ (.shift ⟨8⟩) :=
    .shift (by decide +kernel)
  have hreduce : ∀ r, outranked.Pends outrankedAnalysis ⟨4⟩ ⟨2⟩ (.reduce r) ↔ r = ⟨6⟩ := fun r => by
    simp [pends_outranked]
  have hplace : outranked.governingPlace ⟨6⟩ = none := by decide
  have hpriority : Outranks (outranked.rulePrecedence ⟨6⟩) (outranked.terminalPrecedence ⟨2⟩) :=
    ⟨⟨2, .left⟩, rfl, ⟨1, .left⟩, rfl, by decide⟩
  have hbuild : (outranked.build .default).2 = .ok outrankedTable := by decide +kernel
  obtain ⟨-, hhigher⟩ := priorities_decide outranked_isDefined (a := outrankedAnalysis)
    (by decide +kernel) (by decide +kernel) hbuild hshift ⟨⟨6⟩, (hreduce _).mpr rfl⟩ (by decide)
    fun r hr => (hreduce r).mp hr ▸ hplace
  exact ⟨hshift, (hhigher fun r hr => (hreduce r).mp hr ▸ hpriority).1 ⟨6⟩ hreduce⟩

/-- Behind `x` the terminal `b` may be shifted, or `x` reduced by either of two rules. Both have the
higher priority, but the table shifts. -/
theorem outranked_shifts :
    outranked.IsDefined ∧ outranked.analyse = .ok outrankedAnalysis ∧
      (outranked.kernels outrankedAnalysis).items.size < stateNumbers ∧
      (outranked.build .default).2 = .ok outrankedTable ∧
      outranked.Pends outrankedAnalysis ⟨4⟩ ⟨3⟩ (.shift ⟨9⟩) ∧
      (∃ r, outranked.Pends outrankedAnalysis ⟨4⟩ ⟨3⟩ (.reduce r)) ∧
      outranked.isOperatorTerminal ⟨3⟩ = false ∧
      (∀ r, outranked.Pends outrankedAnalysis ⟨4⟩ ⟨3⟩ (.reduce r) →
        outranked.governingPlace r = none ∧
          Outranks (outranked.rulePrecedence r) (outranked.terminalPrecedence ⟨3⟩)) ∧
      outrankedTable.toParseTable.action ⟨4⟩ ⟨3⟩ = .shift ⟨9⟩ := by
  refine ⟨outranked_isDefined, by decide +kernel, by decide +kernel, by decide +kernel,
    .shift (by decide +kernel), ⟨⟨6⟩, pends_outranked.mpr (.inl ⟨rfl, by decide⟩)⟩, by decide,
    fun r hr => ?_, by decide⟩
  rcases pends_outranked.mp hr with ⟨rfl, -⟩ | ⟨rfl, -⟩ <;>
    exact ⟨by decide, ⟨2, .left⟩, rfl, ⟨1, .left⟩, rfl, by decide⟩

end OperatorLALR
