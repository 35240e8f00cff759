import OperatorLALR.Proofs.Automaton.Canonical

/-!
# Predecessors by symbols

A state is a predecessor of an item exactly if it has the item's rule with the dot in front and its
transitions lead, across the symbols before the dot, to the state of the item. This is so for
automata that have been computed to the end: the exploration of kernels ends, and the rounds by
which the sets grow end with a round that changes nothing (`predecessors_exact`).
-/

namespace OperatorLALR

/-- The state that the transitions lead to from a state across a string of symbols. -/
def Automaton.walkFrom? (m : Automaton) (p : StateId) (γ : List Symbol) : Option StateId :=
  γ.foldlM m.across? p

namespace Grammar.Built

variable {g : Grammar} {a : Analysis} {p q : StateId} {s : State} {symbol : Symbol}
  {γ : List Symbol} {item : Item} {place : Nat}

/-- A walk across a longer string ends with a transition. -/
theorem walkFrom?_snoc_eq_some_iff (h : g.Built a) :
    (g.automaton a).walkFrom? p (γ ++ [symbol]) = some q ↔
      ∃ before, (g.automaton a).walkFrom? p γ = some before ∧
        (g.automaton a).Goes before symbol q := by
  have hlast : (g.automaton a).walkFrom? p (γ ++ [symbol]) =
      ((g.automaton a).walkFrom? p γ).bind fun before =>
        (g.automaton a).across? before symbol := by
    simp [Automaton.walkFrom?, List.foldlM_append]
  rw [hlast, Option.bind_eq_some_iff]
  simp only [h.across?_eq_some_iff]

/-- Moving the dot across a symbol puts the symbol before it. -/
theorem take_advance (hnext : item.next? g = some symbol) :
    (g.body item.advance.rule).take item.advance.dot =
      (g.body item.rule).take item.dot ++ [symbol] := by
  obtain ⟨hlt, hget⟩ := List.getElem?_eq_some_iff.mp hnext
  rw [← hget]
  exact List.take_succ_eq_append_getElem hlt

/-- A walk to an item starts with its rule, and goes across the symbols before its dot. -/
theorem walkFrom?_of_origin (h : g.Built a) (horigin : Origin (g.states a) p q item) :
    (g.automaton a).Has p ⟨item.rule, 0⟩ ∧
      (g.automaton a).walkFrom? p ((g.body item.rule).take item.dot) = some q := by
  induction horigin with
  | @own s item hs hitem hdot =>
    rw [hdot, List.take_zero, ← hdot]
    exact ⟨⟨s, hs, hitem⟩, rfl⟩
  | step _ hs hmoves ih =>
    obtain ⟨hfront, hwalk⟩ := ih
    obtain ⟨-, symbol, hnext, hgoes⟩ := (h.moves_iff hs).mp hmoves
    rw [take_advance hnext]
    exact ⟨hfront, h.walkFrom?_snoc_eq_some_iff.mpr ⟨_, hwalk, hgoes⟩⟩

/-- A walk across the symbols before the dot of an item, from a state with its rule, is one to the
item. -/
theorem origin_of_walkFrom? (h : g.Built a) {r : RuleId} {dot : Nat}
    (hitem : (g.automaton a).Has q ⟨r, dot⟩) (hfront : (g.automaton a).Has p ⟨r, 0⟩)
    (hwalk : (g.automaton a).walkFrom? p ((g.body r).take dot) = some q) :
    Origin (g.states a) p q ⟨r, dot⟩ := by
  induction dot generalizing q with
  | zero =>
    rw [List.take_zero] at hwalk
    obtain rfl : p = q := Option.some.inj hwalk
    obtain ⟨s, hs, hmem⟩ := hfront
    exact .own hs hmem rfl
  | succ dot ih =>
    have hlt : dot < (g.body r).length := (mem_allItems.mp (h.mem_allItems_of_has hitem)).2
    rw [List.take_succ_eq_append_getElem hlt, h.walkFrom?_snoc_eq_some_iff] at hwalk
    obtain ⟨before, hwalk, hgoes⟩ := hwalk
    obtain ⟨hold, hnext⟩ := h.has_before hgoes hitem
    obtain ⟨s, hs, hmem⟩ := id hold
    exact .step (ih hold hwalk) hs ((h.moves_iff hs).mpr ⟨hmem, _, hnext, hgoes⟩)

/-- Some walk leads to every item. -/
theorem exists_origin (h : g.Built a) {r : RuleId} {dot : Nat}
    (hitem : (g.automaton a).Has q ⟨r, dot⟩) : ∃ p, Origin (g.states a) p q ⟨r, dot⟩ := by
  induction dot generalizing q with
  | zero =>
    obtain ⟨s, hs, hmem⟩ := hitem
    exact ⟨q, .own hs hmem rfl⟩
  | succ dot ih =>
    obtain ⟨before, symbol, hgoes⟩ := h.exists_goes_before hitem
    obtain ⟨hold, hnext⟩ := h.has_before hgoes hitem
    obtain ⟨p, horigin⟩ := ih hold
    obtain ⟨s, hs, hmem⟩ := hold
    exact ⟨p, .step horigin hs ((h.moves_iff hs).mpr ⟨hmem, symbol, hnext, hgoes⟩)⟩

/-- The predecessors of an item are the states with its rule from which transitions lead to it. -/
theorem mem_predsAt_iff_walkFrom? (h : g.Built a) (hs : (g.automaton a).state? q = some s)
    (hitem : s.items[place]? = some item) :
    p ∈ (g.automaton a).predsAt q place ↔ (g.automaton a).Has p ⟨item.rule, 0⟩ ∧
      (g.automaton a).walkFrom? p ((g.body item.rule).take item.dot) = some q := by
  rw [h.mem_predsAt hs hitem]
  refine ⟨h.walkFrom?_of_origin, fun ⟨hfront, hwalk⟩ => ?_⟩
  exact h.origin_of_walkFrom? ⟨s, hs, List.mem_of_getElem? hitem⟩ hfront hwalk

end Grammar.Built

/-- The exploration of kernels ends, and so do the rounds in which predecessor sets grow. After
that, the predecessors of an item are exactly the states that have its rule with the dot in front
and from which the transitions across the symbols before its dot lead to its state. There are some,
and a further round changes nothing. -/
theorem predecessors_exact {g : Grammar} {a : Analysis} (hg : g.IsDefined)
    (ha : g.analyse = .ok a) (hstates : (g.kernels a).items.size < stateNumbers) :
    ProcessesAll (g.kernelsAfter a) 0 (Numbering.ofList [initialKernel]) (g.kernels a) ∧
    Stabilizes (extendPredecessors (g.states a)) (noPredecessors (g.states a))
      (g.automaton a).preds ∧
    (∀ (q : StateId) (s : State) (place : Nat) (item : Item),
      (g.automaton a).state? q = some s → s.items[place]? = some item →
        (∀ p, p ∈ (g.automaton a).predsAt q place ↔ (g.automaton a).Has p ⟨item.rule, 0⟩ ∧
          (g.automaton a).walkFrom? p ((g.body item.rule).take item.dot) = some q) ∧
        ∃ p, p ∈ (g.automaton a).predsAt q place) ∧
    (g.automaton a).isUnsettled = false ∧ (g.automaton a).extend = g.automaton a := by
  have h : g.Built a := ⟨hg.wellFormed, ha, hstates⟩
  have hautomaton : g.automaton a = ⟨g.states a, predecessors (g.states a)⟩ := rfl
  have hextend : (g.automaton a).extend = g.automaton a := by
    rw [hautomaton, Automaton.extend]
    dsimp only
    rw [extendPredecessors_predecessors]
  refine ⟨Grammar.processesAll_kernels h.wellFormed, ?_, ?_, ?_, hextend⟩
  · rw [hautomaton]
    dsimp only
    exact stabilizes_predecessors (g.states a)
  · intro q s place item hs hitem
    refine ⟨fun p => h.mem_predsAt_iff_walkFrom? hs hitem, ?_⟩
    obtain ⟨p, horigin⟩ := h.exists_origin ⟨s, hs, List.mem_of_getElem? hitem⟩
    exact ⟨p, (h.mem_predsAt hs hitem).mpr horigin⟩
  · rw [Automaton.isUnsettled, hextend, bne_self_eq_false]

/-- The grammar `S := a S b | %empty` (as rules 1 and 2). -/
def nesting : Grammar where
  terminals := [.endOfInput, ⟨"a", none, .plain⟩, ⟨"b", none, .plain⟩]
  nonterminals := [augmentedStartName, "S"]
  rules := [⟨augmentedStart, [.nonterminal ⟨1⟩], none⟩,
    ⟨⟨1⟩, [.terminal ⟨1⟩, .nonterminal ⟨1⟩, .terminal ⟨2⟩], none⟩, ⟨⟨1⟩, [], none⟩]
  start := ⟨1⟩
  operators := ∅
  operatorTerminals := ∅

/-- The analysis of the grammar. -/
def nestingAnalysis : Analysis := nesting.analyse.toOption.getD ⟨∅, [], []⟩

/-- Across `a` transitions lead from the initial state to another one, and from there back to
itself. Both are predecessors of the item that has moved its dot across `a` in that state. -/
theorem predecessors_exact_nesting :
    nesting.IsDefined ∧ nesting.analyse = .ok nestingAnalysis ∧
      (nesting.kernels nestingAnalysis).items.size < stateNumbers ∧
      ∀ p, ((nesting.automaton nestingAnalysis).Has p ⟨⟨1⟩, 0⟩ ∧
        (nesting.automaton nestingAnalysis).walkFrom? p [.terminal ⟨1⟩] = some ⟨2⟩) ↔
          p = ⟨0⟩ ∨ p = ⟨2⟩ := by
  have hdefined : nesting.IsDefined :=
    ⟨[.terminal "a" none, .terminal "b" none, .nonterminal "S",
      .rule ⟨1⟩ [.terminal ⟨1⟩, .nonterminal ⟨1⟩, .terminal ⟨2⟩] none, .rule ⟨1⟩ [] none],
      .inl (by decide)⟩
  have hanalysis : nesting.analyse = .ok nestingAnalysis := by decide +kernel
  have hsize : (nesting.kernels nestingAnalysis).items.size < stateNumbers := by decide +kernel
  have hitem : ((nesting.automaton nestingAnalysis).state? ⟨2⟩).bind (fun s => s.items[0]?) =
      some ⟨⟨1⟩, 1⟩ := by decide +kernel
  have hset : (nesting.automaton nestingAnalysis).predsAt ⟨2⟩ 0 = .ofList [⟨0⟩, ⟨2⟩] := by
    decide +kernel
  obtain ⟨s, hs, hplace⟩ := Option.bind_eq_some_iff.mp hitem
  obtain ⟨-, -, hexact, -⟩ := predecessors_exact hdefined hanalysis hsize
  refine ⟨hdefined, hanalysis, hsize, fun p => ?_⟩
  have hp := (hexact ⟨2⟩ s 0 ⟨⟨1⟩, 1⟩ hs hplace).1 p
  rw [hset, IndexSet.mem_ofList, List.mem_cons, List.mem_singleton] at hp
  exact hp.symm

end OperatorLALR
