import OperatorLALR.Proofs.Automaton.FollowSets

/-!
# Lookahead sets are exact

The lookahead set of a reduction holds a terminal exactly if the terminal reaches the complete item
by propagation item by item (`lookahead_exact`). What propagation says of an item is justified by a
kernel item in a state where a walk to the item starts, and by a chain of rules from it
(`Contributes`): a further rule of the closure makes that chain longer, whatever vanishes behind it
(`Contributes.snoc`).
-/

namespace OperatorLALR

namespace Grammar.Built

variable {g : Grammar} {a : Analysis} {follows : FollowSets} {p q : StateId} {s : State}
  {n target : NonterminalId} {t : TerminalId} {item : Item} {place : Nat}

/-- A kernel item of a state and a chain from the nonterminal behind its dot let a terminal follow
the target of the chain. -/
def Contributes (g : Grammar) (a : Analysis) (p : StateId) (target : NonterminalId)
    (t : TerminalId) : Prop :=
  ∃ (s : State) (place : Nat) (k : Item) (n : NonterminalId) (tail : List Symbol),
    (g.automaton a).state? p = some s ∧ s.kernel[place]? = some k ∧
      k.next? g = some (.nonterminal n) ∧ Chain g n target tail ∧
      (g.Begins tail t ∨ g.Vanishes tail ∧ (g.Begins (k.rest g) t ∨ g.Vanishes (k.rest g) ∧
        After g a ((g.automaton a).followSets g a) p k t))

/-- What a kernel item lets follow a nonterminal is in the follow set. -/
theorem mem_followSets_of_contributes (h : g.Built a) (hc : Contributes g a p target t) :
    FollowFact.Holds ((g.automaton a).followSets g a) (.terminal p target t) := by
  obtain ⟨s, place, k, n, tail, hs, hk, hnext, hchain, ht⟩ := hc
  have hn : n.val < g.nonterminals.length := (h.wellFormed.declares_next hnext).2
  obtain ⟨bucket, hbucket, hfirst, hnullable⟩ :=
    Analysis.exists_chains h.wellFormed h.analysed hn hchain
  refine h.followSets_settled hs hk hnext (Analysis.mem_chainsFrom.mpr hbucket) ?_
  rw [h.mem_followedBy, h.mem_afterRule hs (getElem?_of_kernel hk)]
  exact ht.imp (hfirst t) fun ⟨hvanishes, ht⟩ => ⟨hnullable hvanishes, ht⟩

/-- A chain with one more rule, with nothing behind its leading symbol, hands on what follows. -/
theorem Contributes.snoc {r : RuleId} {rule : Rule} {rest : List Symbol}
    (hc : Contributes g a p rule.left t) (hrule : g.rule? r = some rule)
    (hbody : rule.body = .nonterminal target :: rest) (hrest : g.Vanishes rest) :
    Contributes g a p target t := by
  obtain ⟨s, place, k, n, tail, hs, hk, hnext, hchain, ht⟩ := hc
  refine ⟨s, place, k, n, rest ++ tail, hs, hk, hnext, hchain.snoc hrule rfl hbody, ?_⟩
  rw [begins_append, vanishes_append]
  rcases ht with ht | ⟨hvanishes, ht⟩
  · exact .inl (.inr ⟨hrest, ht⟩)
  · exact .inr ⟨⟨hrest, hvanishes⟩, ht⟩

/-- An item that is not of the kernel: the kernel item and the chain that lead to its rule. -/
theorem closure_of_not_kernel (h : g.Built a) (hs : (g.automaton a).state? p = some s)
    (hitem : item ∈ s.items) (hnot : item ∉ s.kernel)
    (hnext : item.next? g = some (.nonterminal n)) :
    item.dot = 0 ∧ item.rule ≠ acceptRule ∧ ∃ rule, g.rule? item.rule = some rule ∧
      rule.left = g.left item.rule ∧ rule.body = .nonterminal n :: item.rest g ∧
        ∃ (place : Nat) (k : Item) (n₀ : NonterminalId) (tail : List Symbol),
          s.kernel[place]? = some k ∧ k.next? g = some (.nonterminal n₀) ∧
            Chain g n₀ rule.left tail := by
  rcases h.items_cases hs hitem with hkernel | ⟨k, hk, n₀, rule, tail, hnext₀, hrule, hchain, hdot⟩
  · exact absurd hkernel hnot
  · obtain ⟨r, dot⟩ := item
    obtain rfl : dot = 0 := hdot
    obtain ⟨place, hplace⟩ := List.mem_iff_getElem?.mp hk
    exact ⟨rfl, h.chain_rule_ne_accept hnext₀ hrule hchain, rule, hrule, (left_eq hrule).symm,
      (body_eq hrule).symm.trans (body_eq_cons hnext), place, k, n₀, tail, hplace, hnext₀, hchain⟩

/-- What begins the symbols behind a nonterminal of an item follows the nonterminal. -/
theorem contributes_of_begins (h : g.Built a) (hitem : (g.automaton a).Has p item)
    (hnext : item.next? g = some (.nonterminal n)) (ht : g.Begins (item.rest g) t) :
    Contributes g a p n t := by
  obtain ⟨s, hs, hmem⟩ := hitem
  by_cases hkernel : item ∈ s.kernel
  · obtain ⟨place, hplace⟩ := List.mem_iff_getElem?.mp hkernel
    exact ⟨s, place, item, n, [], hs, hplace, hnext, .nil n, .inr ⟨vanishes_nil, .inl ht⟩⟩
  · obtain ⟨-, -, rule, hrule, -, hbody, place, k, n₀, tail, hk, hnext₀, hchain⟩ :=
      h.closure_of_not_kernel hs hmem hkernel hnext
    refine ⟨s, place, k, n₀, _, hs, hk, hnext₀, hchain.snoc hrule rfl hbody, ?_⟩
    exact .inl (begins_append.mpr (.inl ht))

/-- Why a terminal may come behind the rule of an item. -/
def Justified (g : Grammar) (a : Analysis) (q : StateId) (item : Item) (t : TerminalId) : Prop :=
  item.rule = acceptRule ∧ t = endOfInput ∨ item.rule ≠ acceptRule ∧
    ∃ p, Origin (g.states a) p q item ∧ Contributes g a p (g.left item.rule) t

/-- What is justified may come behind the rule going by the follow sets. -/
theorem after_of_justified (h : g.Built a) (hj : Justified g a q item t) :
    After g a ((g.automaton a).followSets g a) q item t :=
  hj.imp_right fun ⟨hrule, p, horigin, hc⟩ =>
    ⟨hrule, p, horigin, h.mem_followSets_of_contributes hc⟩

/-- What may come behind the rule of an item follows the nonterminal with nothing behind it in that
item. -/
theorem contributes_of_justified (h : g.Built a) (hitem : (g.automaton a).Has p item)
    (hj : Justified g a p item t) (hnext : item.next? g = some (.nonterminal n))
    (hrest : g.Vanishes (item.rest g)) : Contributes g a p n t := by
  obtain ⟨s, hs, hmem⟩ := hitem
  by_cases hkernel : item ∈ s.kernel
  · obtain ⟨place, hplace⟩ := List.mem_iff_getElem?.mp hkernel
    exact ⟨s, place, item, n, [], hs, hplace, hnext, .nil n,
      .inr ⟨vanishes_nil, .inr ⟨hrest, h.after_of_justified hj⟩⟩⟩
  · obtain ⟨hdot, hne, rule, hrule, hleft, hbody, -⟩ :=
      h.closure_of_not_kernel hs hmem hkernel hnext
    rcases hj with ⟨haccept, -⟩ | ⟨-, p', horigin, hc⟩
    · exact absurd haccept hne
    · rw [horigin.eq_of_dot hdot, ← hleft] at hc
      exact hc.snoc hrule hbody hrest

/-- What follows a nonterminal of a state may come behind the rules of the nonterminal there. -/
theorem justified_of_contributes (h : g.Built a) {r : RuleId} (hitem : (g.automaton a).Has p item)
    (hnext : item.next? g = some (.nonterminal n)) (hr : r ∈ g.rulesOf n)
    (hc : Contributes g a p n t) : Justified g a p ⟨r, 0⟩ t := by
  obtain ⟨s, hs, hmem⟩ := h.has_closure hitem hnext hr
  obtain ⟨rule, hrule, rfl⟩ := mem_rulesOf.mp hr
  refine .inr ⟨h.chain_rule_ne_accept hnext hrule (.nil _), p, .own hs hmem rfl, ?_⟩
  rw [left_eq hrule]
  exact hc

/-- Whatever reaches an item by propagation is justified. -/
theorem justified_of_look (h : g.Built a) (hlook : (g.automaton a).Look g q item t) :
    (g.automaton a).Has q item ∧ Justified g a q item t := by
  induction hlook with
  | start => exact ⟨h.has_start, .inl ⟨rfl, rfl⟩⟩
  | spring hitem hnext hr ht =>
    have hc := h.contributes_of_begins hitem hnext ht
    exact ⟨h.has_closure hitem hnext hr, h.justified_of_contributes hitem hnext hr hc⟩
  | pass _ hnext hrest hr ih =>
    obtain ⟨hitem, hj⟩ := ih
    have hc := h.contributes_of_justified hitem hj hnext hrest
    exact ⟨h.has_closure hitem hnext hr, h.justified_of_contributes hitem hnext hr hc⟩
  | @shift p q item symbol t _ hnext hgoes ih =>
    obtain ⟨hitem, hj⟩ := ih
    obtain ⟨s', hs', hkernel⟩ := h.has_advance hitem hnext hgoes
    refine ⟨⟨s', hs', mem_items_of_mem_kernel hkernel⟩, hj.imp_right ?_⟩
    rintro ⟨hrule, p', horigin, hc⟩
    obtain ⟨s, hs, hmem⟩ := hitem
    exact ⟨hrule, p', .step horigin hs ((h.moves_iff hs).mpr ⟨hmem, symbol, hnext, hgoes⟩), hc⟩

/-- A state has one complete item at most of each rule, and its lookahead set is what may come
behind the rule there. -/
theorem get?_lookaheadSets (h : g.Built a) (hs : (g.automaton a).state? q = some s)
    (hitem : s.items[place]? = some item) (hnext : item.next? g = none) :
    ((g.automaton a).lookaheadSets g a).get? q item.rule =
      some ((g.automaton a).afterRule g ((g.automaton a).followSets g a) q item place) := by
  have hq : (g.automaton a).numbered[q.val]? = some (q, s) :=
    Automaton.getElem?_numbered.mpr ⟨rfl, hs⟩
  rw [LookaheadSets.get?, Automaton.lookaheadSets]
  simp only
  rw [List.getElem?_toArray, List.getElem?_map, hq, Option.map_some, Option.bind_some]
  refine OrderedMap.find?_ofList (List.mem_map.mpr ⟨(place, item), ?_, rfl⟩) ?_
  · exact (h.mem_completeItems hs).mpr ⟨hitem, hnext⟩
  · intro set hset
    obtain ⟨⟨place', item'⟩, hmem, heq⟩ := List.mem_map.mp hset
    obtain ⟨hitem', hnext'⟩ := (h.mem_completeItems hs).mp hmem
    obtain ⟨hrule, rfl⟩ := Prod.mk.inj heq
    have hdot := h.dot_of_complete ⟨s, hs, List.mem_of_getElem? hitem⟩ hnext
    have hdot' := h.dot_of_complete ⟨s, hs, List.mem_of_getElem? hitem'⟩ hnext'
    obtain ⟨r, dot⟩ := item
    obtain ⟨r', dot'⟩ := item'
    obtain rfl : r' = r := hrule
    obtain rfl : dot' = dot := hdot'.trans hdot.symm
    obtain rfl : place' = place :=
      (List.getElem?_inj (List.getElem?_eq_some_iff.mp hitem').1 (h.nodup_items hs)).mp
        (hitem'.trans hitem.symm)
    rfl

/-- There is a lookahead set for each rule of which a state has the complete item, and it holds what
reaches this item by propagation. -/
theorem exists_lookaheadSet (h : g.Built a) {r : RuleId}
    (hitem : (g.automaton a).Has q ⟨r, (g.body r).length⟩) :
    ∃ set, ((g.automaton a).lookaheadSets g a).get? q r = some set ∧
      ∀ t, t ∈ set ↔ (g.automaton a).Look g q ⟨r, (g.body r).length⟩ t := by
  obtain ⟨s, hs, hmem⟩ := id hitem
  obtain ⟨place, hplace⟩ := List.mem_iff_getElem?.mp hmem
  have hnext : (Item.mk r (g.body r).length).next? g = none :=
    List.getElem?_eq_none (Nat.le_refl _)
  have hset := h.get?_lookaheadSets hs hplace hnext
  refine ⟨_, hset, fun t => ?_⟩
  rw [h.mem_afterRule hs hplace]
  constructor
  · exact h.look_of_after h.followSets_spec.1 hitem
  · exact fun hlook => h.after_of_justified (h.justified_of_look hlook).2

end Grammar.Built

/-- Every reduction has a lookahead set, and it holds exactly the terminals that reach the complete
item by propagation. -/
theorem lookahead_exact {g : Grammar} {a : Analysis} {q : StateId} {r : RuleId}
    (hg : g.IsDefined) (ha : g.analyse = .ok a) (hstates : (g.kernels a).items.size < stateNumbers)
    (hitem : (g.automaton a).Has q ⟨r, (g.body r).length⟩) :
    ∃ set, ((g.automaton a).lookaheadSets g a).get? q r = some set ∧
      ∀ t, t ∈ set ↔ (g.automaton a).Look g q ⟨r, (g.body r).length⟩ t := by
  have h : g.Built a := ⟨hg.wellFormed, ha, hstates⟩
  exact h.exists_lookaheadSet hitem

/-- The grammar `S := A b; A := %empty` (as rules 1 and 2). -/
def optionalPrefix : Grammar where
  terminals := [.endOfInput, ⟨"b", none, .plain⟩]
  nonterminals := [augmentedStartName, "S", "A"]
  rules := [⟨augmentedStart, [.nonterminal ⟨1⟩], none⟩,
    ⟨⟨1⟩, [.nonterminal ⟨2⟩, .terminal ⟨1⟩], none⟩, ⟨⟨2⟩, [], none⟩]
  start := ⟨1⟩
  operators := ∅
  operatorTerminals := ∅

/-- The grammar is defined by declarations. -/
theorem optionalPrefix_isDefined : optionalPrefix.IsDefined :=
  ⟨[.terminal "b" none, .nonterminal "S", .nonterminal "A",
    .rule ⟨1⟩ [.nonterminal ⟨2⟩, .terminal ⟨1⟩] none, .rule ⟨2⟩ [] none], .inl (by decide)⟩

/-- The analysis of the grammar. -/
def optionalPrefixAnalysis : Analysis := optionalPrefix.analyse.toOption.getD ⟨∅, [], []⟩

/-- In the initial state the empty rule is reduced before what propagation puts behind it. -/
theorem lookahead_exact_optionalPrefix :
    ∃ set, ((optionalPrefix.automaton optionalPrefixAnalysis).lookaheadSets optionalPrefix
        optionalPrefixAnalysis).get? initialState ⟨2⟩ = some set ∧
      ∀ t, t ∈ set ↔ (optionalPrefix.automaton optionalPrefixAnalysis).Look optionalPrefix
        initialState ⟨⟨2⟩, (optionalPrefix.body ⟨2⟩).length⟩ t := by
  have hitem : (((optionalPrefix.automaton optionalPrefixAnalysis).state? initialState).any fun s =>
      decide (Item.mk ⟨2⟩ (optionalPrefix.body ⟨2⟩).length ∈ s.items)) = true := by
    decide +kernel
  obtain ⟨s, hs, hmem⟩ := (Option.any_eq_true _ _).mp hitem
  exact lookahead_exact optionalPrefix_isDefined (by decide +kernel) (by decide +kernel)
    ⟨s, hs, of_decide_eq_true hmem⟩

end OperatorLALR
