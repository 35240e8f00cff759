import OperatorLALR.Automaton.Predecessors
import OperatorLALR.Proofs.Analysis.Chains
import OperatorLALR.Proofs.Automaton.Kernels

/-!
# The states of the automaton

While no number of a state is taken twice, the states are those of the kernels found, each with its
closure. An item with its dot before a nonterminal has the rules of that nonterminal beside it
(`Built.has_closure`), an item with its dot before a symbol moves on across that symbol
(`Built.exists_goes`, `Built.has_advance`), and there are no items but those that these rules and
the rule of the augmented start symbol call for (`Built.has_cases`).
-/

namespace OperatorLALR

namespace Automaton

/-- An item is in a state. -/
def Has (m : Automaton) (q : StateId) (item : Item) : Prop :=
  ∃ s, m.state? q = some s ∧ item ∈ s.items

/-- A transition leads from a state to another across a symbol. -/
def Goes (m : Automaton) (p : StateId) (symbol : Symbol) (q : StateId) : Prop :=
  ∃ s, m.state? p = some s ∧ ∃ t ∈ s.transitions, t.marker = some symbol ∧ t.next = some q

/-- The states stand at the places of their numbers. -/
theorem getElem?_numbered {m : Automaton} {q : StateId} {s : State} {i : Nat} :
    m.numbered[i]? = some (q, s) ↔ i = q.val ∧ m.state? q = some s := by
  simp only [numbered, List.getElem?_zip_eq_some, Array.getElem?_toList]
  constructor
  · rintro ⟨hq, hs⟩
    rw [stateIds, Index.getElem?_below (Array.getElem?_eq_some_iff.mp hs).1] at hq
    rw [← Option.some.inj hq]
    exact ⟨rfl, hs⟩
  · rintro ⟨rfl, hs⟩
    exact ⟨Index.getElem?_below (Array.getElem?_eq_some_iff.mp hs).1, hs⟩

/-- The states with their numbers. -/
theorem mem_numbered {m : Automaton} {q : StateId} {s : State} :
    (q, s) ∈ m.numbered ↔ m.state? q = some s := by
  rw [List.mem_iff_getElem?]
  constructor
  · rintro ⟨i, hi⟩
    exact (getElem?_numbered.mp hi).2
  · exact fun hs => ⟨q.val, getElem?_numbered.mpr ⟨rfl, hs⟩⟩

end Automaton

/-- The number of the initial state. -/
def initialState : StateId := ⟨0⟩

namespace Grammar

variable {g : Grammar} {a : Analysis} {item : Item} {items : List Item} {kernel : Kernel}

/-- The symbol behind the dot is one of a rule. -/
theorem exists_rule_of_next? {symbol : Symbol} (h : item.next? g = some symbol) :
    ∃ rule, g.rule? item.rule = some rule ∧ g.body item.rule = rule.body ∧ symbol ∈ rule.body := by
  cases hrule : g.rule? item.rule with
  | none =>
    rw [Item.next?, body, hrule] at h
    cases h
  | some rule =>
    rw [Item.next?, body_eq hrule] at h
    exact ⟨rule, rfl, body_eq hrule, List.mem_of_getElem? h⟩

/-- What stands behind a dot has been declared. -/
theorem WellFormed.declares_next (hg : g.WellFormed) {symbol : Symbol}
    (h : item.next? g = some symbol) : g.Declares symbol := by
  obtain ⟨rule, hrule, -, hmem⟩ := exists_rule_of_next? h
  exact hg.body _ rule hrule symbol hmem

/-- The symbols in the body of a rule have been declared. -/
theorem WellFormed.declares_body (hg : g.WellFormed) (r : RuleId) :
    ∀ symbol ∈ g.body r, g.Declares symbol := by
  intro symbol hsymbol
  cases hrule : g.rule? r with
  | none =>
    rw [Grammar.body, hrule] at hsymbol
    cases hsymbol
  | some rule =>
    rw [body_eq hrule] at hsymbol
    exact hg.body r rule hrule symbol hsymbol

/-- What stands behind the symbol that follows a dot has been declared. -/
theorem WellFormed.declares_rest (hg : g.WellFormed) (item : Item) :
    ∀ symbol ∈ item.rest g, g.Declares symbol :=
  fun symbol hsymbol => hg.declares_body item.rule symbol (List.mem_of_mem_drop hsymbol)

/-- The rule of the augmented start symbol begins with the start symbol. -/
theorem WellFormed.next?_start (hg : g.WellFormed) :
    (Item.mk acceptRule 0).next? g = some (.nonterminal g.start) := by
  rw [Item.next?, body_eq hg.accept]
  rfl

/-- Nothing stands behind the start symbol in the rule of the augmented start symbol. -/
theorem WellFormed.rest_start (hg : g.WellFormed) : (Item.mk acceptRule 0).rest g = [] := by
  rw [Item.rest, body_eq hg.accept]
  rfl

/-- The body of a rule with the dot in front is its next symbol and the rest. -/
theorem body_eq_cons {r : RuleId} {symbol : Symbol} (h : (Item.mk r 0).next? g = some symbol) :
    g.body r = symbol :: (Item.mk r 0).rest g := by
  rw [Item.next?, ← List.head?_eq_getElem?] at h
  obtain ⟨rest, hrest⟩ := List.head?_eq_some_iff.mp h
  rw [Item.rest, hrest]
  rfl

/-- What the closure adds for an item: the rules, with the dot in front, of the nonterminals to
which chains lead from the one behind the dot. -/
theorem mem_closureItems (hg : g.WellFormed) (ha : g.analyse = .ok a) {new : Item} :
    new ∈ g.closureItems a item ↔ ∃ n rule tail, item.next? g = some (.nonterminal n) ∧
      g.rule? new.rule = some rule ∧ Chain g n rule.left tail ∧ new.dot = 0 := by
  rw [closureItems]
  split
  · next n hnext =>
    have hlt : n.val < g.nonterminals.length := (hg.declares_next hnext).2
    rw [List.mem_flatMap]
    constructor
    · rintro ⟨target, htarget, hnew⟩
      obtain ⟨tail, htail⟩ := (Analysis.mem_leadingSymbols hg ha hlt).mp htarget
      obtain ⟨r, hr, rfl⟩ := List.mem_map.mp hnew
      obtain ⟨rule, hrule, rfl⟩ := mem_rulesOf.mp hr
      exact ⟨n, rule, tail, hnext, hrule, htail, rfl⟩
    · rintro ⟨n', rule, tail, hnext', hrule, htail, hdot⟩
      rw [hnext] at hnext'
      obtain rfl : n = n' := Symbol.nonterminal.inj (Option.some.inj hnext')
      refine ⟨rule.left, (Analysis.mem_leadingSymbols hg ha hlt).mpr ⟨tail, htail⟩, ?_⟩
      exact List.mem_map.mpr ⟨new.rule, mem_rulesOf.mpr ⟨rule, hrule, rfl⟩, by rw [← hdot]⟩
  · next hnot =>
    constructor
    · intro hnew
      cases hnew
    · rintro ⟨n, _, _, hnext, -⟩
      exact absurd hnext (hnot n)

/-- The items of a state are those of its kernel, and the rules that chains from one of these lead
to, with the dot in front. -/
theorem mem_itemsOf (hg : g.WellFormed) (ha : g.analyse = .ok a) :
    item ∈ g.itemsOf a kernel ↔ item ∈ kernel ∨ ∃ k ∈ kernel, ∃ n rule tail,
      k.next? g = some (.nonterminal n) ∧ g.rule? item.rule = some rule ∧
        Chain g n rule.left tail ∧ item.dot = 0 := by
  rw [itemsOf, List.mem_append, mem_fresh, List.mem_flatMap]
  simp only [mem_closureItems hg ha]
  by_cases hitem : item ∈ kernel <;> simp [hitem]

/-- A grammar has its analysis, and all its states have their own numbers. -/
structure Built (g : Grammar) (a : Analysis) : Prop where
  wellFormed : g.WellFormed
  analysed : g.analyse = .ok a
  numbered : (g.kernels a).items.size < stateNumbers

namespace Built

/-- A state with a kernel. -/
theorem kernel_stateOf (g : Grammar) (a : Analysis) (kernels : Numbering Kernel) (kernel : Kernel) :
    (g.stateOf a kernels kernel).kernel = kernel := by
  rw [State.kernel, stateOf, itemsOf]
  exact List.take_left

/-- All states are numbered in the order of the discovery of their kernels. -/
theorem states_eq (h : g.Built a) :
    g.states a = ((g.kernels a).toList.map (g.stateOf a (g.kernels a))).toArray := by
  have hlength : ((g.kernels a).toList.map (g.stateOf a (g.kernels a))).length ≤ stateNumbers := by
    rw [List.length_map, Numbering.toList, Array.length_toList]
    exact Nat.le_of_lt h.numbered
  rw [states]
  simp only [numberStates]
  rw [List.drop_eq_nil_of_le hlength, List.take_of_length_le hlength]
  rfl

/-- The state with a number is that of the kernel with the number. -/
theorem state?_eq_some_iff (h : g.Built a) {q : StateId} {s : State} :
    (g.automaton a).state? q = some s ↔ ∃ kernel, (g.kernels a).items[q.val]? = some kernel ∧
      g.stateOf a (g.kernels a) kernel = s := by
  rw [Automaton.state?, automaton]
  simp only [h.states_eq]
  rw [List.getElem?_toArray, List.getElem?_map, Numbering.toList, Array.getElem?_toList,
    Option.map_eq_some_iff]

/-- A state has the items that its kernel calls for. -/
theorem exists_kernel (h : g.Built a) {q : StateId} {s : State}
    (hs : (g.automaton a).state? q = some s) :
    (g.kernels a).items[q.val]? = some s.kernel ∧ s.items = g.itemsOf a s.kernel := by
  obtain ⟨kernel, hkernel, rfl⟩ := h.state?_eq_some_iff.mp hs
  rw [kernel_stateOf]
  exact ⟨hkernel, rfl⟩

/-- Every kernel found has its state. -/
theorem exists_state (h : g.Built a) {q : StateId}
    (hq : (g.kernels a).items[q.val]? = some kernel) :
    ∃ s, (g.automaton a).state? q = some s ∧ s.kernel = kernel ∧ s.items = g.itemsOf a kernel :=
  ⟨_, h.state?_eq_some_iff.mpr ⟨kernel, hq, rfl⟩, kernel_stateOf g a _ kernel, rfl⟩

/-- The number of a kernel that was found is the number of its state. -/
theorem ofPlace_number (h : g.Built a) {q : StateId}
    (hkernel : (g.kernels a).items[q.val]? = some kernel) :
    StateId.ofPlace (((g.kernels a).number? kernel).getD (g.kernels a).items.size) = q := by
  have hlt : q.val < (g.kernels a).items.size := (Array.getElem?_eq_some_iff.mp hkernel).1
  rw [Numbering.number?_eq_some_iff.mpr hkernel, Option.getD_some, StateId.ofPlace,
    Nat.mod_eq_of_lt (Nat.lt_trans hlt h.numbered)]

variable {p q : StateId} {s : State} {symbol : Symbol}

/-- No item is twice in a state. -/
theorem nodup_items (h : g.Built a) (hs : (g.automaton a).state? q = some s) : s.items.Nodup := by
  obtain ⟨hkernel, hitems⟩ := h.exists_kernel hs
  rw [hitems]
  exact nodup_append_fresh (isKernel_of_mem h.wellFormed (Array.mem_of_getElem? hkernel)).nodup

/-- The places of the items with a symbol, or with nothing, behind the dot. -/
theorem mem_placesOf {marker : Option Symbol} {place : Nat} :
    place ∈ g.placesOf items marker ↔
      ∃ item, items[place]? = some item ∧ item.next? g = marker := by
  rw [placesOf, List.mem_filterMap]
  constructor
  · rintro ⟨⟨item, i⟩, hmem, hplace⟩
    by_cases hnext : item.next? g = marker
    · obtain rfl : i = place := Option.some.inj ((if_pos hnext).symm.trans hplace)
      exact ⟨item, List.mem_zipIdx_iff_getElem?.mp hmem, hnext⟩
    · exact absurd ((if_neg hnext).symm.trans hplace) (by simp)
  · rintro ⟨item, hitem, hnext⟩
    exact ⟨(item, place), List.mem_zipIdx_iff_getElem?.mpr hitem, if_pos hnext⟩

/-- The transitions of a state: one for what stands behind the dots of its items. -/
theorem mem_transitions (h : g.Built a) (hs : (g.automaton a).state? q = some s)
    {t : Transition} : t ∈ s.transitions ↔ ∃ marker, (∃ item ∈ s.items, item.next? g = marker) ∧
      g.transition (g.kernels a) s.items marker = t := by
  obtain ⟨kernel, -, rfl⟩ := h.state?_eq_some_iff.mp hs
  simp only [stateOf, List.mem_map, markersOf, mem_fresh, List.not_mem_nil, not_false_eq_true,
    and_true]

/-- A transition across a symbol leads to the state whose kernel are the items moved on. -/
theorem goes_iff (h : g.Built a) :
    (g.automaton a).Goes p symbol q ↔ ∃ s, (g.automaton a).state? p = some s ∧
      (∃ item ∈ s.items, item.next? g = some symbol) ∧
      (g.kernels a).items[q.val]? = some (g.kernelAfter s.items symbol) := by
  constructor
  · rintro ⟨s, hs, t, ht, hmarker, hnext⟩
    obtain ⟨marker, hitem, rfl⟩ := (h.mem_transitions hs).mp ht
    obtain rfl : marker = some symbol := hmarker
    obtain ⟨hkernel, hitems⟩ := h.exists_kernel hs
    have hmem : g.kernelAfter s.items symbol ∈ g.kernelsAfter a s.kernel :=
      mem_kernelsAfter.mpr ⟨symbol, hitems ▸ hitem, by rw [← hitems]⟩
    have hfound := kernels_closed h.wellFormed (Array.mem_of_getElem? hkernel) hmem
    obtain ⟨n, hn⟩ := Array.mem_iff_getElem?.mp hfound
    have hq : StateId.ofPlace (((g.kernels a).number? (g.kernelAfter s.items symbol)).getD
        (g.kernels a).items.size) = q := Option.some.inj hnext
    have hn' := h.ofPlace_number (q := ⟨n⟩) hn
    rw [hq] at hn'
    rw [hn']
    exact ⟨s, hs, hitem, hn⟩
  · rintro ⟨s, hs, hitem, hkernel⟩
    refine ⟨s, hs, _, (h.mem_transitions hs).mpr ⟨some symbol, hitem, rfl⟩, rfl, ?_⟩
    exact congrArg some (h.ofPlace_number hkernel)

/-- The kernel of a state behind a symbol consists of the items moved on across it. -/
theorem kernel_of_goes (h : g.Built a) (hgoes : (g.automaton a).Goes p symbol q)
    (hs : (g.automaton a).state? q = some s) :
    item ∈ s.kernel ↔ ∃ old, (g.automaton a).Has p old ∧ old.next? g = some symbol ∧
      old.advance = item := by
  obtain ⟨s', hs', -, hkernel⟩ := h.goes_iff.mp hgoes
  have hsame := (h.exists_kernel hs).1
  rw [hkernel] at hsame
  rw [← Option.some.inj hsame, mem_kernelAfter]
  constructor
  · rintro ⟨old, hold, hnext, hitem⟩
    exact ⟨old, ⟨s', hs', hold⟩, hnext, hitem⟩
  · rintro ⟨old, ⟨s'', hs'', hold⟩, hnext, hitem⟩
    rw [hs'] at hs''
    obtain rfl := Option.some.inj hs''
    exact ⟨old, hold, hnext, hitem⟩

/-- The items of the kernel are items of the state. -/
theorem mem_items_of_mem_kernel {s : State} (hitem : item ∈ s.kernel) : item ∈ s.items :=
  List.mem_of_mem_take hitem

/-- The initial state has the rule of the augmented start symbol with the dot in front. -/
theorem has_start (h : g.Built a) : (g.automaton a).Has initialState ⟨acceptRule, 0⟩ := by
  obtain ⟨s, hs, hkernel, -⟩ := h.exists_state (q := initialState) (kernels_zero g a)
  refine ⟨s, hs, mem_items_of_mem_kernel ?_⟩
  rw [hkernel]
  exact List.mem_singleton.mpr rfl

/-- An item before a symbol is moved on to the state behind that symbol. -/
theorem has_advance (h : g.Built a) (hitem : (g.automaton a).Has p item)
    (hnext : item.next? g = some symbol) (hgoes : (g.automaton a).Goes p symbol q) :
    ∃ s, (g.automaton a).state? q = some s ∧ item.advance ∈ s.kernel := by
  obtain ⟨_, -, -, hkernel⟩ := h.goes_iff.mp hgoes
  obtain ⟨s, hs, -, -⟩ := h.exists_state hkernel
  exact ⟨s, hs, (h.kernel_of_goes hgoes hs).mpr ⟨item, hitem, hnext, rfl⟩⟩

/-- A transition leads across every symbol behind a dot. -/
theorem exists_goes (h : g.Built a) (hitem : (g.automaton a).Has p item)
    (hnext : item.next? g = some symbol) : ∃ q, (g.automaton a).Goes p symbol q := by
  obtain ⟨s, hs, hmem⟩ := hitem
  obtain ⟨hkernel, hitems⟩ := h.exists_kernel hs
  have hafter : g.kernelAfter s.items symbol ∈ g.kernelsAfter a s.kernel :=
    mem_kernelsAfter.mpr ⟨symbol, ⟨item, hitems ▸ hmem, hnext⟩, by rw [← hitems]⟩
  have hfound := kernels_closed h.wellFormed (Array.mem_of_getElem? hkernel) hafter
  obtain ⟨n, hn⟩ := Array.mem_iff_getElem?.mp hfound
  exact ⟨⟨n⟩, h.goes_iff.mpr ⟨s, hs, ⟨item, hmem, hnext⟩, hn⟩⟩

/-- From a state one transition at most leads across a symbol. -/
theorem goes_unique (h : g.Built a) {q' : StateId} (hgoes : (g.automaton a).Goes p symbol q)
    (hgoes' : (g.automaton a).Goes p symbol q') : q = q' := by
  obtain ⟨s, hs, -, hkernel⟩ := h.goes_iff.mp hgoes
  obtain ⟨s', hs', -, hkernel'⟩ := h.goes_iff.mp hgoes'
  rw [hs] at hs'
  obtain rfl := Option.some.inj hs'
  exact Index.ext (Numbering.eq_of_getElem? hkernel hkernel')

/-- An item of a state is one of its kernel, or a chain from an item of its kernel leads to its
rule. -/
theorem items_cases (h : g.Built a) (hs : (g.automaton a).state? q = some s)
    (hitem : item ∈ s.items) : item ∈ s.kernel ∨ ∃ k ∈ s.kernel, ∃ n rule tail,
      k.next? g = some (.nonterminal n) ∧ g.rule? item.rule = some rule ∧
        Chain g n rule.left tail ∧ item.dot = 0 := by
  rw [(h.exists_kernel hs).2] at hitem
  exact (mem_itemsOf h.wellFormed h.analysed).mp hitem

/-- An item before a nonterminal has the rules of that nonterminal, with the dot in front, beside
it. -/
theorem has_closure (h : g.Built a) {n : NonterminalId} {r : RuleId}
    (hitem : (g.automaton a).Has q item) (hnext : item.next? g = some (.nonterminal n))
    (hr : r ∈ g.rulesOf n) : (g.automaton a).Has q ⟨r, 0⟩ := by
  obtain ⟨s, hs, hmem⟩ := hitem
  obtain ⟨rule, hrule, rfl⟩ := mem_rulesOf.mp hr
  refine ⟨s, hs, ?_⟩
  rw [(h.exists_kernel hs).2, mem_itemsOf h.wellFormed h.analysed]
  rcases h.items_cases hs hmem with hkernel | ⟨k, hk, n, rule', tail, hnext', hrule', hchain, hdot⟩
  · exact .inr ⟨item, hkernel, rule.left, rule, [], hnext, hrule, .nil _, rfl⟩
  · obtain ⟨r', dot⟩ := item
    obtain rfl : dot = 0 := hdot
    have hbody : rule'.body = .nonterminal rule.left :: (Item.mk r' 0).rest g :=
      (body_eq hrule').symm.trans (body_eq_cons hnext)
    exact .inr ⟨k, hk, n, rule, _, hnext', hrule, hchain.snoc hrule' rfl hbody, rfl⟩

/-- An item of a kernel is that of the initial state, or one moved on from a state before. -/
theorem kernel_cases (h : g.Built a) (hs : (g.automaton a).state? q = some s)
    (hitem : item ∈ s.kernel) : q = initialState ∧ item = ⟨acceptRule, 0⟩ ∨
      ∃ p old symbol, (g.automaton a).Has p old ∧ old.next? g = some symbol ∧
        (g.automaton a).Goes p symbol q ∧ old.advance = item := by
  have hkernel := (h.exists_kernel hs).1
  rcases Grammar.kernel_cases h.wellFormed (Array.mem_of_getElem? hkernel) with
    hinitial | ⟨before, hbefore, hnext⟩
  · rw [hinitial] at hkernel hitem
    refine .inl ⟨Index.ext (Numbering.eq_of_getElem? hkernel (kernels_zero g a)), ?_⟩
    exact List.mem_singleton.mp hitem
  · obtain ⟨n, hn⟩ := Array.mem_iff_getElem?.mp hbefore
    obtain ⟨s', hs', -, hitems'⟩ := h.exists_state (q := ⟨n⟩) hn
    obtain ⟨symbol, hsymbol, hafter⟩ := mem_kernelsAfter.mp hnext
    rw [← hitems'] at hsymbol hafter
    have hgoes : (g.automaton a).Goes ⟨n⟩ symbol q :=
      h.goes_iff.mpr ⟨s', hs', hsymbol, by rw [hafter, hkernel]⟩
    obtain ⟨old, hold, hnext', heq⟩ := (h.kernel_of_goes hgoes hs).mp hitem
    exact .inr ⟨⟨n⟩, old, symbol, hold, hnext', hgoes, heq⟩

/-- The rules of a closure are not that of the augmented start symbol. -/
theorem chain_rule_ne_accept (h : g.Built a) {n : NonterminalId} {r : RuleId} {rule : Rule}
    {tail : List Symbol} (hnext : item.next? g = some (.nonterminal n))
    (hrule : g.rule? r = some rule) (hchain : Chain g n rule.left tail) : r ≠ acceptRule := by
  rintro rfl
  rw [h.wellFormed.accept] at hrule
  obtain rfl := Option.some.inj hrule
  have hn : n ≠ augmentedStart := (h.wellFormed.declares_next hnext).1
  exact hchain.target_ne_start h.wellFormed hn rfl

/-- Only kernels have items with the dot further on. -/
theorem mem_kernel_of_dot (h : g.Built a) (hs : (g.automaton a).state? q = some s)
    (hitem : item ∈ s.items) (hdot : item.dot ≠ 0) : item ∈ s.kernel := by
  rcases h.items_cases hs hitem with hkernel | ⟨_, _, _, _, _, _, _, _, hzero⟩
  · exact hkernel
  · exact absurd hzero hdot

/-- The rule of the augmented start symbol has its dot in front in the initial state only. -/
theorem eq_initialState_of_has (h : g.Built a) (hitem : (g.automaton a).Has q ⟨acceptRule, 0⟩) :
    q = initialState := by
  obtain ⟨s, hs, hmem⟩ := hitem
  rcases h.items_cases hs hmem with hkernel | ⟨_, _, _, _, _, hnext, hrule, hchain, -⟩
  · rcases h.kernel_cases hs hkernel with ⟨hq, -⟩ | ⟨_, _, _, _, _, _, hadvance⟩
    · exact hq
    · cases congrArg Item.dot hadvance
  · exact absurd rfl (h.chain_rule_ne_accept hnext hrule hchain)

/-- No transition leads to the initial state. -/
theorem not_goes_initialState (h : g.Built a) : ¬ (g.automaton a).Goes p symbol initialState := by
  intro hgoes
  obtain ⟨s, hs, hkernel, -⟩ := h.exists_state (q := initialState) (kernels_zero g a)
  have hmem : Item.mk acceptRule 0 ∈ s.kernel := by
    rw [hkernel]
    exact List.mem_singleton.mpr rfl
  obtain ⟨old, -, -, hadvance⟩ := (h.kernel_of_goes hgoes hs).mp hmem
  cases congrArg Item.dot hadvance

/-- No transition leads across the end of the input. -/
theorem not_goes_endOfInput (h : g.Built a) :
    ¬ (g.automaton a).Goes p (.terminal endOfInput) q := by
  intro hgoes
  obtain ⟨s, -, ⟨item, -, hnext⟩, -⟩ := h.goes_iff.mp hgoes
  have hdeclared : g.Declares (.terminal endOfInput) := h.wellFormed.declares_next hnext
  exact hdeclared.1 rfl

/-- Behind a transition, items with the dot further on come from before it. -/
theorem has_before (h : g.Built a) {r : RuleId} {dot : Nat}
    (hgoes : (g.automaton a).Goes p symbol q) (hitem : (g.automaton a).Has q ⟨r, dot + 1⟩) :
    (g.automaton a).Has p ⟨r, dot⟩ ∧ (Item.mk r dot).next? g = some symbol := by
  obtain ⟨s, hs, hmem⟩ := hitem
  have hkernel := h.mem_kernel_of_dot hs hmem (Nat.succ_ne_zero dot)
  obtain ⟨⟨r', dot'⟩, hold, hnext, hadvance⟩ := (h.kernel_of_goes hgoes hs).mp hkernel
  obtain ⟨rfl, hdot⟩ := Item.mk.inj hadvance
  obtain rfl : dot' = dot := Nat.succ.inj hdot
  exact ⟨hold, hnext⟩

/-- A transition leads to every state that has an item with the dot further on. -/
theorem exists_goes_before (h : g.Built a) {r : RuleId} {dot : Nat}
    (hitem : (g.automaton a).Has q ⟨r, dot + 1⟩) :
    ∃ p symbol, (g.automaton a).Goes p symbol q := by
  obtain ⟨s, hs, hmem⟩ := hitem
  have hkernel := h.mem_kernel_of_dot hs hmem (Nat.succ_ne_zero dot)
  rcases h.kernel_cases hs hkernel with ⟨-, hinitial⟩ | ⟨p, _, symbol, _, _, hgoes, _⟩
  · cases congrArg Item.dot hinitial
  · exact ⟨p, symbol, hgoes⟩

/-- Items are among those of the grammar. -/
theorem mem_allItems_of_has (h : g.Built a) (hitem : (g.automaton a).Has q item) :
    item ∈ g.allItems := by
  obtain ⟨s, hs, hmem⟩ := hitem
  rcases h.items_cases hs hmem with hkernel | ⟨_, _, _, rule, _, _, hrule, _, hdot⟩
  · have hfound := Array.mem_of_getElem? (h.exists_kernel hs).1
    exact (isKernel_of_mem h.wellFormed hfound).items item hkernel
  · rw [mem_allItems, hdot]
    exact ⟨(List.getElem?_eq_some_iff.mp hrule).1, Nat.zero_le _⟩

/-- The rule of an item is one of the grammar. -/
theorem exists_rule (h : g.Built a) (hitem : (g.automaton a).Has q item) :
    ∃ rule, g.rule? item.rule = some rule ∧ g.body item.rule = rule.body := by
  obtain ⟨hlt, -⟩ := mem_allItems.mp (h.mem_allItems_of_has hitem)
  have hrule : g.rule? item.rule = some g.rules[item.rule.val] := List.getElem?_eq_getElem hlt
  exact ⟨_, hrule, body_eq hrule⟩

/-- An item with nothing behind its dot has its whole body before it. -/
theorem dot_of_complete (h : g.Built a) (hitem : (g.automaton a).Has q item)
    (hnext : item.next? g = none) : item.dot = (g.body item.rule).length :=
  Nat.le_antisymm (mem_allItems.mp (h.mem_allItems_of_has hitem)).2
    (List.getElem?_eq_none_iff.mp hnext)

/-- The complete items of a state and their places. -/
theorem mem_completeItems (h : g.Built a) {place : Nat}
    (hs : (g.automaton a).state? q = some s) :
    (place, item) ∈ s.completeItems ↔ s.items[place]? = some item ∧ item.next? g = none := by
  have hplaces : place ∈ s.completePlaces ↔
      ∃ item, s.items[place]? = some item ∧ item.next? g = none := by
    rw [State.completePlaces, List.mem_flatMap]
    constructor
    · rintro ⟨t, ht, hplace⟩
      obtain ⟨ht, hmarker⟩ := List.mem_filter.mp ht
      obtain ⟨marker, -, rfl⟩ := (h.mem_transitions hs).mp ht
      obtain rfl : marker = none := Option.isNone_iff_eq_none.mp hmarker
      exact mem_placesOf.mp hplace
    · rintro ⟨item, hitem, hnext⟩
      have ht := (h.mem_transitions hs).mpr ⟨none, ⟨item, List.mem_of_getElem? hitem, hnext⟩, rfl⟩
      exact ⟨_, List.mem_filter.mpr ⟨ht, rfl⟩, mem_placesOf.mpr ⟨item, hitem, hnext⟩⟩
  rw [State.completeItems, List.mem_filterMap]
  constructor
  · rintro ⟨i, hi, hitem⟩
    obtain ⟨item', hitem', heq⟩ := Option.map_eq_some_iff.mp hitem
    obtain ⟨rfl, rfl⟩ := Prod.mk.inj heq
    obtain ⟨item'', hitem'', hnext⟩ := hplaces.mp hi
    rw [hitem'] at hitem''
    exact ⟨hitem', Option.some.inj hitem'' ▸ hnext⟩
  · rintro ⟨hitem, hnext⟩
    exact ⟨place, hplaces.mpr ⟨item, hitem, hnext⟩, by rw [hitem, Option.map_some]⟩

end Built

end Grammar

end OperatorLALR
