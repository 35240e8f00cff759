import OperatorLALR.Proofs.Automaton.Lookaheads

/-!
# The automaton as the canonical collection

An item is valid for a string of symbols if moving dots across these symbols, and entering rules of
the nonterminals behind dots, comes to it (`Grammar.ValidItem`). The transitions of the automaton
lead from the initial state across exactly the strings that have valid items, and the items of the
state reached are those, whatever the rule chains by which its closure is computed
(`automaton_canonical`).
-/

namespace OperatorLALR

namespace Grammar

/-- An item is valid for a string of symbols: the least sets of items with the rule of the augmented
start symbol that are closed under entering rules and under moving dots. -/
inductive ValidItem (g : Grammar) : List Symbol → Item → Prop
  | start : ValidItem g [] ⟨acceptRule, 0⟩
  | close {γ : List Symbol} {item : Item} {n : NonterminalId} {r : RuleId}
      (h : ValidItem g γ item) (hnext : item.next? g = some (.nonterminal n))
      (hr : r ∈ g.rulesOf n) : ValidItem g γ ⟨r, 0⟩
  | shift {γ : List Symbol} {item : Item} {symbol : Symbol} (h : ValidItem g γ item)
      (hnext : item.next? g = some symbol) : ValidItem g (γ ++ [symbol]) item.advance

variable {g : Grammar} {γ : List Symbol} {item : Item}

/-- Rules to which a chain leads from the nonterminal behind the dot of a valid item are valid with
the dot in front. -/
theorem ValidItem.chain {n target : NonterminalId} {tail : List Symbol} {r : RuleId} {rule : Rule}
    (h : g.ValidItem γ item) (hnext : item.next? g = some (.nonterminal n))
    (hchain : Chain g n target tail) (hrule : g.rule? r = some rule) (hleft : rule.left = target) :
    g.ValidItem γ ⟨r, 0⟩ := by
  induction hchain generalizing item with
  | nil => exact h.close hnext (mem_rulesOf.mpr ⟨rule, hrule, hleft⟩)
  | @cons r' rule' n target tail rest hrule' hbody _ ih =>
    refine ih (h.close hnext (mem_rulesOf.mpr ⟨rule', hrule', rfl⟩)) ?_ hleft
    rw [Item.next?, body_eq hrule', hbody]
    rfl

end Grammar

/-- Kernels of the same items are the same. -/
theorem Grammar.IsKernel.eq_of_mem_iff {g : Grammar} {kernel kernel' : Kernel}
    (h : g.IsKernel kernel) (h' : g.IsKernel kernel')
    (hmem : ∀ item, item ∈ kernel ↔ item ∈ kernel') : kernel = kernel' :=
  ((List.perm_ext_iff_of_nodup h.nodup h'.nodup).mpr hmem).eq_of_pairwise' h.ascending h'.ascending

namespace Automaton

/-- The state that the transitions of a state lead to across a symbol. -/
def across? (m : Automaton) (q : StateId) (symbol : Symbol) : Option StateId :=
  (m.state? q).bind fun s =>
    s.transitions.findSome? fun t => if t.marker = some symbol then t.next else none

/-- The state that the transitions lead to from the initial state across a string of symbols. -/
def walk? (m : Automaton) (γ : List Symbol) : Option StateId := γ.foldlM m.across? initialState

/-- A walk across a longer string goes on from where the walk across a shorter one leads. -/
theorem walk?_append_singleton (m : Automaton) (γ : List Symbol) (symbol : Symbol) :
    m.walk? (γ ++ [symbol]) = (m.walk? γ).bind fun q => m.across? q symbol := by
  simp [walk?, List.foldlM_append]

/-- A transition moves its items on: the kernel of the state that it leads to are these, with their
dots one symbol further, in ascending order. -/
def MovesOn (m : Automaton) (s : State) (t : Transition) : Prop :=
  ∃ q next, t.next = some q ∧ m.state? q = some next ∧ next.kernel.Pairwise Item.Before ∧
    ∀ item, item ∈ next.kernel ↔
      ∃ place ∈ t.items, ∃ old, s.items[place]? = some old ∧ old.advance = item

end Automaton

/-- An automaton is the canonical collection of sets of items. -/
structure Grammar.IsCanonical (g : Grammar) (m : Automaton) : Prop where
  /-- The transitions lead across the strings that have valid items. -/
  walks : ∀ γ, (m.walk? γ).isSome = true ↔ ∃ item, g.ValidItem γ item
  /-- The items of the state reached are the valid ones, each once. -/
  items : ∀ γ q, m.walk? γ = some q → ∃ s, m.state? q = some s ∧ s.items.Nodup ∧
    ∀ item, item ∈ s.items ↔ g.ValidItem γ item
  /-- Different states have different kernels, as sets. -/
  kernels : ∀ q q' s s', m.state? q = some s → m.state? q' = some s' →
    (∀ item, item ∈ s.kernel ↔ item ∈ s'.kernel) → q = q'
  /-- Every state is reached. -/
  reached : ∀ q s, m.state? q = some s → ∃ γ, m.walk? γ = some q
  /-- An item with a symbol behind its dot belongs to one transition, which moves its items on. -/
  moves : ∀ q s place item, m.state? q = some s → s.items[place]? = some item →
    item.next? g ≠ none → ∃ (i : Nat) (t : Transition), s.transitions[i]? = some t ∧
      place ∈ t.items ∧ m.MovesOn s t ∧ ∀ (j : Nat) (t' : Transition),
        s.transitions[j]? = some t' → place ∈ t'.items → j = i

namespace Grammar.Built

variable {g : Grammar} {a : Analysis} {p q : StateId} {s : State} {symbol : Symbol}
  {γ : List Symbol} {item : Item}

/-- Transitions lead to the state across a symbol. -/
theorem across?_eq_some_iff (h : g.Built a) :
    (g.automaton a).across? p symbol = some q ↔ (g.automaton a).Goes p symbol q := by
  have hsound : ∀ q', (g.automaton a).across? p symbol = some q' →
      (g.automaton a).Goes p symbol q' := by
    intro q' hfound
    obtain ⟨s, hs, hfound⟩ := Option.bind_eq_some_iff.mp hfound
    obtain ⟨t, ht, hnext⟩ := List.exists_of_findSome?_eq_some hfound
    obtain ⟨hmarker, hnext⟩ := Option.ite_none_right_eq_some.mp hnext
    exact ⟨s, hs, t, ht, hmarker, hnext⟩
  refine ⟨hsound q, fun hgoes => ?_⟩
  cases hfound : (g.automaton a).across? p symbol with
  | some q' => rw [h.goes_unique (hsound q' hfound) hgoes]
  | none =>
    obtain ⟨s, hs, t, ht, hmarker, hnext⟩ := hgoes
    rw [Automaton.across?, hs, Option.bind_some, List.findSome?_eq_none_iff] at hfound
    have hnone := hfound t ht
    rw [if_pos hmarker, hnext] at hnone
    cases hnone

/-- A walk across a longer string ends with a transition. -/
theorem walk?_snoc_eq_some_iff (h : g.Built a) :
    (g.automaton a).walk? (γ ++ [symbol]) = some q ↔
      ∃ p, (g.automaton a).walk? γ = some p ∧ (g.automaton a).Goes p symbol q := by
  rw [Automaton.walk?_append_singleton, Option.bind_eq_some_iff]
  simp only [h.across?_eq_some_iff]

/-- A valid item is in the state that its string leads to. -/
theorem has_of_validItem (h : g.Built a) (hvalid : g.ValidItem γ item) :
    ∃ q, (g.automaton a).walk? γ = some q ∧ (g.automaton a).Has q item := by
  induction hvalid with
  | start => exact ⟨initialState, rfl, h.has_start⟩
  | close _ hnext hr ih =>
    obtain ⟨q, hwalk, hitem⟩ := ih
    exact ⟨q, hwalk, h.has_closure hitem hnext hr⟩
  | shift _ hnext ih =>
    obtain ⟨p, hwalk, hitem⟩ := ih
    obtain ⟨q, hgoes⟩ := h.exists_goes hitem hnext
    obtain ⟨s, hs, hkernel⟩ := h.has_advance hitem hnext hgoes
    exact ⟨q, h.walk?_snoc_eq_some_iff.mpr ⟨p, hwalk, hgoes⟩, s, hs,
      mem_items_of_mem_kernel hkernel⟩

/-- If the items of a kernel are valid, so are all items of the state. -/
theorem validItem_of_kernel (h : g.Built a) (hs : (g.automaton a).state? q = some s)
    (hkernel : ∀ item ∈ s.kernel, g.ValidItem γ item) (hitem : item ∈ s.items) :
    g.ValidItem γ item := by
  rcases h.items_cases hs hitem with hmem | ⟨k, hk, n, rule, tail, hnext, hrule, hchain, hdot⟩
  · exact hkernel item hmem
  · obtain ⟨r, dot⟩ := item
    obtain rfl : dot = 0 := hdot
    exact (hkernel k hk).chain hnext hchain hrule rfl

/-- The items of the state that a string leads to are valid for the string. -/
theorem validItem_of_has (h : g.Built a) (hwalk : (g.automaton a).walk? γ = some q)
    (hitem : (g.automaton a).Has q item) : g.ValidItem γ item := by
  induction γ using List.reverseRecOn generalizing q item with
  | nil =>
    obtain rfl : initialState = q := Option.some.inj hwalk
    obtain ⟨s, hs, hmem⟩ := hitem
    refine h.validItem_of_kernel hs (fun k hk => ?_) hmem
    have hkernel := (kernels_zero g a).symm.trans (h.exists_kernel hs).1
    rw [← Option.some.inj hkernel, initialKernel, List.mem_singleton] at hk
    exact hk ▸ .start
  | append_singleton γ symbol ih =>
    obtain ⟨p, hwalk, hgoes⟩ := h.walk?_snoc_eq_some_iff.mp hwalk
    obtain ⟨s, hs, hmem⟩ := hitem
    refine h.validItem_of_kernel hs (fun k hk => ?_) hmem
    obtain ⟨old, hold, hnext, rfl⟩ := (h.kernel_of_goes hgoes hs).mp hk
    exact (ih hwalk hold).shift hnext

/-- A walk ends in a state of the automaton. -/
theorem exists_state_of_walk? (h : g.Built a) (hwalk : (g.automaton a).walk? γ = some q) :
    ∃ item, (g.automaton a).Has q item := by
  rcases List.eq_nil_or_concat' γ with rfl | ⟨γ, symbol, rfl⟩
  · obtain rfl : initialState = q := Option.some.inj hwalk
    exact ⟨_, h.has_start⟩
  · obtain ⟨p, -, hgoes⟩ := h.walk?_snoc_eq_some_iff.mp hwalk
    obtain ⟨s, hs, ⟨item, hitem, hnext⟩, -⟩ := h.goes_iff.mp hgoes
    obtain ⟨s', hs', hkernel⟩ := h.has_advance ⟨s, hs, hitem⟩ hnext hgoes
    exact ⟨_, s', hs', mem_items_of_mem_kernel hkernel⟩

/-- A walk leads to the state of every kernel to which transitions lead from the initial one. -/
theorem exists_walk? (h : g.Built a) {kernel : Kernel} (hreached : Relation.ReflTransGen
      (fun before next => next ∈ g.kernelsAfter a before) initialKernel kernel) :
    ∃ γ q, (g.automaton a).walk? γ = some q ∧ (g.kernels a).items[q.val]? = some kernel := by
  induction hreached with
  | refl => exact ⟨[], initialState, rfl, kernels_zero g a⟩
  | tail _ hnext ih =>
    obtain ⟨γ, p, hwalk, hbefore⟩ := ih
    obtain ⟨s, hs, -, hitems⟩ := h.exists_state hbefore
    obtain ⟨symbol, ⟨item, hitem, hsymbol⟩, rfl⟩ := mem_kernelsAfter.mp hnext
    rw [← hitems] at hitem ⊢
    obtain ⟨q, hgoes⟩ := h.exists_goes ⟨s, hs, hitem⟩ hsymbol
    obtain ⟨s', hs', -, hkernel⟩ := h.goes_iff.mp hgoes
    obtain rfl := Option.some.inj (hs.symm.trans hs')
    exact ⟨γ ++ [symbol], q, h.walk?_snoc_eq_some_iff.mpr ⟨p, hwalk, hgoes⟩, hkernel⟩

/-- The kernels of states are ascending. -/
theorem isKernel (h : g.Built a) (hs : (g.automaton a).state? q = some s) : g.IsKernel s.kernel :=
  isKernel_of_mem h.wellFormed (Array.mem_of_getElem? (h.exists_kernel hs).1)

/-- States with the same kernel items are the same. -/
theorem eq_of_kernel (h : g.Built a) {q' : StateId} {s' : State}
    (hs : (g.automaton a).state? q = some s) (hs' : (g.automaton a).state? q' = some s')
    (hmem : ∀ item, item ∈ s.kernel ↔ item ∈ s'.kernel) : q = q' := by
  have hkernel := (h.exists_kernel hs).1
  rw [(h.isKernel hs).eq_of_mem_iff (h.isKernel hs') hmem] at hkernel
  exact Index.ext (Numbering.eq_of_getElem? hkernel (h.exists_kernel hs').1)

/-- The transitions of a state by places: one for each of the markers, which are different. -/
theorem getElem?_transitions (h : g.Built a) (hs : (g.automaton a).state? q = some s) {i : Nat}
    {t : Transition} : s.transitions[i]? = some t ↔
      ∃ marker, (g.markersOf s.items)[i]? = some marker ∧
        g.transition (g.kernels a) s.items marker = t := by
  obtain ⟨kernel, -, rfl⟩ := h.state?_eq_some_iff.mp hs
  simp only [stateOf, List.getElem?_map, Option.map_eq_some_iff]

/-- A transition across a symbol moves its items on. -/
theorem movesOn (h : g.Built a) (hs : (g.automaton a).state? q = some s)
    (hitem : item ∈ s.items) (hnext : item.next? g = some symbol) :
    (g.automaton a).MovesOn s (g.transition (g.kernels a) s.items (some symbol)) := by
  obtain ⟨next, hgoes⟩ := h.exists_goes ⟨s, hs, hitem⟩ hnext
  obtain ⟨s', hs', -, hkernel⟩ := h.goes_iff.mp hgoes
  obtain rfl := Option.some.inj (hs.symm.trans hs')
  obtain ⟨after, hafter, hsame, -⟩ := h.exists_state hkernel
  refine ⟨next, after, congrArg some (h.ofPlace_number hkernel), hafter,
    (h.isKernel hafter).ascending, fun item => ?_⟩
  rw [hsame, mem_kernelAfter]
  constructor
  · rintro ⟨old, hold, hsymbol, rfl⟩
    obtain ⟨place, hplace⟩ := List.mem_iff_getElem?.mp hold
    exact ⟨place, mem_placesOf.mpr ⟨old, hplace, hsymbol⟩, old, hplace, rfl⟩
  · rintro ⟨place, hmem, old, hplace, rfl⟩
    obtain ⟨old', hplace', hsymbol⟩ := mem_placesOf.mp hmem
    obtain rfl := Option.some.inj (hplace.symm.trans hplace')
    exact ⟨old, List.mem_of_getElem? hplace, hsymbol, rfl⟩

/-- The automaton of a grammar is its canonical collection. -/
theorem isCanonical (h : g.Built a) : g.IsCanonical (g.automaton a) where
  walks γ := by
    rw [Option.isSome_iff_exists]
    constructor
    · rintro ⟨q, hwalk⟩
      obtain ⟨item, hitem⟩ := h.exists_state_of_walk? hwalk
      exact ⟨item, h.validItem_of_has hwalk hitem⟩
    · rintro ⟨item, hvalid⟩
      obtain ⟨q, hwalk, -⟩ := h.has_of_validItem hvalid
      exact ⟨q, hwalk⟩
  items γ q hwalk := by
    obtain ⟨_, s, hs, -⟩ := h.exists_state_of_walk? hwalk
    refine ⟨s, hs, h.nodup_items hs, fun item => ?_⟩
    constructor
    · exact fun hitem => h.validItem_of_has hwalk ⟨s, hs, hitem⟩
    · intro hvalid
      obtain ⟨q', hwalk', s', hs', hitem⟩ := h.has_of_validItem hvalid
      obtain rfl := Option.some.inj (hwalk.symm.trans hwalk')
      obtain rfl := Option.some.inj (hs.symm.trans hs')
      exact hitem
  kernels _ _ _ _ := h.eq_of_kernel
  reached q s hs := by
    have hkernel := (h.exists_kernel hs).1
    obtain ⟨γ, q', hwalk, hkernel'⟩ :=
      h.exists_walk? ((mem_kernels_iff h.wellFormed).mp (Array.mem_of_getElem? hkernel))
    obtain rfl : q' = q := Index.ext (Numbering.eq_of_getElem? hkernel' hkernel)
    exact ⟨γ, hwalk⟩
  moves q s place item hs hplace hnext := by
    obtain ⟨symbol, hsymbol⟩ := Option.ne_none_iff_exists'.mp hnext
    have hitem := List.mem_of_getElem? hplace
    have hmarker : some symbol ∈ g.markersOf s.items :=
      mem_fresh.mpr ⟨List.mem_map.mpr ⟨item, hitem, hsymbol⟩, List.not_mem_nil⟩
    obtain ⟨i, hi⟩ := List.mem_iff_getElem?.mp hmarker
    refine ⟨i, _, (h.getElem?_transitions hs).mpr ⟨_, hi, rfl⟩,
      mem_placesOf.mpr ⟨item, hplace, hsymbol⟩, h.movesOn hs hitem hsymbol, fun j t' hj hmem => ?_⟩
    obtain ⟨marker, hj', rfl⟩ := (h.getElem?_transitions hs).mp hj
    obtain ⟨item', hplace', hmarker'⟩ := mem_placesOf.mp hmem
    obtain rfl := Option.some.inj (hplace.symm.trans hplace')
    have hnodup : (g.markersOf s.items).Nodup := nodup_append_fresh List.nodup_nil
    obtain rfl : marker = some symbol := hmarker'.symm.trans hsymbol
    exact (List.getElem?_inj (List.getElem?_eq_some_iff.mp hj').1 hnodup).mp (hj'.trans hi.symm)

end Grammar.Built

/-- The automaton is the canonical collection: its transitions lead across exactly the strings of
symbols that have valid items, to a state of these items. Its states are all reached and differ in
their kernels, and each item with a symbol behind its dot is moved on by one transition. -/
theorem automaton_canonical {g : Grammar} {a : Analysis} (hg : g.IsDefined)
    (ha : g.analyse = .ok a) (hstates : (g.kernels a).items.size < stateNumbers) :
    g.IsCanonical (g.automaton a) :=
  Grammar.Built.isCanonical ⟨hg.wellFormed, ha, hstates⟩

/-- In the grammar with an empty rule in front, one item is valid behind the empty part, and none
behind the terminal alone. -/
theorem automaton_canonical_optionalPrefix :
    (∀ item, optionalPrefix.ValidItem [.nonterminal ⟨2⟩] item ↔ item = ⟨⟨1⟩, 1⟩) ∧
      ∀ item, ¬ optionalPrefix.ValidItem [.terminal ⟨1⟩] item := by
  have hcanonical := automaton_canonical optionalPrefix_isDefined (a := optionalPrefixAnalysis)
    (by decide +kernel) (by decide +kernel)
  have hwalk : (optionalPrefix.automaton optionalPrefixAnalysis).walk? [.nonterminal ⟨2⟩] =
      some ⟨2⟩ := by
    decide +kernel
  have hitems : ((optionalPrefix.automaton optionalPrefixAnalysis).state? ⟨2⟩).map State.items =
      some [⟨⟨1⟩, 1⟩] := by
    decide +kernel
  have hnone : ¬ ((optionalPrefix.automaton optionalPrefixAnalysis).walk?
      [.terminal ⟨1⟩]).isSome = true := by
    decide +kernel
  obtain ⟨s, hs, -, hvalid⟩ := hcanonical.items _ _ hwalk
  rw [hs] at hitems
  constructor
  · intro item
    rw [← hvalid, Option.some.inj hitems, List.mem_singleton]
  · exact fun item hitem => hnone ((hcanonical.walks _).mpr ⟨item, hitem⟩)

end OperatorLALR
