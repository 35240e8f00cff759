import OperatorLALR.Proofs.Automaton.Origins
import OperatorLALR.Proofs.Automaton.States

/-!
# Lookaheads item by item

`Look` says which terminals an item may have behind its rule: they spring up where a nonterminal is
followed by something in an item, and are passed on to the rules of a nonterminal with nothing
behind it and across transitions. No chain of rules, follow set or predecessor set appears in it.
`Follows` is what it says about a nonterminal of a state, and it goes down chains of rules
(`Built.follows_of_begins`, `Built.follows_of_vanishes`) and along walks (`Built.look_of_origin`).
-/

namespace OperatorLALR

/-- The terminals that may come behind the rule of an item of a state, propagated item by item. -/
inductive Automaton.Look (m : Automaton) (g : Grammar) : StateId → Item → TerminalId → Prop
  | start : Look m g initialState ⟨acceptRule, 0⟩ endOfInput
  | spring {p : StateId} {item : Item} {n : NonterminalId} {r : RuleId} {t : TerminalId}
      (hitem : m.Has p item) (hnext : item.next? g = some (.nonterminal n))
      (hr : r ∈ g.rulesOf n) (ht : g.Begins (item.rest g) t) : Look m g p ⟨r, 0⟩ t
  | pass {p : StateId} {item : Item} {n : NonterminalId} {r : RuleId} {t : TerminalId}
      (h : Look m g p item t) (hnext : item.next? g = some (.nonterminal n))
      (hrest : g.Vanishes (item.rest g)) (hr : r ∈ g.rulesOf n) : Look m g p ⟨r, 0⟩ t
  | shift {p q : StateId} {item : Item} {symbol : Symbol} {t : TerminalId}
      (h : Look m g p item t) (hnext : item.next? g = some symbol)
      (hgoes : m.Goes p symbol q) : Look m g q item.advance t

/-- The terminals that may come behind a nonterminal of a state. -/
def Automaton.Follows (m : Automaton) (g : Grammar) (q : StateId) (n : NonterminalId)
    (t : TerminalId) : Prop :=
  ∃ item, m.Has q item ∧ item.next? g = some (.nonterminal n) ∧
    (g.Begins (item.rest g) t ∨ g.Vanishes (item.rest g) ∧ m.Look g q item t)

namespace Grammar.Built

variable {g : Grammar} {a : Analysis} {p q : StateId} {s : State} {item : Item} {t : TerminalId}
  {n target : NonterminalId} {tail : List Symbol}

/-- What may come behind a nonterminal may come behind its rules. -/
theorem look_of_follows {m : Automaton} {r : RuleId} (h : m.Follows g q n t)
    (hr : r ∈ g.rulesOf n) : m.Look g q ⟨r, 0⟩ t := by
  obtain ⟨item, hitem, hnext, ht | ⟨hrest, ht⟩⟩ := h
  · exact .spring hitem hnext hr ht
  · exact .pass ht hnext hrest hr

/-- The end of the input may come behind the start symbol. -/
theorem follows_start (h : g.Built a) :
    (g.automaton a).Follows g initialState g.start endOfInput := by
  refine ⟨_, h.has_start, h.wellFormed.next?_start, .inr ⟨?_, .start⟩⟩
  rw [h.wellFormed.rest_start]
  exact vanishes_nil

/-- Terminals of lookaheads have been declared, or are the end of the input. -/
theorem look_declared (h : g.Built a) (hlook : (g.automaton a).Look g q item t) :
    t.val < g.terminals.length := by
  induction hlook with
  | start => exact h.wellFormed.terminals_pos
  | @spring _ item _ _ _ _ _ _ ht =>
    exact Begins.declared h.wellFormed (h.wellFormed.declares_rest item) ht
  | pass _ _ _ _ ih => exact ih
  | shift _ _ _ ih => exact ih

/-- Terminals that follow have been declared, or are the end of the input. -/
theorem follows_declared (h : g.Built a) (hfollows : (g.automaton a).Follows g q n t) :
    t.val < g.terminals.length := by
  obtain ⟨item, -, -, ht | ⟨-, ht⟩⟩ := hfollows
  · exact Begins.declared h.wellFormed (h.wellFormed.declares_rest item) ht
  · exact h.look_declared ht

/-- The transitions of a state move an item across the symbol behind its dot. -/
theorem moves_iff (h : g.Built a) (hs : (g.automaton a).state? p = some s) :
    s.Moves item q ↔ item ∈ s.items ∧ ∃ symbol, item.next? g = some symbol ∧
      (g.automaton a).Goes p symbol q := by
  constructor
  · rintro ⟨t, ht, place, hplace, hitem, hnext⟩
    obtain ⟨marker, -, rfl⟩ := (h.mem_transitions hs).mp ht
    obtain ⟨item', hitem', hmarker⟩ := mem_placesOf.mp hplace
    rw [hitem] at hitem'
    obtain rfl := Option.some.inj hitem'
    obtain ⟨symbol, rfl, -⟩ := Option.map_eq_some_iff.mp hnext
    exact ⟨List.mem_of_getElem? hitem, symbol, hmarker, s, hs, _, ht, rfl, hnext⟩
  · rintro ⟨hitem, symbol, hsymbol, s', hs', t, ht, hmarker, hnext⟩
    rw [hs] at hs'
    obtain rfl := Option.some.inj hs'
    obtain ⟨marker, -, rfl⟩ := (h.mem_transitions hs).mp ht
    obtain rfl : marker = some symbol := hmarker
    obtain ⟨place, hplace⟩ := List.mem_iff_getElem?.mp hitem
    exact ⟨_, ht, place, mem_placesOf.mpr ⟨item, hplace, hsymbol⟩, hplace, hnext⟩

/-- The items of kernels stand first in the states of an automaton, and no item twice. -/
theorem kernelsFirst (h : g.Built a) : KernelsFirst (g.states a) := by
  constructor
  · exact fun q s hs => h.nodup_items (q := ⟨q⟩) hs
  · exact fun q s item hs => h.mem_kernel_of_dot (q := ⟨q⟩) hs

/-- The predecessors of an item are where the walks to it start. -/
theorem mem_predsAt (h : g.Built a) {place : Nat} (hs : (g.automaton a).state? q = some s)
    (hitem : s.items[place]? = some item) :
    p ∈ (g.automaton a).predsAt q place ↔ Origin (g.states a) p q item :=
  mem_predsAt_iff h.kernelsFirst hs hitem

/-- Lookaheads are passed on along a walk. -/
theorem look_of_origin (h : g.Built a) (horigin : Origin (g.states a) p q item)
    (hlook : (g.automaton a).Look g p ⟨item.rule, 0⟩ t) : (g.automaton a).Look g q item t := by
  induction horigin with
  | @own s item _ _ hdot =>
    have hsame : item = ⟨item.rule, 0⟩ := by rw [← hdot]
    rw [hsame]
    exact hlook
  | step _ hs hmoves ih =>
    obtain ⟨-, symbol, hnext, hgoes⟩ := (h.moves_iff hs).mp hmoves
    exact .shift (ih hlook) hnext hgoes

/-- What may come behind a rule wherever it has the dot in front may come behind it everywhere. -/
theorem look_of_front (h : g.Built a) {r : RuleId} {dot : Nat}
    (hfront : ∀ p, (g.automaton a).Has p ⟨r, 0⟩ → (g.automaton a).Look g p ⟨r, 0⟩ t)
    (hitem : (g.automaton a).Has q ⟨r, dot⟩) : (g.automaton a).Look g q ⟨r, dot⟩ t := by
  induction dot generalizing q with
  | zero => exact hfront q hitem
  | succ dot ih =>
    obtain ⟨p, symbol, hgoes⟩ := h.exists_goes_before hitem
    obtain ⟨hold, hnext⟩ := h.has_before hgoes hitem
    exact .shift (ih hold) hnext hgoes

/-- The end of the input may come behind the rule of the augmented start symbol. -/
theorem look_accept (h : g.Built a) (hitem : (g.automaton a).Has q item)
    (hrule : item.rule = acceptRule) : (g.automaton a).Look g q item endOfInput := by
  obtain ⟨r, dot⟩ := item
  obtain rfl : r = acceptRule := hrule
  refine h.look_of_front (fun p hp => ?_) hitem
  rw [h.eq_initialState_of_has hp]
  exact .start

/-- The rule of a chain is, with the dot in front, beside the item that the chain starts from. -/
theorem has_chain_rule (h : g.Built a) {r : RuleId} {rule : Rule} {rest : List Symbol}
    (hitem : (g.automaton a).Has q item) (hnext : item.next? g = some (.nonterminal rule.left))
    (hrule : g.rule? r = some rule) (hbody : rule.body = .nonterminal n :: rest) :
    (g.automaton a).Has q ⟨r, 0⟩ ∧ (Item.mk r 0).next? g = some (.nonterminal n) ∧
      (Item.mk r 0).rest g = rest := by
  have hbody' : g.body r = .nonterminal n :: rest := (body_eq hrule).trans hbody
  refine ⟨h.has_closure hitem hnext (mem_rulesOf.mpr ⟨rule, hrule, rfl⟩), ?_, ?_⟩
  · rw [Item.next?, hbody']
    rfl
  · rw [Item.rest, hbody']
    rfl

/-- Beside an item before the source of a chain stands an item before its target. -/
theorem exists_item_before (h : g.Built a) (hchain : Chain g n target tail)
    (hitem : (g.automaton a).Has q item) (hnext : item.next? g = some (.nonterminal n)) :
    ∃ item', (g.automaton a).Has q item' ∧ item'.next? g = some (.nonterminal target) := by
  induction hchain generalizing item with
  | nil => exact ⟨item, hitem, hnext⟩
  | cons hrule hbody _ ih =>
    obtain ⟨hhas, hnext', -⟩ := h.has_chain_rule hitem hnext hrule hbody
    exact ih hhas hnext'

/-- A rule with the dot in front stands beside an item before its nonterminal, unless it is the rule
of the augmented start symbol. -/
theorem exists_item_before_left (h : g.Built a) {r : RuleId} {rule : Rule}
    (hitem : (g.automaton a).Has q ⟨r, 0⟩) (hrule : g.rule? r = some rule) (hr : r ≠ acceptRule) :
    ∃ item', (g.automaton a).Has q item' ∧ item'.next? g = some (.nonterminal rule.left) := by
  obtain ⟨s, hs, hmem⟩ := hitem
  rcases h.items_cases hs hmem with hkernel | ⟨k, hk, n, rule', tail, hnext, hrule', hchain, -⟩
  · rcases h.kernel_cases hs hkernel with ⟨-, hinitial⟩ | ⟨_, _, _, _, _, _, hadvance⟩
    · exact absurd (congrArg Item.rule hinitial) hr
    · cases congrArg Item.dot hadvance
  · rw [hrule] at hrule'
    obtain rfl := Option.some.inj hrule'
    exact h.exists_item_before hchain ⟨s, hs, mem_items_of_mem_kernel hk⟩ hnext

/-- What may come behind the source of a chain with nothing behind it may come behind its target. -/
theorem follows_of_vanishes (h : g.Built a) (hchain : Chain g n target tail)
    (hvanishes : g.Vanishes tail) (hfollows : (g.automaton a).Follows g q n t) :
    (g.automaton a).Follows g q target t := by
  induction hchain with
  | nil => exact hfollows
  | @cons r rule n target tail rest hrule hbody _ ih =>
    rw [vanishes_append] at hvanishes
    obtain ⟨item, hitem, hnext, -⟩ := id hfollows
    obtain ⟨hhas, hnext', hrest⟩ := h.has_chain_rule hitem hnext hrule hbody
    refine ih hvanishes.1 ⟨⟨r, 0⟩, hhas, hnext', .inr ⟨?_, ?_⟩⟩
    · rw [hrest]
      exact hvanishes.2
    · exact look_of_follows hfollows (mem_rulesOf.mpr ⟨rule, hrule, rfl⟩)

/-- What begins the tail of a chain may come behind its target. -/
theorem follows_of_begins (h : g.Built a) (hchain : Chain g n target tail)
    (hbegins : g.Begins tail t) (hitem : (g.automaton a).Has q item)
    (hnext : item.next? g = some (.nonterminal n)) : (g.automaton a).Follows g q target t := by
  induction hchain generalizing item with
  | nil => exact absurd hbegins not_begins_nil
  | @cons r rule n target tail rest hrule hbody hchain ih =>
    obtain ⟨hhas, hnext', hrest⟩ := h.has_chain_rule hitem hnext hrule hbody
    rcases begins_append.mp hbegins with hbegins | ⟨hvanishes, hbegins⟩
    · exact ih hbegins hhas hnext'
    · refine h.follows_of_vanishes hchain hvanishes ⟨⟨r, 0⟩, hhas, hnext', .inl ?_⟩
      rw [hrest]
      exact hbegins

end Grammar.Built

end OperatorLALR
