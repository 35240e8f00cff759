import OperatorLALR.Proofs.ParseTable.Silence
import OperatorLALR.Proofs.Precedence.Grammars

/-!
# What precedences decide between operators

In a grammar of operators between operands several actions compete only behind a second operand,
where the operator of that operand stands against the next one (`Infix.contest`). Precedences decide
there, so that a table is built without records (`Infix.silent`): the next operator is shifted if it
binds tighter on the right of the other, and the other is reduced if it binds tighter on the left of
the next one (`Infix.chosen_cases`).
-/

namespace OperatorLALR

namespace Grammar

/-- One operator binds tighter than another as its operand on some side: its priority is higher, or
both have one priority and the associativity of that side. -/
def Tighter (g : Grammar) (side : Assoc) (outer inner : TerminalId) : Prop :=
  ∃ p q, g.terminalPrecedence outer = some p ∧ g.terminalPrecedence inner = some q ∧
    (p.priority < q.priority ∨ p.priority = q.priority ∧ q.assoc = side)

/-- A rule is complete where its reduction is called for. -/
theorem Built.has_of_acts_reduce {g : Grammar} {a : Analysis} {q : StateId} {t : TerminalId}
    {r : RuleId} (hg : g.Built a) (hacts : g.Acts a q t (.reduce r)) :
    (g.automaton a).Has q ⟨r, (g.body r).length⟩ ∧
      (Item.mk r (g.body r).length).next? g = none :=
  ⟨(hg.justified_of_look hacts.2).1, List.getElem?_eq_none (Nat.le_refl _)⟩

namespace Infix

variable {g : Grammar} {atom op t : TerminalId} {operators : List TerminalId} {a : Analysis}
  {q next : StateId} {r : RuleId} {item item' : Item} {action : Action} {pend : List Action}
  (h : g.Infix atom operators)

include h

/-- Every operator has a precedence. -/
theorem exists_precedence (hop : op ∈ operators) : ∃ p, g.terminalPrecedence op = some p := by
  obtain ⟨name, p, hterminal⟩ := h.precedence op hop
  exact ⟨p, by rw [terminalPrecedence, hterminal]; rfl⟩

/-- The operators do not stand for operators that are known only when parsing. -/
theorem isOperatorTerminal_eq_false (hop : op ∈ operators) : g.isOperatorTerminal op = false := by
  obtain ⟨name, p, hterminal⟩ := h.precedence op hop
  rw [isOperatorTerminal, hterminal]
  rfl

/-- No place of the rule of an operator is governed when parsing. -/
theorem governingPlace_binary (hop : op ∈ operators) :
    g.governingPlace (g.number (g.binary op)) = none := by
  rw [governingPlace, h.rule?_binary hop, Option.bind_some]
  change (if g.isOperatorTerminal op = true then some 1 else none) = none
  rw [h.isOperatorTerminal_eq_false hop]
  rfl

/-- The rule of an operator takes its precedence. -/
theorem rulePrecedence_binary (hop : op ∈ operators) :
    g.rulePrecedence (g.number (g.binary op)) = g.terminalPrecedence op := by
  rw [rulePrecedence, h.rule?_binary hop]
  rfl

/-- The precedences of two operators decide between them. -/
theorem favours_cases (ht : t ∈ operators) (hop : op ∈ operators) :
    ∃ preference, g.favours t (g.number (g.binary op)) = some preference ∧
      (preference = .shift ↔ g.Tighter .right op t) ∧
      (preference = .reduce ↔ g.Tighter .left t op) := by
  obtain ⟨p, hp⟩ := h.exists_precedence ht
  obtain ⟨q, hq⟩ := h.exists_precedence hop
  have hsame := h.consistent t ht op hop p q hp hq
  simp only [favours, h.rulePrecedence_binary hop, hp, hq, Tighter, Option.bind_some,
    Precedence.favours, Option.some.injEq, exists_and_left, exists_eq_left']
  rcases Nat.lt_trichotomy p.priority q.priority with hlt | heq | hlt
  · exact ⟨.reduce, by simp [hlt, Nat.not_lt_of_lt hlt, Nat.ne_of_gt hlt]⟩
  · cases hassoc : q.assoc with
    | left => exact ⟨.reduce, by simp [heq, hsame heq, hassoc]⟩
    | right => exact ⟨.shift, by simp [heq, hsame heq, hassoc]⟩
    | nonassoc => exact ⟨.neither, by simp [heq, hsame heq, hassoc]⟩
  · exact ⟨.shift, by simp [hlt, Nat.not_lt_of_lt hlt, Nat.ne_of_gt hlt]⟩

variable (hg : g.Built a)

include hg

/-- A state with some item is behind an atom, before an operand or behind one. -/
theorem exists_layout (hitem : (g.automaton a).Has q item) :
    ∃ items, g.Layout atom operators items ∧ ∀ item, (g.automaton a).Has q item ↔ item ∈ items := by
  obtain ⟨s, hs, -⟩ := hitem
  refine ⟨s.items, h.layout hg hs, fun other => ⟨?_, fun hother => ⟨s, hs, hother⟩⟩⟩
  rintro ⟨s', hs', hother⟩
  obtain rfl := Option.some.inj (hs.symm.trans hs')
  exact hother

/-- Where an item is complete nothing else is, and nothing but an operator may come next. -/
theorem complete_alone (hitem : (g.automaton a).Has q item) (hnone : item.next? g = none) :
    (∀ other, (g.automaton a).Has q other → other.next? g = none → other = item) ∧
      ∀ other t, (g.automaton a).Has q other → other.next? g = some (.terminal t) →
        t ∈ operators ∧ ∃ m ∈ g.openings operators, item = m.advance := by
  obtain ⟨items, hlayout, hitems⟩ := h.exists_layout hg hitem
  simp only [hitems] at hitem ⊢
  cases hlayout with
  | atom hmem =>
    simp only [hmem] at hitem ⊢
    refine ⟨fun other hother _ => hother.trans hitem.symm, fun _ t hother hnext => ?_⟩
    rw [hother, h.next?_lone.2] at hnext
    cases hnext
  | @before m hm hmem =>
    rcases (hmem item).mp hitem with rfl | hfront
    · cases hnone.symm.trans (h.next?_opening hm).1
    · rcases h.front_cases hfront with ⟨-, hsome⟩ | ⟨_, -, -, hsome⟩ <;>
        cases hnone.symm.trans hsome
  | @behind m hm hmem =>
    have hsame : ∀ other ∈ items, other.next? g = none → other = m.advance := by
      intro other hother hnone
      rcases h.behind_cases hm ((hmem other).mp hother) with ⟨heq, -⟩ | ⟨_, -, -, hsome⟩
      · exact heq
      · cases hnone.symm.trans hsome
    have heq := hsame item hitem hnone
    refine ⟨fun other hother hnone => (hsame other hother hnone).trans heq.symm,
      fun other t hother hnext => ?_⟩
    rcases h.behind_cases hm ((hmem other).mp hother) with ⟨-, hnone⟩ | ⟨op, hop, -, hsome⟩
    · cases hnone.symm.trans hnext
    · obtain rfl := Symbol.terminal.inj (Option.some.inj (hsome.symm.trans hnext))
      exact ⟨hop, m, hm, heq⟩

/-- One reduction at most is called for in a state. -/
theorem eq_of_acts_reduce {r' : RuleId} (hacts : g.Acts a q t (.reduce r))
    (hacts' : g.Acts a q t (.reduce r')) : r = r' := by
  obtain ⟨hitem, hnone⟩ := hg.has_of_acts_reduce hacts
  obtain ⟨hitem', hnone'⟩ := hg.has_of_acts_reduce hacts'
  exact congrArg Item.rule ((h.complete_alone hg hitem' hnone').1 _ hitem hnone)

/-- Behind a second operand the reduction by the rule of its operator is called for before every
operator. -/
theorem acts_reduce_binary (hop : op ∈ operators) (ht : t ∈ operators)
    (hitem : (g.automaton a).Has q ⟨g.number (g.binary op), 3⟩) :
    g.Acts a q t (.reduce (g.number (g.binary op))) := by
  refine ⟨h.number_ne_accept (h.mem_rules_iff.mpr (.inr (.inr ⟨op, hop, rfl⟩))) rfl, ?_⟩
  rw [h.body_binary hop]
  refine hg.look_of_front (fun p hfront => ?_) hitem
  -- the rule of the next operator stands beside that of the other, with the same operand in front
  have hbeside : (g.automaton a).Has p ⟨g.number (g.binary t), 0⟩ :=
    hg.has_closure hfront (h.next?_binary hop).1 (mem_rulesOf.mpr ⟨_, h.rule?_binary ht, rfl⟩)
  refine .spring hbeside (h.next?_binary ht).1 (mem_rulesOf.mpr ⟨_, h.rule?_binary hop, rfl⟩) ?_
  rw [Item.rest, h.body_binary ht]
  exact begins_terminal.mpr rfl

/-- Several actions compete only behind a second operand: the shift of an operator, and the
reduction by the rule of the operator before the operand. -/
theorem contest (hpend : ∀ action, action ∈ pend ↔ g.Acts a q t action)
    (horder : pend.Pairwise Action.Before) (hmany : 1 < pend.length) :
    ∃ next, ∃ op ∈ operators, t ∈ operators ∧
      pend = [.shift next, .reduce (g.number (g.binary op))] := by
  -- no reduction stands behind another
  have hreduces : ∀ r r', .reduce r ∈ pend → .reduce r' ∈ pend →
      ¬ Action.Before (.reduce r) (.reduce r') := by
    intro r r' hr hr' hbefore
    cases hbefore with
    | reduce hlt =>
      rw [h.eq_of_acts_reduce hg ((hpend _).mp hr) ((hpend _).mp hr')] at hlt
      exact Nat.lt_irrefl _ hlt
  obtain _ | ⟨first, _ | ⟨second, rest⟩⟩ := pend
  · cases hmany
  · exact absurd hmany (Nat.lt_irrefl 1)
  · obtain ⟨hfirst, hsecond⟩ := List.pairwise_cons.mp horder
    have hbefore := hfirst second List.mem_cons_self
    cases hbefore with
    | reduce hlt => exact absurd (.reduce hlt) (hreduces _ _ (by simp) (by simp))
    | @shift next r =>
      have hrest : rest = [] := by
        refine List.eq_nil_iff_forall_not_mem.mpr fun action hmem => ?_
        have hlater := (List.pairwise_cons.mp hsecond).1 action hmem
        cases hlater with
        | reduce hlt => exact hreduces _ _ (by simp) (by simp [hmem]) (.reduce hlt)
      have hgoes : (g.automaton a).Goes q (.terminal t) next := (hpend (.shift next)).mp (by simp)
      have hacts : g.Acts a q t (.reduce r) := (hpend _).mp (by simp)
      obtain ⟨hitem, hnone⟩ := hg.has_of_acts_reduce hacts
      obtain ⟨s, hs, ⟨other, hother, hnext⟩, -⟩ := hg.goes_iff.mp hgoes
      obtain ⟨ht, m, hm, heq⟩ := (h.complete_alone hg hitem hnone).2 other t ⟨s, hs, hother⟩ hnext
      rcases List.mem_cons.mp hm with rfl | hm
      · exact absurd (congrArg Item.rule heq) hacts.1
      · obtain ⟨op, hop, rfl⟩ := List.mem_map.mp hm
        obtain rfl : r = g.number (g.binary op) := congrArg Item.rule heq
        exact ⟨next, op, hop, ht, by rw [hrest]⟩

/-- Precedences decide wherever several actions compete. -/
theorem silent : g.Silent a := by
  intro q t pend hpend horder hmany
  obtain ⟨next, op, hop, ht, rfl⟩ := h.contest hg hpend horder hmany
  constructor
  · rintro (hdynamic | ⟨r, hr, hgoverned⟩)
    · rw [h.isOperatorTerminal_eq_false ht] at hdynamic
      cases hdynamic
    · obtain rfl : r = g.number (g.binary op) := by simpa using hr
      rw [h.governingPlace_binary hop] at hgoverned
      cases hgoverned
  · obtain ⟨preference, hfavours, -, -⟩ := h.favours_cases ht hop
    have hall : ∀ r, .reduce r ∈ [Action.shift next, .reduce (g.number (g.binary op))] →
        g.favours t r = some preference := by
      intro r hr
      obtain rfl : r = g.number (g.binary op) := by simpa using hr
      exact hfavours
    cases preference with
    | shift => exact ⟨_, .shift List.mem_cons_self hall⟩
    | neither => exact ⟨_, .neither List.mem_cons_self hall⟩
    | reduce => exact ⟨_, .reduce rfl hfavours⟩

/-- Behind a second operand, and before an operator, what is chosen is decided by how the two
operators bind. -/
theorem chosen_cases (hchosen : g.Chosen a q t action) (hop : op ∈ operators) (ht : t ∈ operators)
    (hgoes : (g.automaton a).Goes q (.terminal t) next)
    (hitem : (g.automaton a).Has q ⟨g.number (g.binary op), 3⟩) :
    (action = .shift next ↔ g.Tighter .right op t) ∧
      (action = .reduce (g.number (g.binary op)) ↔ g.Tighter .left t op) := by
  have hreduce := h.acts_reduce_binary hg hop ht hitem
  cases hchosen with
  | refused hnone => exact absurd hreduce (hnone _)
  | single honly => cases ((honly (.shift next)).mp hgoes).trans ((honly _).mp hreduce).symm
  | @decided pend _ hpend horder hmany hdecided =>
    obtain ⟨next', op', hop', -, rfl⟩ := h.contest hg hpend horder hmany
    obtain rfl : next' = next := by simpa [eq_comm] using (hpend (.shift next)).mpr hgoes
    have hsame : g.number (g.binary op') = g.number (g.binary op) := by
      simpa [eq_comm] using (hpend _).mpr hreduce
    rw [hsame] at hdecided
    obtain ⟨preference, hfavours, rfl⟩ := Decided.eq_decision (c := ⟨some next', [], [_]⟩)
      hdecided (List.mem_singleton_self _)
    obtain ⟨preference', hfavours', hright, hleft⟩ := h.favours_cases ht hop
    obtain rfl := Option.some.inj (hfavours.symm.trans hfavours')
    rw [← hright, ← hleft]
    cases preference <;> simp [Competition.decision]

/-- A state has the rule of an operator complete only behind an operand. -/
theorem exists_goes_operator (hop : op ∈ operators) (ht : t ∈ operators)
    (hitem : (g.automaton a).Has q ⟨g.number (g.binary op), 3⟩) :
    ∃ next, (g.automaton a).Goes q (.terminal t) next := by
  obtain ⟨items, hlayout, hitems⟩ := h.exists_layout hg hitem
  rw [hitems] at hitem
  cases hlayout with
  | atom hmem => cases congrArg Item.dot ((hmem _).mp hitem)
  | @before m hm hmem =>
    have hnone : (Item.mk (g.number (g.binary op)) 3).next? g = none := by
      rw [Item.next?, h.body_binary hop]
      rfl
    rcases (hmem _).mp hitem with rfl | hfront
    · cases hnone.symm.trans (h.next?_opening hm).1
    · obtain ⟨_, -, -, hdot⟩ := h.mem_fronts.mp hfront
      cases hdot
  | behind hm hmem =>
    have hbeside : (g.automaton a).Has q ⟨g.number (g.binary t), 1⟩ :=
      (hitems _).mpr ((hmem _).mpr (.inr (List.mem_map_of_mem ht)))
    exact hg.exists_goes hbeside (h.next?_binary ht).2

/-- A terminal is shifted if it binds tighter on the right of the operator before it, if there is
one. -/
theorem eq_shift (hchosen : g.Chosen a q t action)
    (hgoes : (g.automaton a).Goes q (.terminal t) next)
    (hright : ∀ op ∈ operators, (g.automaton a).Has q ⟨g.number (g.binary op), 3⟩ →
      t ∈ operators → g.Tighter .right op t) : action = .shift next := by
  cases id hchosen with
  | refused hnone => exact absurd hgoes (hnone (.shift next))
  | single honly => exact ((honly (.shift next)).mp hgoes).symm
  | decided hpend horder hmany =>
    obtain ⟨_, op, hop, ht, rfl⟩ := h.contest hg hpend horder hmany
    have hacts := (hpend (.reduce (g.number (g.binary op)))).mp (by simp)
    obtain ⟨hitem, -⟩ := hg.has_of_acts_reduce hacts
    rw [h.body_binary hop] at hitem
    exact (h.chosen_cases hg hchosen hop ht hgoes hitem).1.mpr (hright op hop hitem ht)

/-- A rule is reduced if its operator binds tighter on the left of the next one, if there is
one. -/
theorem eq_reduce (hchosen : g.Chosen a q t action) (hacts : g.Acts a q t (.reduce r))
    (hleft : ∀ op ∈ operators, r = g.number (g.binary op) → t ∈ operators →
      g.Tighter .left t op) : action = .reduce r := by
  cases id hchosen with
  | refused hnone => exact absurd hacts (hnone (.reduce r))
  | single honly => exact ((honly (.reduce r)).mp hacts).symm
  | decided hpend horder hmany =>
    obtain ⟨next, op, hop, ht, rfl⟩ := h.contest hg hpend horder hmany
    have hgoes : (g.automaton a).Goes q (.terminal t) next := (hpend (.shift next)).mp (by simp)
    obtain rfl : r = g.number (g.binary op) := by simpa using (hpend (.reduce r)).mpr hacts
    obtain ⟨hitem, -⟩ := hg.has_of_acts_reduce hacts
    rw [h.body_binary hop] at hitem
    exact (h.chosen_cases hg hchosen hop ht hgoes hitem).2.mpr (hleft op hop rfl ht)

/-- The rule of an operator is reduced before another only if it binds tighter on its left. -/
theorem tighter_of_reduce (hchosen : g.Chosen a q t (.reduce (g.number (g.binary op))))
    (hop : op ∈ operators) (ht : t ∈ operators) : g.Tighter .left t op := by
  rcases hchosen.eq_error_or_acts with herror | hacts
  · cases herror
  · obtain ⟨hitem, -⟩ := hg.has_of_acts_reduce hacts
    rw [h.body_binary hop] at hitem
    obtain ⟨next, hgoes⟩ := h.exists_goes_operator hg hop ht hitem
    exact (h.chosen_cases hg hchosen hop ht hgoes hitem).2.mp rfl

/-- The next operator is shifted only if it binds tighter on the right of the one before. -/
theorem tighter_of_shift (hchosen : g.Chosen a q t (.shift next)) (hop : op ∈ operators)
    (ht : t ∈ operators) (hitem : (g.automaton a).Has q ⟨g.number (g.binary op), 3⟩) :
    g.Tighter .right op t := by
  rcases hchosen.eq_error_or_acts with herror | hgoes
  · cases herror
  · exact (h.chosen_cases hg hchosen hop ht hgoes hitem).1.mp rfl

omit hg in
/-- An operator comes next in its rule only, behind the first operand. -/
theorem eq_of_next?_operator (ht : t ∈ operators) (hnext : item.next? g = some (.terminal t)) :
    item = ⟨g.number (g.binary t), 1⟩ := by
  obtain ⟨rule, hrule, hbody, hmem⟩ := exists_rule_of_next? hnext
  obtain ⟨r, dot⟩ := item
  rw [Item.next?, hbody] at hnext
  rcases h.rule_cases hrule with ⟨-, rfl⟩ | ⟨-, rfl⟩ | ⟨op, -, hr, rfl⟩
  · simp at hmem
  · obtain rfl : t = atom := by simpa [lone] using hmem
    exact absurd ht (List.nodup_cons.mp h.distinct).1
  · obtain rfl : t = op := by simpa [binary] using hmem
    obtain rfl : r = g.number (g.binary t) := hr
    rcases dot with _ | _ | _ | dot <;> simp [binary] at hnext ⊢

/-- A state with the rule of an operator in front is the initial one, or behind an operator. -/
theorem exists_opening (hitem : (g.automaton a).Has q ⟨g.number (g.binary op), 0⟩) :
    ∃ m ∈ g.openings operators, (g.automaton a).Has q m := by
  obtain ⟨items, hlayout, hitems⟩ := h.exists_layout hg hitem
  simp only [hitems] at hitem ⊢
  cases hlayout with
  | atom hmem => cases congrArg Item.dot ((hmem _).mp hitem)
  | @before m hm hmem => exact ⟨m, hm, (hmem m).mpr (.inl rfl)⟩
  | behind hm hmem =>
    rcases (hmem _).mp hitem with heq | hcontinuation
    · cases congrArg Item.dot heq
    · obtain ⟨_, -, heq⟩ := List.mem_map.mp hcontinuation
      cases congrArg Item.dot heq

/-- Where an operator comes next, behind another terminal and some symbol, these are an operator and
its second operand. -/
theorem has_second_operand {p p' : StateId} {before : TerminalId} {symbol : Symbol}
    (hbefore : (g.automaton a).Goes p' (.terminal before) p)
    (hgoes : (g.automaton a).Goes p symbol q) (ht : t ∈ operators)
    (hnext : (g.automaton a).Goes q (.terminal t) next) :
    before ∈ operators ∧ (g.automaton a).Has q ⟨g.number (g.binary before), 3⟩ := by
  obtain ⟨s, hs, ⟨item, hitem, hterminal⟩, -⟩ := hg.goes_iff.mp hnext
  obtain rfl := h.eq_of_next?_operator ht hterminal
  obtain ⟨hfront, hsymbol⟩ := hg.has_before hgoes ⟨s, hs, hitem⟩
  obtain rfl := Option.some.inj ((h.next?_binary ht).1.symm.trans hsymbol)
  obtain ⟨m, hm, hhas⟩ := h.exists_opening hg hfront
  obtain ⟨s', hs', hkernel⟩ := hg.has_advance hhas (h.next?_opening hm).1 hgoes
  rcases List.mem_cons.mp hm with rfl | hm
  · rw [hg.eq_initialState_of_has hhas] at hbefore
    exact absurd hbefore hg.not_goes_initialState
  · obtain ⟨op, hop, rfl⟩ := List.mem_map.mp hm
    obtain ⟨-, hterminal⟩ := hg.has_before hbefore hhas
    rw [(h.next?_binary hop).2] at hterminal
    obtain rfl := Symbol.terminal.inj (Option.some.inj hterminal)
    exact ⟨hop, s', hs', Built.mem_items_of_mem_kernel hkernel⟩

end Infix

end Grammar

end OperatorLALR
