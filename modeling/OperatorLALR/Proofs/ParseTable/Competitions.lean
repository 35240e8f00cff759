import OperatorLALR.Proofs.Automaton.Lookaheads
import OperatorLALR.ParseTable.Generated

/-!
# What competes in a state

In a state on a terminal compete the shift of the transition across the terminal and the reductions
by the complete rules that the terminal reaches by propagation, no more and no less
(`shiftOn_competitions`, `mem_reducesOn_competitions`).
-/

namespace OperatorLALR

/-- The state that a transition leads to if it is across a terminal. -/
def Transition.shift? (transition : Transition) (t : TerminalId) : Option StateId :=
  if transition.marker = some (.terminal t) then transition.next else none

namespace Competitions

/-- The state that a shift on a terminal leads to. -/
def shiftOn (cs : Competitions) (t : TerminalId) : Option StateId :=
  (cs.find? t).bind Competition.shift

/-- The rules that can be reduced on a terminal. -/
def reducesOn (cs : Competitions) (t : TerminalId) : List RuleId :=
  ((cs.find? t).map Competition.reduces).getD []

variable {cs : Competitions} {t : TerminalId} {r : RuleId}

/-- A reduction leaves the shifts as they are. -/
theorem shiftOn_addReduce (r : RuleId) (terminals : List TerminalId) (cs : Competitions) :
    shiftOn (State.addReduce r terminals cs) t = shiftOn cs t := by
  rw [State.addReduce]
  induction terminals generalizing cs with
  | nil => rfl
  | cons t' terminals ih =>
    rw [List.foldl_cons, ih, shiftOn, shiftOn, OrderedMap.find?_update]
    by_cases ht : t' = t
    · subst ht
      rw [if_pos rfl]
      cases cs.find? t' <;> rfl
    · rw [if_neg ht]

/-- A reduction is added on its terminals. -/
theorem mem_reducesOn_addReduce {r' : RuleId} {terminals : List TerminalId} :
    r' ∈ reducesOn (State.addReduce r terminals cs) t ↔
      r' ∈ reducesOn cs t ∨ r' = r ∧ t ∈ terminals := by
  rw [State.addReduce]
  induction terminals generalizing cs with
  | nil => simp
  | cons t' terminals ih =>
    rw [List.foldl_cons, ih, reducesOn, reducesOn, OrderedMap.find?_update]
    by_cases ht : t' = t
    · subst ht
      rw [if_pos rfl]
      cases cs.find? t' <;> grind [Competition.addReduce, Competition.none]
    · simp [ht, Ne.symm ht]

/-- The transitions of a state add no reductions. -/
theorem reducesOn_addShift (s : State) (cs : Competitions) (transition : Transition) :
    reducesOn (s.addShift cs transition) t = reducesOn cs t := by
  rw [State.addShift]
  split
  · next symbol next _ _ =>
    rw [reducesOn, reducesOn, OrderedMap.find?_update]
    by_cases ht : symbol = t
    · subst ht
      rw [if_pos rfl]
      cases cs.find? symbol <;> rfl
    · rw [if_neg ht]
  · rfl

/-- The shift of a transition takes the place of any other on its terminal. -/
theorem shiftOn_addShift (s : State) (cs : Competitions) (transition : Transition) :
    shiftOn (s.addShift cs transition) t = (transition.shift? t).or (shiftOn cs t) := by
  rw [State.addShift, Transition.shift?]
  split
  · next symbol next hmarker hnext =>
    rw [shiftOn, shiftOn, OrderedMap.find?_update, hmarker, hnext]
    by_cases ht : symbol = t
    · subst ht
      rw [if_pos rfl, if_pos rfl]
      rfl
    · have hne : some (Symbol.terminal symbol) ≠ some (Symbol.terminal t) := fun heq =>
        ht (Symbol.terminal.inj (Option.some.inj heq))
      rw [if_neg ht, if_neg hne, Option.none_or]
  · next hnone =>
    split
    · next hmarker =>
      cases hnext : transition.next with
      | none => rfl
      | some next => exact absurd hnext (hnone _ _ hmarker)
    · rfl

/-- The last transition across a terminal is its shift. -/
theorem shiftOn_foldl_addShift (s : State) (transitions : List Transition) (cs : Competitions) :
    shiftOn (transitions.foldl s.addShift cs) t =
      (transitions.reverse.findSome? fun transition => transition.shift? t).or (shiftOn cs t) := by
  induction transitions generalizing cs with
  | nil => rfl
  | cons transition transitions ih =>
    rw [List.foldl_cons, ih, shiftOn_addShift, List.reverse_cons, List.findSome?_append,
      List.findSome?_singleton, Option.or_assoc]

/-- Reductions leave the shifts as they are. -/
theorem shiftOn_foldl_addReduce (l : LookaheadSets) (q : StateId) (items : List (Nat × Item))
    (cs : Competitions) :
    shiftOn (items.foldl (fun cs (_, item) =>
      State.addReduce item.rule (State.reduceTerminals l q item.rule) cs) cs) t = shiftOn cs t := by
  induction items generalizing cs with
  | nil => rfl
  | cons item items ih => rw [List.foldl_cons, ih, shiftOn_addReduce]

/-- Transitions add no reductions. -/
theorem reducesOn_foldl_addShift (s : State) (transitions : List Transition) (cs : Competitions) :
    reducesOn (transitions.foldl s.addShift cs) t = reducesOn cs t := by
  induction transitions generalizing cs with
  | nil => rfl
  | cons transition transitions ih => rw [List.foldl_cons, ih, reducesOn_addShift]

/-- The reductions on a terminal are those by the rules that are reduced on it. -/
theorem mem_reducesOn_foldl_addReduce {l : LookaheadSets} {q : StateId}
    {items : List (Nat × Item)} :
    r ∈ reducesOn (items.foldl (fun cs (_, item) =>
      State.addReduce item.rule (State.reduceTerminals l q item.rule) cs) cs) t ↔
      r ∈ reducesOn cs t ∨
        ∃ item ∈ items, item.2.rule = r ∧ t ∈ State.reduceTerminals l q r := by
  induction items generalizing cs with
  | nil => simp
  | cons item items ih =>
    rw [List.foldl_cons, ih, mem_reducesOn_addReduce, List.exists_mem_cons_iff, or_assoc]
    refine or_congr_right (or_congr_left ?_)
    constructor
    · rintro ⟨rfl, ht⟩
      exact ⟨rfl, ht⟩
    · rintro ⟨rfl, ht⟩
      exact ⟨rfl, ht⟩

/-- Every terminal has one competition. -/
theorem nodup_keys (s : State) (l : LookaheadSets) (q : StateId) :
    (s.competitions l q).keys.Nodup := by
  have hshifts : (s.transitions.foldl s.addShift ∅).keys.Nodup := by
    refine List.foldlRecOn (motive := fun cs : Competitions => cs.keys.Nodup) _ _ List.nodup_nil ?_
    intro cs hcs transition _
    rw [State.addShift]
    split
    · exact OrderedMap.nodup_keys_update hcs _ _
    · exact hcs
  rw [State.competitions]
  refine List.foldlRecOn (motive := fun cs : Competitions => cs.keys.Nodup) _ _ hshifts ?_
  rintro cs hcs ⟨place, item⟩ _
  exact List.foldlRecOn (motive := fun cs : Competitions => cs.keys.Nodup) _ _ hcs
    fun cs' hcs' t _ => OrderedMap.nodup_keys_update hcs' t _

end Competitions

namespace Grammar.Built

variable {g : Grammar} {a : Analysis} {q : StateId} {s : State} {t : TerminalId} {r : RuleId}

/-- The shift of a transition is along it. -/
theorem goes_iff_shift? (hs : (g.automaton a).state? q = some s) {next : StateId} :
    (g.automaton a).Goes q (.terminal t) next ↔
      ∃ transition ∈ s.transitions, transition.shift? t = some next := by
  simp only [Transition.shift?, Option.ite_none_right_eq_some]
  constructor
  · rintro ⟨s', hs', transition, hmem, hmarker, hnext⟩
    obtain rfl := Option.some.inj (hs.symm.trans hs')
    exact ⟨transition, hmem, hmarker, hnext⟩
  · rintro ⟨transition, hmem, hmarker, hnext⟩
    exact ⟨s, hs, transition, hmem, hmarker, hnext⟩

/-- A state reduces by a complete rule on the terminals that the item is reached by. -/
theorem mem_reduceTerminals (h : g.Built a) (hs : (g.automaton a).state? q = some s) {place : Nat}
    {item : Item} (hitem : (place, item) ∈ s.completeItems) :
    t ∈ State.reduceTerminals ((g.automaton a).lookaheadSets g a) q item.rule ↔
      (g.automaton a).Look g q item t := by
  obtain ⟨hplace, hnext⟩ := (h.mem_completeItems hs).mp hitem
  have hhas : (g.automaton a).Has q item := ⟨s, hs, List.mem_of_getElem? hplace⟩
  rw [State.reduceTerminals]
  split
  · next hrule =>
    rw [List.mem_singleton]
    constructor
    · rintro rfl
      exact h.look_accept hhas hrule
    · intro hlook
      obtain ⟨-, ⟨-, ht⟩ | ⟨hne, -⟩⟩ := h.justified_of_look hlook
      · exact ht
      · exact absurd hrule hne
  · rw [h.get?_lookaheadSets hs hplace hnext, Option.map_some, Option.getD_some,
      IndexSet.mem_toList, h.mem_afterRule hs hplace]
    constructor
    · exact h.look_of_after h.followSets_spec.1 hhas
    · exact fun hlook => h.after_of_justified (h.justified_of_look hlook).2

/-- The shift on a terminal is along the transition of the automaton. -/
theorem shiftOn_competitions (h : g.Built a) (hs : (g.automaton a).state? q = some s)
    (l : LookaheadSets) {next : StateId} :
    Competitions.shiftOn (s.competitions l q) t = some next ↔
      (g.automaton a).Goes q (.terminal t) next := by
  have hlast : Competitions.shiftOn (s.competitions l q) t =
      s.transitions.reverse.findSome? fun transition => transition.shift? t := by
    rw [State.competitions, Competitions.shiftOn_foldl_addReduce,
      Competitions.shiftOn_foldl_addShift]
    exact Option.or_none
  rw [hlast]
  have hsound : ∀ next', (s.transitions.reverse.findSome? fun transition => transition.shift? t) =
      some next' → (g.automaton a).Goes q (.terminal t) next' := by
    intro next' hfound
    obtain ⟨transition, hmem, hshift⟩ := List.exists_of_findSome?_eq_some hfound
    exact (goes_iff_shift? hs).mpr ⟨transition, List.mem_reverse.mp hmem, hshift⟩
  refine ⟨hsound next, fun hgoes => ?_⟩
  obtain ⟨transition, hmem, hshift⟩ := (goes_iff_shift? hs).mp hgoes
  cases hfound : s.transitions.reverse.findSome? fun transition => transition.shift? t with
  | none =>
    have hnone := List.findSome?_eq_none_iff.mp hfound transition (List.mem_reverse.mpr hmem)
    rw [hshift] at hnone
    cases hnone
  | some next' => rw [h.goes_unique (hsound next' hfound) hgoes]

/-- The reductions on a terminal are by the complete rules that it reaches. -/
theorem mem_reducesOn_competitions (h : g.Built a) (hs : (g.automaton a).state? q = some s) :
    r ∈ Competitions.reducesOn (s.competitions ((g.automaton a).lookaheadSets g a) q) t ↔
      (g.automaton a).Look g q ⟨r, (g.body r).length⟩ t := by
  have hnone : ¬ r ∈ Competitions.reducesOn (∅ : Competitions) t := List.not_mem_nil
  rw [State.competitions, Competitions.mem_reducesOn_foldl_addReduce,
    Competitions.reducesOn_foldl_addShift, or_iff_right hnone]
  constructor
  · rintro ⟨⟨place, item⟩, hitem, rfl, ht⟩
    have hlook := (h.mem_reduceTerminals hs hitem).mp ht
    obtain ⟨hplace, hnext⟩ := (h.mem_completeItems hs).mp hitem
    have hdot := h.dot_of_complete ⟨s, hs, List.mem_of_getElem? hplace⟩ hnext
    rw [← hdot]
    exact hlook
  · intro hlook
    obtain ⟨⟨s', hs', hmem⟩, -⟩ := h.justified_of_look hlook
    obtain rfl := Option.some.inj (hs.symm.trans hs')
    obtain ⟨place, hplace⟩ := List.mem_iff_getElem?.mp hmem
    have hnext : (Item.mk r (g.body r).length).next? g = none :=
      List.getElem?_eq_none (Nat.le_refl _)
    have hitem := (h.mem_completeItems hs).mpr ⟨hplace, hnext⟩
    exact ⟨(place, ⟨r, (g.body r).length⟩), hitem, rfl, (h.mem_reduceTerminals hs hitem).mpr hlook⟩

end Grammar.Built

end OperatorLALR
