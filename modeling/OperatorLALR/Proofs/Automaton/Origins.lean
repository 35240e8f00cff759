import OperatorLALR.Automaton.Predecessors
import OperatorLALR.Proofs.Growth

/-!
# Predecessor sets are exact

A walk over the symbols before the dot of an item starts in a state that has the item's rule with
the dot in front (`Origin`). The predecessor sets of an automaton are the least ones closed under
both rules, and a member of one is where such a walk starts (`mem_predsAt_iff`): what a round adds
comes from a walk (`OriginsOnly`), and a round that changes nothing has nothing to add.
-/

namespace OperatorLALR

/-- A transition of a state moves an item on to another state. -/
def State.Moves (s : State) (item : Item) (q : StateId) : Prop :=
  ∃ t ∈ s.transitions, ∃ place ∈ t.items, s.items[place]? = some item ∧ t.next = some q

/-- A walk over the symbols before the dot of an item leads from one state to another. -/
inductive Origin (states : Array State) (p : StateId) : StateId → Item → Prop
  | own {s : State} {item : Item} (hs : states[p.val]? = some s) (hitem : item ∈ s.items)
      (hdot : item.dot = 0) : Origin states p p item
  | step {q next : StateId} {s : State} {item : Item} (h : Origin states p q item)
      (hs : states[q.val]? = some s) (hmoves : s.Moves item next) :
      Origin states p next item.advance

/-- Walks start in states. -/
theorem Origin.lt_size {states : Array State} {p q : StateId} {item : Item}
    (h : Origin states p q item) : p.val < states.size := by
  induction h with
  | own hs _ _ => exact (Array.getElem?_eq_some_iff.mp hs).1
  | step _ _ _ ih => exact ih

/-- A walk to an item with the dot in front has not left its state. -/
theorem Origin.eq_of_dot {states : Array State} {p q : StateId} {item : Item}
    (h : Origin states p q item) (hdot : item.dot = 0) : p = q := by
  cases h with
  | own => rfl
  | step => cases hdot

/-- The items of a kernel stand first in their state. -/
theorem getElem?_of_kernel {s : State} {item : Item} {place : Nat}
    (h : s.kernel[place]? = some item) : s.items[place]? = some item := by
  rw [State.kernel, List.getElem?_take] at h
  split at h
  · exact h
  · cases h

/-- An item that is looked up in a kernel stands at the place in the state. -/
theorem getElem?_of_idxOf?_kernel {s : State} {item : Item} {place : Nat}
    (h : s.kernel.idxOf? item = some place) : s.items[place]? = some item := by
  obtain ⟨hlt, heq, -⟩ := List.idxOf?_eq_some_iff.mp h
  exact getElem?_of_kernel (List.getElem?_eq_some_iff.mpr ⟨hlt, heq⟩)

/-- The set for the item at a place of a state. -/
def setAt (preds : Predecessors) (q : StateId) (place : Nat) : StateSet :=
  ((preds[q.val]?).bind fun sets => sets[place]?).getD ∅

/-- What may be known of predecessors: a state, a place in it, and a predecessor. -/
abbrev PredecessorFact := StateId × Nat × StateId

/-- A state is known as a predecessor. -/
def PredecessorFact.Holds (preds : Predecessors) (u : PredecessorFact) : Prop :=
  u.2.2 ∈ setAt preds u.1 u.2.1

/-- The facts that there may be about the states of an automaton. -/
def predecessorFacts (states : Array State) : List PredecessorFact :=
  states.toList.zipIdx.flatMap fun (s, q) =>
    (List.range s.items.length).flatMap fun place =>
      (Index.below states.size).map fun p => (⟨q⟩, place, p)

/-- There are as many facts as rounds are allowed for. -/
theorem length_predecessorFacts (states : Array State) :
    (predecessorFacts states).length = totalItems states * states.size := by
  have hsum : ∀ (ss : List State) (n k : Nat),
      ((ss.zipIdx n).map fun e => e.1.items.length * states.size).sum + k * states.size =
        ss.foldl (fun n s => n + s.items.length) k * states.size := by
    intro ss
    induction ss with
    | nil => simp
    | cons s ss ih =>
      intro n k
      rw [List.zipIdx_cons, List.map_cons, List.sum_cons, List.foldl_cons, ← ih (n + 1),
        Nat.add_mul]
      dsimp only
      omega
  have hfacts := hsum states.toList 0 0
  rw [Nat.zero_mul, Nat.add_zero] at hfacts
  rw [predecessorFacts, List.length_flatMap, totalItems, ← Array.foldl_toList, ← hfacts]
  congr 1
  refine List.map_congr_left fun e _ => ?_
  simp [Index.length_below, List.map_const']

theorem mem_predecessorFacts {states : Array State} {q p : StateId} {place : Nat} {s : State}
    (hs : states[q.val]? = some s) (hplace : place < s.items.length) (hp : p.val < states.size) :
    (q, place, p) ∈ predecessorFacts states := by
  refine List.mem_flatMap.mpr ⟨(s, q.val), List.mem_zipIdx_iff_getElem?.mpr ?_, ?_⟩
  · rw [Array.getElem?_toList]
    exact hs
  · refine List.mem_flatMap.mpr ⟨place, List.mem_range.mpr hplace, ?_⟩
    exact List.mem_map.mpr ⟨p, Index.mem_below.mpr hp, rfl⟩

/-- There is one set for each item of each state, and walks lead from its members to the item. -/
structure OriginsOnly (states : Array State) (preds : Predecessors) : Prop where
  shape : ∀ q : Nat, (preds[q]?).map List.length = (states[q]?).map fun s => s.items.length
  origins : ∀ (q p : StateId) (s : State) (place : Nat) (item : Item),
    states[q.val]? = some s → s.items[place]? = some item → p ∈ setAt preds q place →
      Origin states p q item

namespace OriginsOnly

variable {states : Array State} {preds preds' : Predecessors} {q p : StateId} {s : State}
  {place : Nat} {item : Item} {sets : List StateSet}

/-- A state has its sets. -/
theorem exists_sets (h : OriginsOnly states preds) (hs : states[q.val]? = some s) :
    ∃ sets, preds[q.val]? = some sets ∧ sets.length = s.items.length := by
  have hshape := h.shape q.val
  rw [hs, Option.map_some, Option.map_eq_some_iff] at hshape
  exact hshape

/-- Predecessors are there for items of states only. -/
theorem exists_item (h : OriginsOnly states preds) (hp : p ∈ setAt preds q place) :
    ∃ s item, states[q.val]? = some s ∧ s.items[place]? = some item := by
  rw [setAt] at hp
  have hshape := h.shape q.val
  cases hsets : preds[q.val]? with
  | none =>
    rw [hsets] at hp
    exact absurd hp (IndexSet.mem_empty p)
  | some sets =>
    rw [hsets, Option.map_some, eq_comm, Option.map_eq_some_iff] at hshape
    obtain ⟨s, hs, hlength⟩ := hshape
    rw [hsets, Option.bind_some] at hp
    cases hset : sets[place]? with
    | none =>
      rw [hset] at hp
      exact absurd hp (IndexSet.mem_empty p)
    | some set =>
      have hlt : place < s.items.length := by
        rw [hlength]
        exact (List.getElem?_eq_some_iff.mp hset).1
      exact ⟨s, _, hs, List.getElem?_eq_getElem hlt⟩

/-- What is known is among the facts that there may be. -/
theorem mem_facts (h : OriginsOnly states preds) (hp : p ∈ setAt preds q place) :
    (q, place, p) ∈ predecessorFacts states := by
  obtain ⟨s, item, hs, hitem⟩ := h.exists_item hp
  have horigin := h.origins q p s place item hs hitem hp
  exact mem_predecessorFacts hs (List.getElem?_eq_some_iff.mp hitem).1 horigin.lt_size

/-- Sets with the same members are the same. -/
theorem ext (h : OriginsOnly states preds) (h' : OriginsOnly states preds')
    (hmem : ∀ q place p, p ∈ setAt preds' q place ↔ p ∈ setAt preds q place) : preds' = preds := by
  refine Array.ext_getElem? fun q => ?_
  have hlengths := (h'.shape q).trans (h.shape q).symm
  cases hsets : preds[q]? with
  | none =>
    rw [hsets] at hlengths
    exact Option.map_eq_none_iff.mp hlengths
  | some sets =>
    rw [hsets, Option.map_some, Option.map_eq_some_iff] at hlengths
    obtain ⟨sets', hsets', hlength⟩ := hlengths
    rw [hsets']
    refine congrArg some (List.ext_getElem hlength fun place hplace' hplace => ?_)
    refine IndexSet.ext_mem fun p => ?_
    have hp := hmem ⟨q⟩ place p
    simpa only [setAt, hsets, hsets', Option.bind_some, List.getElem?_eq_getElem hplace,
      List.getElem?_eq_getElem hplace', Option.getD_some] using hp

/-- Sets that lose no member grow. -/
theorem grows (h : OriginsOnly states preds) (h' : OriginsOnly states preds')
    (hkeeps : ∀ q place p, p ∈ setAt preds q place → p ∈ setAt preds' q place) :
    Grows PredecessorFact.Holds (predecessorFacts states) preds preds' := by
  refine ⟨fun u => hkeeps u.1 u.2.1 u.2.2, ?_⟩
  intro hne
  by_contra hgain
  refine hne (h.ext h' fun q place p => ⟨fun hp => ?_, hkeeps q place p⟩)
  by_contra hnot
  exact hgain ⟨(q, place, p), h'.mem_facts hp, hp, hnot⟩

/-- At first there are no predecessors. -/
theorem start (states : Array State) : OriginsOnly states (noPredecessors states) := by
  constructor
  · intro q
    rw [noPredecessors, Array.getElem?_map, Option.map_map]
    congr 1
    funext s
    exact List.length_map _
  · intro q p s place item hs hitem hp
    have hset : setAt (noPredecessors states) q place = ∅ := by
      rw [setAt, noPredecessors, Array.getElem?_map, hs, Option.map_some, Option.bind_some,
        List.getElem?_map, hitem]
      rfl
    rw [hset] at hp
    exact absurd hp (IndexSet.mem_empty p)

/-- The members of the sets after the states have added themselves. -/
theorem mem_own (h : OriginsOnly states preds) :
    p ∈ setAt (addOwnStates states preds) q place ↔ p ∈ setAt preds q place ∨
      p = q ∧ ∃ s item, states[q.val]? = some s ∧ s.items[place]? = some item ∧ item.dot = 0 := by
  rw [setAt, addOwnStates, Array.getElem?_mapIdx, setAt]
  cases hs : states[q.val]? with
  | none =>
    have hshape := h.shape q.val
    rw [hs, Option.map_none, Option.map_eq_none_iff] at hshape
    simp [hshape]
  | some s =>
    obtain ⟨sets, hsets, hlength⟩ := h.exists_sets hs
    rw [hsets, Option.map_some, Option.bind_some, Option.bind_some, List.getElem?_zipWith]
    by_cases hplace : place < s.items.length
    · rw [List.getElem?_eq_getElem hplace, List.getElem?_eq_getElem (hlength ▸ hplace)]
      simp only [Option.getD_some, addOwnState, Option.some.injEq, exists_and_left,
        exists_eq_left', List.getElem?_eq_getElem hplace]
      split
      · next hdot => simp only [IndexSet.mem_insert, hdot, and_true, or_comm]
      · next hdot => simp only [hdot, and_false, or_false]
    · rw [List.getElem?_eq_none (Nat.le_of_not_lt hplace),
        List.getElem?_eq_none (hlength ▸ Nat.le_of_not_lt hplace)]
      simp [List.getElem?_eq_none (Nat.le_of_not_lt hplace)]

/-- The members of the sets after an item of a kernel has received some. -/
theorem mem_receive (h : OriginsOnly states preds) {set : StateSet} {q' : StateId} :
    p ∈ setAt (receive states preds (q, item, set)) q' place ↔ p ∈ setAt preds q' place ∨
      q' = q ∧ p ∈ set ∧ ∃ s, states[q.val]? = some s ∧ s.kernel.idxOf? item = some place := by
  rw [receive]
  cases hs : states[q.val]? with
  | none => simp
  | some s =>
    obtain ⟨sets, hsets, hlength⟩ := h.exists_sets hs
    rw [Option.bind_some]
    cases hidx : s.kernel.idxOf? item with
    | none => simp [hidx]
    | some i =>
      have hi : i < sets.length := by
        obtain ⟨hi, -⟩ := List.idxOf?_eq_some_iff.mp hidx
        rw [State.kernel, List.length_take] at hi
        omega
      rw [setAt, Array.getElem?_modify]
      by_cases hq : q.val = q'.val
      · obtain rfl : q = q' := Index.ext hq
        rw [if_pos rfl, setAt, hsets, Option.map_some, Option.bind_some, Option.bind_some,
          getElem?_modify_eq]
        by_cases hplace : i = place
        · subst hplace
          simp [hidx, List.getElem?_eq_getElem hi]
        · simp [hidx, hplace]
      · have hne : q' ≠ q := fun heq => hq (congrArg Index.val heq.symm)
        rw [if_neg hq, setAt]
        simp [hne]

/-- The states add themselves to the sets of their items with the dot in front. -/
theorem own (h : OriginsOnly states preds) :
    OriginsOnly states (addOwnStates states preds) ∧
      Grows PredecessorFact.Holds (predecessorFacts states) preds (addOwnStates states preds) := by
  have hown : OriginsOnly states (addOwnStates states preds) := by
    constructor
    · intro q
      rw [addOwnStates, Array.getElem?_mapIdx, Option.map_map]
      cases hs : states[q]? with
      | none =>
        have hshape := h.shape q
        rw [hs, Option.map_none, Option.map_eq_none_iff] at hshape
        rw [hshape, Option.map_none, Option.map_none]
      | some s =>
        obtain ⟨sets, hsets, hlength⟩ := h.exists_sets (q := ⟨q⟩) hs
        rw [hsets, Option.map_some, Option.map_some, Function.comp_apply, List.length_zipWith,
          hlength, Nat.min_self]
    · intro q p s place item hs hitem hp
      rcases h.mem_own.mp hp with hp | ⟨rfl, s', item', hs', hitem', hdot⟩
      · exact h.origins q p s place item hs hitem hp
      · rw [hs] at hs'
        obtain rfl := Option.some.inj hs'
        rw [hitem] at hitem'
        obtain rfl := Option.some.inj hitem'
        exact .own hs (List.mem_of_getElem? hitem) hdot
  exact ⟨hown, h.grows hown fun _ _ _ hp => h.mem_own.mpr (.inl hp)⟩

/-- Receiving states from which walks lead to an item. -/
theorem received (h : OriginsOnly states preds) {set : StateSet}
    (hset : ∀ p ∈ set, Origin states p q item) :
    OriginsOnly states (receive states preds (q, item, set)) := by
  constructor
  · intro q'
    rw [receive]
    split
    · rw [Array.getElem?_modify]
      split
      · rw [← h.shape q', Option.map_map]
        congr 1
        funext sets
        exact List.length_modify _ _ _
      · exact h.shape q'
    · exact h.shape q'
  · intro q' p s place item' hs hitem hp
    rcases h.mem_receive.mp hp with hp | ⟨rfl, hp, s', hs', hidx⟩
    · exact h.origins q' p s place item' hs hitem hp
    · rw [hs] at hs'
      obtain rfl := Option.some.inj hs'
      have hsame := getElem?_of_idxOf?_kernel hidx
      rw [hitem] at hsame
      rw [Option.some.inj hsame]
      exact hset p hp

/-- What the items of a state hand on: an item that a transition moves on, and the set for it. -/
theorem mem_handsOn {sets : List StateSet} {set : StateSet} :
    (q, item, set) ∈ s.handsOn sets ↔ ∃ t ∈ s.transitions, t.next = some q ∧
      ∃ place ∈ t.items, ∃ old, s.items[place]? = some old ∧ sets[place]? = some set ∧
        old.advance = item := by
  rw [State.handsOn, List.mem_flatMap]
  refine exists_congr fun t => and_congr_right fun _ => ?_
  cases t.next with
  | none => simp
  | some next =>
    rw [List.mem_filterMap]
    constructor
    · rintro ⟨place, hplace, hhands⟩
      split at hhands
      · next old set' hold hset =>
        simp only [Option.some.injEq, Prod.mk.injEq] at hhands
        obtain ⟨rfl, rfl, rfl⟩ := hhands
        exact ⟨rfl, place, hplace, old, hold, hset, rfl⟩
      · cases hhands
    · rintro ⟨hnext, place, hplace, old, hold, hset, rfl⟩
      obtain rfl := Option.some.inj hnext
      exact ⟨place, hplace, by simp only [hold, hset]⟩

/-- What all states hand on: an item that a transition moves on, and the set for it. -/
theorem mem_handovers {next : StateId} {set : StateSet} :
    (next, item, set) ∈ handovers states preds ↔ ∃ (q : StateId) (s : State),
      states[q.val]? = some s ∧ (next, item, set) ∈ s.handsOn ((preds[q.val]?).getD []) := by
  rw [handovers, List.mem_flatMap]
  constructor
  · rintro ⟨⟨s, q⟩, hs, hhands⟩
    rw [List.mem_zipIdx_iff_getElem?, Array.getElem?_toList] at hs
    exact ⟨⟨q⟩, s, hs, hhands⟩
  · rintro ⟨q, s, hs, hhands⟩
    refine ⟨(s, q.val), ?_, hhands⟩
    rw [List.mem_zipIdx_iff_getElem?, Array.getElem?_toList]
    exact hs

/-- What is handed on are states from which walks lead. -/
theorem origin_of_handovers (h : OriginsOnly states preds) {next : StateId} {set : StateSet}
    (hhands : (next, item, set) ∈ handovers states preds) :
    ∀ p ∈ set, Origin states p next item := by
  obtain ⟨q, s, hs, hhands⟩ := mem_handovers.mp hhands
  obtain ⟨sets, hsets, -⟩ := h.exists_sets hs
  rw [hsets, Option.getD_some] at hhands
  obtain ⟨t, ht, hnext, place, hplace, old, hold, hset, rfl⟩ := mem_handsOn.mp hhands
  intro p hp
  have hmem : p ∈ setAt preds q place := by
    rw [setAt, hsets, Option.bind_some, hset]
    exact hp
  exact .step (h.origins q p s place old hs hold hmem) hs ⟨t, ht, place, hplace, hold, hnext⟩

/-- What is handed on is received. -/
theorem receive_each (h : OriginsOnly states preds) :
    ∀ e ∈ handovers states preds, ∀ preds', OriginsOnly states preds' →
      OriginsOnly states (receive states preds' e) ∧
        Grows PredecessorFact.Holds (predecessorFacts states) preds' (receive states preds' e) := by
  rintro ⟨next, item, set⟩ he preds' h'
  have hreceived := h'.received (h.origin_of_handovers he)
  exact ⟨hreceived, h'.grows hreceived fun _ _ _ hp => h'.mem_receive.mpr (.inl hp)⟩

/-- All states follow both rules. -/
theorem extend (h : OriginsOnly states preds) :
    OriginsOnly states (extendPredecessors states preds) ∧
      Grows PredecessorFact.Holds (predecessorFacts states) preds
        (extendPredecessors states preds) := by
  obtain ⟨hown, hgrows⟩ := h.own
  obtain ⟨hall, hgrows'⟩ := Grows.foldl (P := OriginsOnly states) hown.receive_each hown
  exact ⟨hall, hgrows.trans hgrows'⟩

/-- Where a round changes nothing, no state adds itself and nothing that is handed on is new. -/
theorem settled (h : OriginsOnly states preds) (hfixed : extendPredecessors states preds = preds) :
    addOwnStates states preds = preds ∧
      ∀ e ∈ handovers states preds, receive states preds e = preds := by
  obtain ⟨hown, hgrows⟩ := h.own
  obtain ⟨-, hback⟩ := Grows.foldl (P := OriginsOnly states) hown.receive_each hown
  change Grows _ _ _ (extendPredecessors states preds) at hback
  rw [hfixed] at hback
  have hsame : addOwnStates states preds = preds := hgrows.eq_of_back hback
  refine ⟨hsame, Grows.foldl_fixed (P := OriginsOnly states) h.receive_each h ?_⟩
  rwa [extendPredecessors, hsame] at hfixed

/-- Where states have added themselves, they are in the sets of their items with the dot in
front. -/
theorem own_mem (h : OriginsOnly states preds) (hsame : addOwnStates states preds = preds)
    (hs : states[q.val]? = some s) (hitem : s.items[place]? = some item) (hdot : item.dot = 0) :
    q ∈ setAt preds q place := by
  rw [← hsame]
  exact h.mem_own.mpr (.inr ⟨rfl, s, item, hs, hitem, hdot⟩)

/-- Where nothing that is handed on is new, the members of a set are in the next one. -/
theorem moved_mem (h : OriginsOnly states preds)
    (hsame : ∀ e ∈ handovers states preds, receive states preds e = preds)
    (hs : states[q.val]? = some s) (hitem : s.items[place]? = some item)
    (hp : p ∈ setAt preds q place) {next : StateId} {s' : State} {place' : Nat}
    (hmoves : s.Moves item next) (hnodup : s.items.Nodup) (hs' : states[next.val]? = some s')
    (hplace' : s'.kernel.idxOf? item.advance = some place') : p ∈ setAt preds next place' := by
  obtain ⟨sets, hsets, hlength⟩ := h.exists_sets hs
  obtain ⟨t, ht, i, hi, hitem', hnext⟩ := hmoves
  obtain rfl : i = place :=
    (List.getElem?_inj (List.getElem?_eq_some_iff.mp hitem').1 hnodup).mp (hitem'.trans hitem.symm)
  have hlt : i < sets.length := hlength ▸ (List.getElem?_eq_some_iff.mp hitem).1
  have hset : sets[i]? = some sets[i] := List.getElem?_eq_getElem hlt
  rw [setAt, hsets, Option.bind_some, hset, Option.getD_some] at hp
  have hhands : (next, item.advance, sets[i]) ∈ handovers states preds := by
    refine mem_handovers.mpr ⟨q, s, hs, ?_⟩
    rw [hsets, Option.getD_some]
    exact mem_handsOn.mpr ⟨t, ht, hnext, i, hi, item, hitem, hset, rfl⟩
  rw [← hsame _ hhands]
  exact h.mem_receive.mpr (.inr ⟨rfl, hp, s', hs', hplace'⟩)

end OriginsOnly

/-- Items of states stand once in them, and only kernels have items with the dot further on. -/
structure KernelsFirst (states : Array State) : Prop where
  nodup : ∀ (q : Nat) (s : State), states[q]? = some s → s.items.Nodup
  kernel : ∀ (q : Nat) (s : State) (item : Item), states[q]? = some s → item ∈ s.items →
    item.dot ≠ 0 → item ∈ s.kernel

variable {states : Array State} {p q : StateId} {s : State} {place : Nat} {item : Item}

/-- A further round adds nothing to the predecessor sets of an automaton. -/
theorem extendPredecessors_predecessors (states : Array State) :
    extendPredecessors states (predecessors states) = predecessors states := by
  refine stabilize_fixed_of_grows (P := OriginsOnly states) (fun _ h => h.extend)
    (.start states) ?_
  rw [length_predecessorFacts]
  exact Nat.lt_succ_self _

/-- The rounds in which predecessor sets grow come to an end. -/
theorem stabilizes_predecessors (states : Array State) :
    Stabilizes (extendPredecessors states) (noPredecessors states) (predecessors states) :=
  stabilizes_of_fixed (extendPredecessors_predecessors states)

/-- Walks lead from the members of predecessor sets. -/
theorem originsOnly_predecessors (states : Array State) :
    OriginsOnly states (predecessors states) :=
  stabilize_induction (P := OriginsOnly states) (fun _ h => h.extend.1) _ (.start states)

/-- The state where a walk starts is among the predecessors of the item to which it leads. -/
theorem mem_setAt_of_origin (hstates : KernelsFirst states) (h : Origin states p q item) :
    ∀ s place, states[q.val]? = some s → s.items[place]? = some item →
      p ∈ setAt (predecessors states) q place := by
  have hall := originsOnly_predecessors states
  obtain ⟨hown, hreceived⟩ := hall.settled (extendPredecessors_predecessors states)
  induction h with
  | own _ _ hdot =>
    intro s place hs hitem
    exact hall.own_mem hown hs hitem hdot
  | @step q next s item _ hs hmoves ih =>
    intro s' place' hs' hitem'
    obtain ⟨t, ht, place, hplace, hitem, hnext⟩ := hmoves
    have hkernel : item.advance ∈ s'.kernel :=
      hstates.kernel next.val s' _ hs' (List.mem_of_getElem? hitem') (Nat.succ_ne_zero _)
    obtain ⟨i, hi⟩ := Option.isSome_iff_exists.mp (List.isSome_idxOf?.mpr hkernel)
    have hmem := hall.moved_mem hreceived hs hitem (ih s place hs hitem)
      ⟨t, ht, place, hplace, hitem, hnext⟩ (hstates.nodup q.val s hs) hs' hi
    have hplace := getElem?_of_idxOf?_kernel hi
    obtain rfl : i = place' :=
      (List.getElem?_inj (List.getElem?_eq_some_iff.mp hplace).1
        (hstates.nodup next.val s' hs')).mp (hplace.trans hitem'.symm)
    exact hmem

/-- The predecessors of an item of a state are the states from which walks over the symbols before
its dot lead there. -/
theorem mem_predsAt_iff (hstates : KernelsFirst states) (hs : states[q.val]? = some s)
    (hitem : s.items[place]? = some item) :
    p ∈ (Automaton.mk states (predecessors states)).predsAt q place ↔ Origin states p q item := by
  change p ∈ setAt (predecessors states) q place ↔ _
  constructor
  · exact (originsOnly_predecessors states).origins q p s place item hs hitem
  · exact fun h => mem_setAt_of_origin hstates h s place hs hitem

end OperatorLALR
