import OperatorLALR.Automaton.Lookahead
import OperatorLALR.Proofs.Automaton.Propagation

/-!
# Follow sets are sound and settled

A round over the kernel items of all states adds to the follow sets only what may come behind their
nonterminals (`FollowsOnly`), and the rounds end at sets to which no kernel item has anything to add
(`Built.followSets_settled`).
-/

namespace OperatorLALR

variable {g : Grammar} {a : Analysis} {m : Automaton} {follows : FollowSets} {p q : StateId}
  {n target : NonterminalId} {t : TerminalId} {item : Item} {place : Nat}

/-- An update that leaves the value under its key as it is changes nothing. -/
theorem OrderedMap.update_eq_self {κ ν : Type} [DecidableEq κ] {m : OrderedMap κ ν} {k : κ} {v : ν}
    {f : Option ν → ν} (hv : m.find? k = some v) (hf : f (some v) = v) : m.update k f = m := by
  obtain ⟨entries⟩ := m
  refine congrArg OrderedMap.mk ?_
  change OrderedMap.findIn k entries = some v at hv
  induction entries with
  | nil => cases hv
  | cons e entries ih =>
    obtain ⟨k', v'⟩ := e
    rw [OrderedMap.findIn] at hv
    rw [OrderedMap.updateIn]
    split
    · next hk =>
      rw [if_pos hk] at hv
      rw [Option.some.inj hv, hf]
    · next hk =>
      rw [if_neg hk] at hv
      rw [ih hv]

/-- A modification by several steps is made step by step. -/
theorem modify_foldl {α β : Type} (xs : Array α) (i : Nat) (f : α → β → α) (bs : List β) :
    (xs.modify i fun x => bs.foldl f x) = bs.foldl (fun xs b => xs.modify i fun x => f x b) xs := by
  induction bs generalizing xs with
  | nil =>
    refine Array.ext_getElem? fun j => ?_
    simp [Array.getElem?_modify]
  | cons b bs ih =>
    rw [List.foldl_cons, ← ih]
    refine Array.ext_getElem? fun j => ?_
    rw [Array.getElem?_modify, Array.getElem?_modify, Array.getElem?_modify]
    split
    · rw [Option.map_map]
      rfl
    · rfl

/-- The members of a union of sets. -/
theorem mem_unionAll {sets : List TerminalSet} :
    t ∈ TerminalSet.unionAll sets ↔ ∃ set ∈ sets, t ∈ set := by
  have hfold : ∀ init : TerminalSet,
      t ∈ sets.foldl (· ∪ ·) init ↔ t ∈ init ∨ ∃ set ∈ sets, t ∈ set := by
    induction sets with
    | nil => simp
    | cons set sets ih =>
      intro init
      rw [List.foldl_cons, ih, IndexSet.mem_union, List.exists_mem_cons_iff, or_assoc]
  rw [TerminalSet.unionAll, hfold, or_iff_right (IndexSet.mem_empty t)]

/-- What may be known of follow sets: that there is one, or a terminal in it. -/
inductive FollowFact where
  | known (q : StateId) (n : NonterminalId)
  | terminal (q : StateId) (n : NonterminalId) (t : TerminalId)

/-- A fact holds of the follow sets. -/
def FollowFact.Holds (follows : FollowSets) : FollowFact → Prop
  | .known q n => ∃ set, follows.get? q n = some set
  | .terminal q n t => ∃ set, follows.get? q n = some set ∧ t ∈ set

/-- The facts that there may be about the follow sets of an automaton. -/
def followFacts (m : Automaton) (g : Grammar) : List FollowFact :=
  m.stateIds.flatMap fun q => g.nonterminalIds.flatMap fun n =>
    .known q n :: g.terminalIds.map (.terminal q n)

/-- There are as many facts as rounds are allowed for. -/
theorem length_followFacts (m : Automaton) (g : Grammar) :
    (followFacts m g).length =
      m.states.size * (g.nonterminals.length * (g.terminals.length + 1)) := by
  rw [followFacts, List.length_flatMap]
  simp [Automaton.stateIds, Grammar.nonterminalIds, Grammar.terminalIds, Index.length_below,
    List.map_const']

theorem mem_followFacts {u : FollowFact} :
    u ∈ followFacts m g ↔ match u with
      | .known q n => q.val < m.states.size ∧ n.val < g.nonterminals.length
      | .terminal q n t => q.val < m.states.size ∧ n.val < g.nonterminals.length ∧
          t.val < g.terminals.length := by
  cases u <;>
    simp [followFacts, Automaton.stateIds, Grammar.nonterminalIds, Grammar.terminalIds,
      Index.mem_below]

/-- The follow sets with some terminals added to that of a nonterminal. -/
def addFollow (q : StateId) (follows : FollowSets) (e : NonterminalId × TerminalSet) : FollowSets :=
  follows.modify q.val fun row => row.update e.1 fun set => set.getD ∅ ∪ e.2

/-- The follow sets after an addition. -/
theorem get?_addFollow {e : NonterminalId × TerminalSet} {q' : StateId} {set : TerminalSet} :
    (addFollow q follows e).get? q' n = some set ↔
      if q' = q ∧ n = e.1 then q.val < follows.size ∧ ((follows.get? q n).getD ∅ ∪ e.2) = set
      else follows.get? q' n = some set := by
  rw [FollowSets.get?, addFollow, Array.getElem?_modify]
  by_cases hq : q' = q
  · subst hq
    rw [if_pos rfl]
    by_cases hlt : q'.val < follows.size
    · rw [FollowSets.get?, Array.getElem?_eq_getElem hlt, Option.map_some, Option.bind_some,
        OrderedMap.find?_update]
      by_cases hn : n = e.1
      · simp [hn, hlt]
      · simp [hn, Ne.symm hn]
    · rw [FollowSets.get?, Array.getElem?_eq_none (Nat.le_of_not_lt hlt)]
      simp [hlt]
  · rw [if_neg fun heq => hq (Index.ext heq.symm), if_neg fun h => hq h.1]
    rfl

/-- Facts about the follow sets after an addition. -/
theorem holds_addFollow_iff {e : NonterminalId × TerminalSet} (hq : q.val < follows.size)
    {u : FollowFact} : FollowFact.Holds (addFollow q follows e) u ↔
      FollowFact.Holds follows u ∨ match u with
        | .known q' n => q' = q ∧ n = e.1
        | .terminal q' n t => q' = q ∧ n = e.1 ∧ t ∈ e.2 := by
  cases u with
  | known q' n =>
    simp only [FollowFact.Holds, get?_addFollow]
    by_cases h : q' = q ∧ n = e.1
    · simp [h, hq]
    · simp [h]
  | terminal q' n t =>
    simp only [FollowFact.Holds, get?_addFollow]
    by_cases h : q' = q ∧ n = e.1
    · obtain ⟨rfl, rfl⟩ := h
      cases follows.get? q' e.1 <;> simp [hq]
    · simp only [h, if_false]
      have hnot : ¬ (q' = q ∧ n = e.1 ∧ t ∈ e.2) := fun h' => h ⟨h'.1, h'.2.1⟩
      simp [hnot]

/-- The addition of terminals that are all there changes nothing. -/
theorem addFollow_eq_self {e : NonterminalId × TerminalSet} {set : TerminalSet}
    (hset : follows.get? q e.1 = some set) (hall : ∀ t ∈ e.2, t ∈ set) :
    addFollow q follows e = follows := by
  refine Array.ext_getElem? fun j => ?_
  rw [addFollow, Array.getElem?_modify]
  split
  · next hj =>
    subst hj
    obtain ⟨row, hrow, hfind⟩ := Option.bind_eq_some_iff.mp hset
    rw [hrow, Option.map_some, OrderedMap.update_eq_self hfind]
    exact IndexSet.union_eq_left hall
  · rfl

/-- The follow sets hold only what may come behind their nonterminals. -/
structure FollowsOnly (m : Automaton) (g : Grammar) (follows : FollowSets) : Prop where
  size : follows.size = m.states.size
  sound : ∀ q n t, FollowFact.Holds follows (.terminal q n t) → m.Follows g q n t

namespace Grammar.Built

/-- Adding what may come behind a nonterminal keeps the follow sets sound, and grows them. -/
theorem addFollow (h : g.Built a) (hfollows : FollowsOnly (g.automaton a) g follows)
    (hq : q.val < (g.automaton a).states.size) {e : NonterminalId × TerminalSet}
    (hdeclared : e.1.val < g.nonterminals.length)
    (he : ∀ t ∈ e.2, (g.automaton a).Follows g q e.1 t) :
    FollowsOnly (g.automaton a) g (addFollow q follows e) ∧
      Grows FollowFact.Holds (followFacts (g.automaton a) g) follows
        (OperatorLALR.addFollow q follows e) := by
  have hq' : q.val < follows.size := hfollows.size ▸ hq
  refine ⟨⟨?_, ?_⟩, fun u hu => (holds_addFollow_iff hq').mpr (.inl hu), ?_⟩
  · rw [← hfollows.size]
    exact Array.size_modify
  · intro q' n t ht
    rcases (holds_addFollow_iff hq').mp ht with hold | ⟨rfl, rfl, hnew⟩
    · exact hfollows.sound q' n t hold
    · exact he t hnew
  · intro hne
    by_cases hknown : FollowFact.Holds follows (.known q e.1)
    · obtain ⟨set, hset⟩ := hknown
      have hnew : ∃ t ∈ e.2, t ∉ set := by
        by_contra hall
        refine hne (addFollow_eq_self hset fun t ht => ?_)
        by_contra hnot
        exact hall ⟨t, ht, hnot⟩
      obtain ⟨t, ht, hnot⟩ := hnew
      refine ⟨.terminal q e.1 t, mem_followFacts.mpr ⟨hq, hdeclared, ?_⟩, ?_, ?_⟩
      · exact h.follows_declared (he t ht)
      · exact (holds_addFollow_iff hq').mpr (.inr ⟨rfl, rfl, ht⟩)
      · rintro ⟨set', hset', hmem⟩
        rw [hset] at hset'
        exact hnot (Option.some.inj hset' ▸ hmem)
    · exact ⟨.known q e.1, mem_followFacts.mpr ⟨hq, hdeclared⟩,
        (holds_addFollow_iff hq').mpr (.inr ⟨rfl, rfl⟩), hknown⟩

/-- What may come behind the rule of an item, going by some follow sets: what follows the head of
the rule in the states where walks to the item start. -/
def After (g : Grammar) (a : Analysis) (follows : FollowSets) (q : StateId) (item : Item)
    (t : TerminalId) : Prop :=
  item.rule = acceptRule ∧ t = endOfInput ∨ item.rule ≠ acceptRule ∧
    ∃ p, Origin (g.states a) p q item ∧ FollowFact.Holds follows (.terminal p (g.left item.rule) t)

/-- The terminals that may come behind the rule of an item. -/
theorem mem_afterRule (h : g.Built a) {s : State} (hs : (g.automaton a).state? q = some s)
    (hitem : s.items[place]? = some item) :
    t ∈ (g.automaton a).afterRule g follows q item place ↔ After g a follows q item t := by
  rw [Automaton.afterRule, After]
  split
  · next hrule => simp [hrule]
  · next hrule =>
    rw [mem_unionAll]
    simp only [hrule, false_and, false_or, not_false_eq_true, true_and, ne_eq, List.mem_filterMap,
      IndexSet.mem_toList, h.mem_predsAt hs hitem]
    constructor
    · rintro ⟨set, ⟨p, hp, hset⟩, ht⟩
      exact ⟨p, hp, set, hset, ht⟩
    · rintro ⟨p, hp, set, hset, ht⟩
      exact ⟨set, ⟨p, hp, hset⟩, ht⟩

/-- What may come behind the rule of an item going by sound follow sets may come there. -/
theorem look_of_after (h : g.Built a) (hfollows : FollowsOnly (g.automaton a) g follows)
    (hitem : (g.automaton a).Has q item) (hafter : After g a follows q item t) :
    (g.automaton a).Look g q item t := by
  rcases hafter with ⟨hrule, rfl⟩ | ⟨-, p, horigin, ht⟩
  · exact h.look_accept hitem hrule
  · refine h.look_of_origin horigin (look_of_follows (hfollows.sound _ _ _ ht) ?_)
    obtain ⟨hrule, -⟩ := mem_allItems.mp (h.mem_allItems_of_has hitem)
    have hsome : g.rule? item.rule = some g.rules[item.rule.val] := List.getElem?_eq_getElem hrule
    exact mem_rulesOf.mpr ⟨_, hsome, (left_eq hsome).symm⟩

/-- What an item lets follow the target of some chains from the nonterminal behind its dot. -/
theorem mem_followedBy (h : g.Built a) {outer : TerminalSet} {bucket : ChainBucket} :
    t ∈ g.followedBy a item outer bucket ↔ t ∈ bucket.first ∨ bucket.nullable = true ∧
      (g.Begins (item.rest g) t ∨ g.Vanishes (item.rest g) ∧ t ∈ outer) := by
  have hvanishes : a.vanishes (item.rest g) = true ↔ g.Vanishes (item.rest g) :=
    Analysis.vanishes_iff h.wellFormed h.analysed
  have hfirst : t ∈ a.firstTerminals (item.rest g) ↔ g.Begins (item.rest g) t :=
    Analysis.mem_firstTerminals h.wellFormed h.analysed
  rw [followedBy, ← hvanishes, ← hfirst]
  cases bucket.nullable <;> cases a.vanishes (item.rest g) <;> simp

/-- What an item of a state lets follow a nonterminal may come behind it there. -/
theorem follows_of_followedBy (h : g.Built a) (hitem : (g.automaton a).Has q item)
    (hnext : item.next? g = some (.nonterminal n)) {outer : TerminalSet} {bucket : ChainBucket}
    (houter : ∀ t ∈ outer, (g.automaton a).Look g q item t)
    (hbucket : (target, bucket) ∈ a.chainsFrom n)
    (ht : t ∈ g.followedBy a item outer bucket) : (g.automaton a).Follows g q target t := by
  rw [Analysis.mem_chainsFrom] at hbucket
  rcases h.mem_followedBy.mp ht with ht | ⟨hnullable, ht⟩
  · obtain ⟨tail, hchain, hbegins⟩ :=
      Analysis.exists_chain_of_mem_first h.wellFormed h.analysed hbucket ht
    exact h.follows_of_begins hchain hbegins hitem hnext
  · obtain ⟨tail, hchain, hvanishes⟩ :=
      Analysis.exists_chain_of_nullable h.wellFormed h.analysed hbucket hnullable
    refine h.follows_of_vanishes hchain hvanishes ⟨item, hitem, hnext, ?_⟩
    exact ht.imp_right fun ⟨hrest, ht⟩ => ⟨hrest, houter t ht⟩

/-- What a kernel item adds to the follow sets, nonterminal by nonterminal. -/
def additions (g : Grammar) (a : Analysis) (follows : FollowSets) (q : StateId) (item : Item)
    (place : Nat) (n : NonterminalId) : List (NonterminalId × TerminalSet) :=
  (a.chainsFrom n).map fun e =>
    (e.1, g.followedBy a item ((g.automaton a).afterRule g follows q item place) e.2)

/-- A kernel item makes its additions one after the other. -/
theorem addFollows_eq (hnext : item.next? g = some (.nonterminal n)) :
    (g.automaton a).addFollows g a q follows item place =
      (additions g a follows q item place n).foldl (OperatorLALR.addFollow q) follows := by
  rw [Automaton.addFollows, hnext]
  simp only
  rw [modify_foldl, additions, List.foldl_map]
  rfl

/-- The additions of a kernel item keep the follow sets sound, and grow them. -/
theorem additions_grow (h : g.Built a) (hfollows : FollowsOnly (g.automaton a) g follows)
    {s : State} (hs : (g.automaton a).state? q = some s) (hitem : s.kernel[place]? = some item)
    (hnext : item.next? g = some (.nonterminal n)) :
    ∀ e ∈ additions g a follows q item place n, ∀ follows,
      FollowsOnly (g.automaton a) g follows →
        FollowsOnly (g.automaton a) g (OperatorLALR.addFollow q follows e) ∧
          Grows FollowFact.Holds (followFacts (g.automaton a) g) follows
            (OperatorLALR.addFollow q follows e) := by
  intro e he follows' hfollows'
  obtain ⟨⟨target, bucket⟩, hbucket, rfl⟩ := List.mem_map.mp he
  have hitems : s.items[place]? = some item := getElem?_of_kernel hitem
  have hhas : (g.automaton a).Has q item := ⟨s, hs, List.mem_of_getElem? hitems⟩
  have hq : q.val < (g.automaton a).states.size := (Array.getElem?_eq_some_iff.mp hs).1
  have hdeclared : target.val < g.nonterminals.length := by
    obtain ⟨tail, hchain⟩ := Analysis.exists_chain h.wellFormed h.analysed
      (Analysis.mem_chainsFrom.mp hbucket)
    exact hchain.target_lt h.wellFormed (h.wellFormed.declares_next hnext).2
  refine h.addFollow hfollows' hq hdeclared fun t ht => ?_
  refine h.follows_of_followedBy hhas hnext (fun t ht => ?_) hbucket ht
  exact h.look_of_after hfollows hhas ((h.mem_afterRule hs hitems).mp ht)

/-- A kernel item keeps the follow sets sound, and grows them. -/
theorem addFollows (h : g.Built a) (hfollows : FollowsOnly (g.automaton a) g follows)
    {s : State} (hs : (g.automaton a).state? q = some s) (hitem : s.kernel[place]? = some item) :
    FollowsOnly (g.automaton a) g ((g.automaton a).addFollows g a q follows item place) ∧
      Grows FollowFact.Holds (followFacts (g.automaton a) g) follows
        ((g.automaton a).addFollows g a q follows item place) := by
  have hstay : (∀ n, item.next? g ≠ some (.nonterminal n)) →
      (g.automaton a).addFollows g a q follows item place = follows := by
    intro hnot
    rw [Automaton.addFollows]
    split
    · next n hnext => exact absurd hnext (hnot n)
    · rfl
  by_cases hnext : ∃ n, item.next? g = some (.nonterminal n)
  · obtain ⟨n, hnext⟩ := hnext
    rw [addFollows_eq hnext]
    exact Grows.foldl (P := FollowsOnly (g.automaton a) g)
      (h.additions_grow hfollows hs hitem hnext) hfollows
  · rw [hstay fun n hn => hnext ⟨n, hn⟩]
    exact ⟨hfollows, .refl follows⟩

/-- The kernel items of a state keep the follow sets sound, and grow them. -/
theorem addFollows_each (h : g.Built a) {s : State} (hs : (g.automaton a).state? q = some s) :
    ∀ e ∈ s.kernel.zipIdx, ∀ follows, FollowsOnly (g.automaton a) g follows →
      FollowsOnly (g.automaton a) g ((g.automaton a).addFollows g a q follows e.1 e.2) ∧
        Grows FollowFact.Holds (followFacts (g.automaton a) g) follows
          ((g.automaton a).addFollows g a q follows e.1 e.2) :=
  fun _ he _ hfollows => h.addFollows hfollows hs (List.mem_zipIdx_iff_getElem?.mp he)

/-- The states, one after the other, keep the follow sets sound, and grow them. -/
theorem extendFollows_each (h : g.Built a) :
    ∀ e ∈ (g.automaton a).numbered, ∀ follows, FollowsOnly (g.automaton a) g follows →
      FollowsOnly (g.automaton a) g (e.2.kernel.zipIdx.foldl
          (fun follows k => (g.automaton a).addFollows g a e.1 follows k.1 k.2) follows) ∧
        Grows FollowFact.Holds (followFacts (g.automaton a) g) follows (e.2.kernel.zipIdx.foldl
          (fun follows k => (g.automaton a).addFollows g a e.1 follows k.1 k.2) follows) :=
  fun _ he _ hfollows => Grows.foldl (P := FollowsOnly (g.automaton a) g)
    (h.addFollows_each (Automaton.mem_numbered.mp he)) hfollows

/-- At first nothing follows. -/
theorem followsOnly_start (m : Automaton) (g : Grammar) :
    FollowsOnly m g (m.states.map fun _ => ∅) := by
  refine ⟨Array.size_map, ?_⟩
  rintro q n t ⟨set, hset, -⟩
  rw [FollowSets.get?, Array.getElem?_map, Option.bind_eq_some_iff] at hset
  obtain ⟨row, hrow, hfind⟩ := hset
  obtain ⟨s, -, rfl⟩ := Option.map_eq_some_iff.mp hrow
  cases hfind

/-- The follow sets are sound, and one more round would not change them. -/
theorem followSets_spec (h : g.Built a) :
    FollowsOnly (g.automaton a) g ((g.automaton a).followSets g a) ∧
      (g.automaton a).extendFollows g a ((g.automaton a).followSets g a) =
        (g.automaton a).followSets g a := by
  have hround : ∀ follows, FollowsOnly (g.automaton a) g follows →
      FollowsOnly (g.automaton a) g ((g.automaton a).extendFollows g a follows) ∧
        Grows FollowFact.Holds (followFacts (g.automaton a) g) follows
          ((g.automaton a).extendFollows g a follows) :=
    fun _ hfollows => Grows.foldl (P := FollowsOnly (g.automaton a) g) h.extendFollows_each hfollows
  constructor
  · exact stabilize_induction (P := FollowsOnly (g.automaton a) g) (fun _ hf => (hround _ hf).1) _
      (followsOnly_start _ g)
  · refine stabilize_fixed_of_grows (P := FollowsOnly (g.automaton a) g) hround
      (followsOnly_start _ g) ?_
    rw [length_followFacts]
    exact Nat.lt_succ_self _

/-- No kernel item has anything to add to the follow sets. -/
theorem addFollows_followSets (h : g.Built a) {s : State}
    (hs : (g.automaton a).state? q = some s) (hitem : s.kernel[place]? = some item) :
    (g.automaton a).addFollows g a q ((g.automaton a).followSets g a) item place =
      (g.automaton a).followSets g a := by
  obtain ⟨hsound, hfixed⟩ := h.followSets_spec
  have hstate := Grows.foldl_fixed (P := FollowsOnly (g.automaton a) g) h.extendFollows_each hsound
    hfixed (q, s) (Automaton.mem_numbered.mpr hs)
  exact Grows.foldl_fixed (P := FollowsOnly (g.automaton a) g) (h.addFollows_each hs) hsound hstate
    (item, place) (List.mem_zipIdx_iff_getElem?.mpr hitem)

/-- What a kernel item lets follow a nonterminal is in the follow set. -/
theorem followSets_settled (h : g.Built a) {s : State}
    (hs : (g.automaton a).state? q = some s) (hitem : s.kernel[place]? = some item)
    (hnext : item.next? g = some (.nonterminal n)) {bucket : ChainBucket}
    (hbucket : (target, bucket) ∈ a.chainsFrom n)
    (ht : t ∈ g.followedBy a item ((g.automaton a).afterRule g
      ((g.automaton a).followSets g a) q item place) bucket) :
    FollowFact.Holds ((g.automaton a).followSets g a) (.terminal q target t) := by
  obtain ⟨hsound, -⟩ := h.followSets_spec
  have hfixed := h.addFollows_followSets hs hitem
  rw [addFollows_eq hnext] at hfixed
  have hq : q.val < ((g.automaton a).followSets g a).size := by
    rw [hsound.size]
    exact (Array.getElem?_eq_some_iff.mp hs).1
  have hadded := Grows.foldl_fixed (P := FollowsOnly (g.automaton a) g)
    (h.additions_grow hsound hs hitem hnext) hsound hfixed _ (List.mem_map.mpr ⟨_, hbucket, rfl⟩)
  rw [← hadded]
  exact (holds_addFollow_iff hq).mpr (.inr ⟨rfl, rfl, ht⟩)

end Grammar.Built

end OperatorLALR
