import Mathlib.Data.Fintype.Option
import Mathlib.Data.Fintype.Prod
import OperatorLALR.Proofs.Analysis.Cycles
import OperatorLALR.Proofs.Automaton.Canonical
import OperatorLALR.Proofs.Grammar.Successes

/-!
# Grammars of powers

The grammar `S := aⁿ | bⁿ | …` has a rule for each of its terminals, and all bodies have one length.
Such grammars are defined up to the limits on indices and lengths (`define_powers`), and they are
analysed (`exists_analysis`). Each dot behind a terminal has a kernel of its own, so there are more
kernels than the product of the two numbers (`lt_size_kernels`), which may be far above each of the
limits.
-/

namespace OperatorLALR

/-- The rule that derives a power of the terminal with an index, counting from 0 behind the end of
the input. -/
def powerRule (n i : Nat) : Rule := ⟨⟨1⟩, List.replicate n (.terminal ⟨i + 1⟩), none⟩

/-- The rules for all terminals. -/
def powerRules (names : List String) (n : Nat) : List Rule :=
  (List.range names.length).map (powerRule n)

/-- The grammar `S := aⁿ | bⁿ | …` with a rule for each name of a terminal. -/
def powers (names : List String) (n : Nat) : Grammar where
  terminals := .endOfInput :: names.map (⟨·, none, .plain⟩)
  nonterminals := [augmentedStartName, "S"]
  rules := ⟨augmentedStart, [.nonterminal ⟨1⟩], none⟩ :: powerRules names n
  start := ⟨1⟩
  operators := ∅
  operatorTerminals := ∅

/-- The declarations that give the grammar. -/
def powerDeclarations (names : List String) (n : Nat) : List Declaration :=
  names.map (.terminal · none) ++ .nonterminal "S" ::
    (powerRules names n).map fun rule => .rule rule.left rule.body rule.tag

variable {names : List String} {n : Nat}

/-- The definition in which the symbols are declared, and some rules. -/
def powersDefinition (names : List String) (rules : List Rule) : Definition where
  terminals := .endOfInput :: names.map (⟨·, none, .plain⟩)
  nonterminals := [augmentedStartName, "S"]
  rules := rules
  start := none
  operators := ∅
  operatorTerminals := ∅

/-- Rules for different terminals have different bodies, unless these are empty. -/
theorem pairwise_powerRules (names : List String) (hpos : 0 < n) :
    (powerRules names n).Pairwise fun rule other =>
      (rule.left, rule.body) ≠ (other.left, other.body) := by
  refine List.pairwise_map.mpr (List.pairwise_lt_range.imp fun {i j} hlt heq => ?_)
  have hbodies : List.replicate n (Symbol.terminal ⟨i + 1⟩) =
      List.replicate n (.terminal ⟨j + 1⟩) := (Prod.mk.inj heq).2
  have hsymbols : Symbol.terminal ⟨i + 1⟩ = .terminal ⟨j + 1⟩ :=
    (List.replicate_right_inj (Nat.ne_of_gt hpos)).mp hbodies
  simp only [Symbol.terminal.injEq, Index.mk.injEq] at hsymbols
  omega

/-- The rule for a terminal is permitted once the symbols are declared. -/
theorem permits_powerRule {i : Nat} (hi : i < names.length) (hlength : n ≤ indexLimit) :
    (powersDefinition names []).Permits (powerRule n i) where
  left := rfl
  terminals := by
    intro t ht
    obtain rfl : t = ⟨i + 1⟩ := Symbol.terminal.inj (List.eq_of_mem_replicate ht)
    refine ⟨by simp [endOfInput], ⟨names[i], none, .plain⟩, ?_, rfl⟩
    simp [powersDefinition, hi]
  nonterminals := fun m hm => absurd (List.eq_of_mem_replicate hm) nofun
  length_body := by simpa [powerRule] using hlength
  tag := fun _ ht => by cases ht

/-- What a list of names has to be for the terminals of a grammar. -/
structure AreNames (names : List String) : Prop where
  nodup : names.Nodup
  ne_empty : ∀ name ∈ names, name ≠ ""
  ne_endOfInput : ∀ name ∈ names, name ≠ Terminal.endOfInput.name
  room : names.length < indexLimit

/-- All declarations succeed if the names are new and there are indices left. -/
theorem succeeds_powerDeclarations (h : AreNames names) (hpos : 0 < n) (hlength : n ≤ indexLimit) :
    Definition.Succeeds .initial (powerDeclarations names n)
      (powersDefinition names (powerRules names n)) := by
  have hroom : Definition.initial.terminals.length + names.length ≤ indexLimit := by
    have hlt := h.room
    change 1 + names.length ≤ indexLimit
    omega
  have hterminals := Definition.succeeds_terminals (d := .initial) h.ne_empty h.nodup
    (fun name hname t ht => by
      rw [List.mem_singleton.mp ht]
      exact (h.ne_endOfInput name hname).symm) hroom
  have hpermits : ∀ rule ∈ powerRules names n, (powersDefinition names []).Permits rule := by
    intro rule hrule
    obtain ⟨i, hi, rfl⟩ := List.mem_map.mp hrule
    exact permits_powerRule (List.mem_range.mp hi) hlength
  have hrules := Definition.succeeds_rules hpermits (fun _ _ => nofun)
    (pairwise_powerRules names hpos) (by simpa [powersDefinition, powerRules] using h.room)
  have hstep : Definition.declare { Definition.initial with
      terminals := Definition.initial.terminals ++ names.map (⟨·, none, .plain⟩) }
      (.nonterminal "S") = (.ok (.nonterminal ⟨1⟩), powersDefinition names []) := rfl
  exact hterminals.append (.cons hstep hrules)

/-- The start symbol is the one nonterminal in a body, and it has a rule if there is a terminal. -/
theorem ruleless?_powers (hne : names ≠ []) :
    Definition.ruleless? (powers names n).rules = none := by
  rw [Definition.ruleless?, List.find?_eq_none]
  intro m hm
  obtain ⟨rule, hrule, hbody⟩ := List.mem_flatMap.mp hm
  obtain ⟨symbol, hsymbol, heq⟩ := List.mem_filterMap.mp hbody
  rcases List.mem_cons.mp hrule with rfl | hrule
  · rw [List.mem_singleton.mp hsymbol] at heq
    obtain rfl : ⟨1⟩ = m := Option.some.inj heq
    have hfirst : powerRule n 0 ∈ (powers names n).rules := List.mem_cons_of_mem _
      (List.mem_map.mpr ⟨0, List.mem_range.mpr (List.length_pos_iff.mpr hne), rfl⟩)
    have hany : ((powers names n).rules.any fun rule => rule.left == ⟨1⟩) = true :=
      List.any_eq_true.mpr ⟨_, hfirst, rfl⟩
    simp [hany]
  · obtain ⟨i, -, rfl⟩ := List.mem_map.mp hrule
    rw [List.eq_of_mem_replicate hsymbol] at heq
    cases heq

/-- The definition gives the grammar if there is a rule. -/
theorem finish_powersDefinition (hne : names ≠ []) :
    (powersDefinition names (powerRules names n)).finish = .ok (powers names n) := by
  have hstart : (powersDefinition names (powerRules names n)).chosenStart = .ok ⟨1⟩ := rfl
  unfold Definition.finish
  rw [hstart]
  dsimp only
  split
  · next m hm => exact absurd (hm.symm.trans (ruleless?_powers hne)) (by simp)
  · rfl

/-- The grammar is defined. -/
theorem define_powers (h : AreNames names) (hne : names ≠ []) (hpos : 0 < n)
    (hlength : n ≤ indexLimit) :
    (Grammar.define (powerDeclarations names n)).2 = .ok (powers names n) :=
  (succeeds_powerDeclarations h hpos hlength).ofDeclared.trans (finish_powersDefinition hne)

/-- Where one item of a list has a symbol behind the dot, the kernel behind the symbol is that
item with its dot moved on. -/
theorem Grammar.kernelAfter_eq_singleton {g : Grammar} {items : List Item} {item : Item}
    {symbol : Symbol} (hitem : item ∈ items) (hnext : item.next? g = some symbol)
    (hunique : ∀ other ∈ items, other.next? g = some symbol → other = item) :
    g.kernelAfter items symbol = [item.advance] := by
  have hkernel : g.IsKernel [item.advance] :=
    ⟨List.pairwise_singleton _ _, fun other hother => by
      rw [List.mem_singleton.mp hother]
      exact advance_mem_allItems hnext⟩
  refine (isKernel_kernelAfter g items symbol).eq_of_mem_iff hkernel fun other => ?_
  rw [mem_kernelAfter, List.mem_singleton]
  constructor
  · rintro ⟨old, hold, hnext', rfl⟩
    rw [hunique old hold hnext']
  · rintro rfl
    exact ⟨item, hitem, hnext, rfl⟩

namespace Powers

/-- A rule of the grammar is that of the augmented start symbol or one for a terminal. -/
theorem rule?_eq_some_iff {r : RuleId} {rule : Rule} :
    (powers names n).rule? r = some rule ↔
      r = acceptRule ∧ rule = ⟨augmentedStart, [.nonterminal ⟨1⟩], none⟩ ∨
      ∃ i < names.length, r = ⟨i + 1⟩ ∧ rule = powerRule n i := by
  obtain ⟨r⟩ := r
  cases r with
  | zero => simp [Grammar.rule?, powers, acceptRule, eq_comm]
  | succ i =>
    simp only [Grammar.rule?, powers, powerRules, acceptRule, List.getElem?_cons_succ,
      List.getElem?_map, Option.map_eq_some_iff, Index.mk.injEq, List.getElem?_eq_some_iff,
      List.length_range, List.getElem_range, Nat.add_one_ne_zero, false_and, false_or]
    constructor
    · rintro ⟨_, ⟨hi, rfl⟩, rfl⟩
      exact ⟨i, hi, rfl, rfl⟩
    · rintro ⟨_, hi, hir, rfl⟩
      obtain rfl := Nat.succ.inj hir
      exact ⟨i, ⟨hi, rfl⟩, rfl⟩

theorem rule?_power {i : Nat} (hi : i < names.length) :
    (powers names n).rule? ⟨i + 1⟩ = some (powerRule n i) :=
  rule?_eq_some_iff.mpr (.inr ⟨i, hi, rfl, rfl⟩)

/-- Behind a dot within a body for a terminal stands that terminal. -/
theorem next?_eq_some_iff {i dot : Nat} {symbol : Symbol} (hi : i < names.length) :
    (Item.mk ⟨i + 1⟩ dot).next? (powers names n) = some symbol ↔
      dot < n ∧ symbol = .terminal ⟨i + 1⟩ := by
  rw [Item.next?, Grammar.body_eq (rule?_power hi), powerRule, List.getElem?_replicate]
  split
  · next hlt => simp [hlt, eq_comm]
  · next hge => simp [hge]

/-- A rule led by a nonterminal is that of the augmented start symbol. -/
theorem eq_of_led {r : RuleId} {rule : Rule} {m : NonterminalId} {rest : List Symbol}
    (hrule : (powers names n).rule? r = some rule) (hbody : rule.body = .nonterminal m :: rest) :
    rule.left = augmentedStart ∧ m = ⟨1⟩ := by
  rcases rule?_eq_some_iff.mp hrule with ⟨-, rfl⟩ | ⟨i, -, -, rfl⟩
  · obtain ⟨hm, -⟩ := List.cons.inj hbody
    exact ⟨rfl, (Symbol.nonterminal.inj hm).symm⟩
  · have hmem : Symbol.nonterminal m ∈ (powerRule n i).body := hbody ▸ List.mem_cons_self
    exact absurd (List.eq_of_mem_replicate hmem) nofun

/-- The grammar is analysed: no nonterminal is lifted to itself. -/
theorem exists_analysis (hg : (powers names n).WellFormed) :
    ∃ a, (powers names n).analyse = .ok a := by
  cases ha : (powers names n).analyse with
  | ok a => exact ⟨a, rfl⟩
  | error e =>
    have hlifts := (lifts_of_analyse hg ha).2
    obtain ⟨m, ⟨r, rule, rest, hrule, hleft, hbody, -⟩, -⟩ :=
      Relation.TransGen.head'_iff.mp hlifts
    obtain ⟨m', -, ⟨r', rule', rest', hrule', hleft', hbody', -⟩⟩ :=
      Relation.TransGen.tail'_iff.mp hlifts
    have hstart := (eq_of_led hrule hbody).1
    rw [hleft, (eq_of_led hrule' hbody').2] at hstart
    cases hstart

variable {a : Analysis}

/-- The items of the initial state that have a terminal behind the dot. -/
theorem eq_of_mem_initial (hg : (powers names n).WellFormed) (ha : (powers names n).analyse = .ok a)
    {item : Item} {t : TerminalId} (hitem : item ∈ (powers names n).itemsOf a initialKernel)
    (hnext : item.next? (powers names n) = some (.terminal t)) : item = ⟨⟨t.val⟩, 0⟩ := by
  have hstart := hg.next?_start
  rcases (Grammar.mem_itemsOf hg ha).mp hitem with hitem | ⟨_, _, m, rule, tail, -, hrule, -, hdot⟩
  · rw [List.mem_singleton.mp hitem, hstart] at hnext
    cases hnext
  · obtain ⟨r, dot⟩ := item
    obtain rfl : dot = 0 := hdot
    rcases rule?_eq_some_iff.mp hrule with ⟨hr, -⟩ | ⟨i, hi, hr, -⟩
    · obtain rfl : r = acceptRule := hr
      rw [hstart] at hnext
      cases hnext
    · obtain rfl : r = ⟨i + 1⟩ := hr
      obtain ⟨-, hsymbol⟩ := (next?_eq_some_iff hi).mp hnext
      rw [Symbol.terminal.inj hsymbol]

/-- A rule for a terminal is entered from the initial state. -/
theorem mem_kernelsAfter_initial (hg : (powers names n).WellFormed)
    (ha : (powers names n).analyse = .ok a) {i : Nat} (hi : i < names.length) (hpos : 0 < n) :
    [⟨⟨i + 1⟩, 1⟩] ∈ (powers names n).kernelsAfter a initialKernel := by
  have hnext : (Item.mk ⟨i + 1⟩ 0).next? (powers names n) = some (.terminal ⟨i + 1⟩) :=
    (next?_eq_some_iff hi).mpr ⟨hpos, rfl⟩
  have hitem : ⟨⟨i + 1⟩, 0⟩ ∈ (powers names n).itemsOf a initialKernel :=
    (Grammar.mem_itemsOf hg ha).mpr (.inr ⟨_, List.mem_singleton_self _, ⟨1⟩, powerRule n i, [],
      hg.next?_start, rule?_power hi, .nil _, rfl⟩)
  refine Grammar.mem_kernelsAfter.mpr ⟨.terminal ⟨i + 1⟩, ⟨_, hitem, hnext⟩, ?_⟩
  exact Grammar.kernelAfter_eq_singleton hitem hnext fun other hother hnext' =>
    eq_of_mem_initial hg ha hother hnext'

/-- Within a rule the dot goes on across one terminal after the other. -/
theorem mem_kernelsAfter_power {i dot : Nat} (hi : i < names.length) (hdot : dot < n) :
    [⟨⟨i + 1⟩, dot + 1⟩] ∈ (powers names n).kernelsAfter a [⟨⟨i + 1⟩, dot⟩] := by
  have hnext : (Item.mk ⟨i + 1⟩ dot).next? (powers names n) = some (.terminal ⟨i + 1⟩) :=
    (next?_eq_some_iff hi).mpr ⟨hdot, rfl⟩
  have hitems : (powers names n).itemsOf a [⟨⟨i + 1⟩, dot⟩] = [⟨⟨i + 1⟩, dot⟩] := by
    simp [Grammar.itemsOf, Grammar.closureItems, hnext, fresh]
  refine Grammar.mem_kernelsAfter.mpr ⟨.terminal ⟨i + 1⟩, ⟨⟨⟨i + 1⟩, dot⟩, ?_, hnext⟩, ?_⟩
  · rw [hitems]
    exact List.mem_singleton_self _
  · rw [hitems]
    exact Grammar.kernelAfter_eq_singleton (List.mem_singleton_self _) hnext
      fun other hother _ => List.mem_singleton.mp hother

/-- Each place in a rule for a terminal, behind the first, is the dot of a kernel of its own. -/
theorem mem_kernels (hg : (powers names n).WellFormed) (ha : (powers names n).analyse = .ok a)
    {i dot : Nat} (hi : i < names.length) (hdot : dot < n) :
    [⟨⟨i + 1⟩, dot + 1⟩] ∈ ((powers names n).kernels a).items := by
  induction dot with
  | zero =>
    have hfirst := Array.mem_of_getElem? (Grammar.kernels_zero (powers names n) a)
    exact Grammar.kernels_closed hg hfirst (mem_kernelsAfter_initial hg ha hi hdot)
  | succ dot ih =>
    exact Grammar.kernels_closed hg (ih (Nat.lt_of_succ_lt hdot)) (mem_kernelsAfter_power hi hdot)

/-- The kernel of a place in a rule for a terminal, or the initial kernel. -/
def kernelAt {m n : Nat} : Option (Fin m × Fin n) → Kernel
  | none => initialKernel
  | some (i, dot) => [⟨⟨i + 1⟩, dot + 1⟩]

theorem kernelAt_injective {m n : Nat} : Function.Injective (kernelAt (m := m) (n := n)) := by
  rintro (_ | ⟨i, dot⟩) (_ | ⟨i', dot'⟩) h
  · rfl
  · simp [kernelAt, initialKernel, acceptRule] at h
  · simp [kernelAt, initialKernel, acceptRule] at h
  · simpa [kernelAt, Fin.ext_iff] using h

/-- There are more kernels than places in all rules for terminals. -/
theorem lt_size_kernels (hg : (powers names n).WellFormed)
    (ha : (powers names n).analyse = .ok a) :
    names.length * n < ((powers names n).kernels a).items.size := by
  have hfound : ∀ x : Option (Fin names.length × Fin n),
      ∃ place : Fin ((powers names n).kernels a).items.size,
        ((powers names n).kernels a).items[place] = kernelAt x := by
    intro x
    have hmem : kernelAt x ∈ ((powers names n).kernels a).items := by
      cases x with
      | none => exact Array.mem_of_getElem? (Grammar.kernels_zero (powers names n) a)
      | some at' => exact mem_kernels hg ha at'.1.isLt at'.2.isLt
    obtain ⟨place, hplace, heq⟩ := Array.mem_iff_getElem.mp hmem
    exact ⟨⟨place, hplace⟩, heq⟩
  choose place hplace using hfound
  have hinjective : Function.Injective place := fun x y h =>
    kernelAt_injective (by rw [← hplace x, ← hplace y, h])
  have hcard := Fintype.card_le_of_injective place hinjective
  rwa [Fintype.card_option, Fintype.card_prod, Fintype.card_fin, Fintype.card_fin,
    Fintype.card_fin] at hcard

end Powers

end OperatorLALR
