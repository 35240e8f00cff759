import Mathlib.Data.List.ProdSigma
import OperatorLALR.Analysis.Basic
import OperatorLALR.Proofs.Grammar.Derivation
import OperatorLALR.Proofs.Grammar.WellFormed
import OperatorLALR.Proofs.Growth
import OperatorLALR.Proofs.Traversal

/-!
# Nullability and first sets are exact

The sets that the analysis of a well-formed grammar computes are those that derivations define: a
list of symbols is found nullable if it vanishes (`allNullable_iff`), and the terminals found for it
are those that begin it (`mem_firstOfSymbols_iff`). Each set is sound at every stage of its
iteration, and complete at the fixed point, by induction along a derivation from its end.
`firsts_exact` has this for the analysis, with the rounds in which it is found.
-/

namespace OperatorLALR

namespace Grammar

variable {g : Grammar} {xs ys : List Symbol} {nullable : NonterminalSet}
  {firsts : List TerminalSet} {t : TerminalId}

/-- The rules of a grammar are those with an index. -/
theorem mem_rules {rule : Rule} : rule ∈ g.rules ↔ ∃ r, g.rule? r = some rule := by
  rw [List.mem_iff_getElem?]
  exact ⟨fun ⟨i, hi⟩ => ⟨⟨i⟩, hi⟩, fun ⟨r, hr⟩ => ⟨r.val, hr⟩⟩

/-- Heads of rules are nonterminals of the grammar. -/
theorem WellFormed.left_lt (hg : g.WellFormed) {rule : Rule} (hrule : rule ∈ g.rules) :
    rule.left.val < g.nonterminals.length := by
  obtain ⟨r, hr⟩ := mem_rules.mp hrule
  by_cases hne : r = acceptRule
  · subst hne
    rw [hg.accept] at hr
    rw [← Option.some.inj hr]
    exact hg.nonterminals_pos
  · exact (hg.left r rule hr hne).2

/-- A nonterminal in front is nullable, and so are the others. -/
theorem allNullable_nonterminal {n : NonterminalId} :
    allNullable nullable (.nonterminal n :: xs) = true ↔
      n ∈ nullable ∧ allNullable nullable xs = true := by
  rw [allNullable, List.all_cons, Bool.and_eq_true]
  rfl

/-- Two lists are nullable together if each of them is. -/
theorem allNullable_append :
    allNullable nullable (xs ++ ys) = true ↔
      allNullable nullable xs = true ∧ allNullable nullable ys = true := by
  rw [allNullable, List.all_append, Bool.and_eq_true]
  rfl

/-- Lists of vanishing nonterminals vanish. -/
theorem vanishes_of_allNullable (hsound : ∀ n ∈ nullable, g.Vanishes [.nonterminal n])
    (h : allNullable nullable xs = true) : g.Vanishes xs := by
  induction xs with
  | nil => exact vanishes_nil
  | cons symbol xs ih =>
    cases symbol with
    | terminal t => cases h
    | nonterminal n =>
      obtain ⟨hn, hxs⟩ := allNullable_nonterminal.mp h
      exact vanishes_append.mpr ⟨hsound n hn, ih hxs⟩

/-- One rule adds a vanishing nonterminal, if any. -/
theorem extendNullable_step (hg : g.WellFormed) {rule : Rule} (hrule : rule ∈ g.rules)
    (hsound : ∀ n ∈ nullable, g.Vanishes [.nonterminal n]) :
    (∀ n ∈ (if allNullable nullable rule.body then nullable.insert rule.left else nullable),
        g.Vanishes [.nonterminal n]) ∧
      Grows (fun (s : NonterminalSet) n => n ∈ s) g.nonterminalIds nullable
        (if allNullable nullable rule.body then nullable.insert rule.left else nullable) := by
  split
  · next hbody =>
    refine ⟨?_, IndexSet.grows_insert (Index.mem_below.mpr (hg.left_lt hrule))⟩
    intro n hn
    rcases IndexSet.mem_insert.mp hn with rfl | hn
    · obtain ⟨r, hr⟩ := mem_rules.mp hrule
      exact vanishes_rule hr (vanishes_of_allNullable hsound hbody)
    · exact hsound n hn
  · exact ⟨hsound, .refl nullable⟩

/-- One round adds vanishing nonterminals, if any. -/
theorem extendNullable_grows (hg : g.WellFormed)
    (hsound : ∀ n ∈ nullable, g.Vanishes [.nonterminal n]) :
    (∀ n ∈ g.extendNullable nullable, g.Vanishes [.nonterminal n]) ∧
      Grows (fun (s : NonterminalSet) n => n ∈ s) g.nonterminalIds nullable
        (g.extendNullable nullable) :=
  Grows.foldl (P := fun s => ∀ n ∈ s, g.Vanishes [.nonterminal n])
    (fun _ hrule _ hsound => extendNullable_step hg hrule hsound) hsound

/-- A further round adds nothing to the nonterminals found nullable. -/
theorem extendNullable_nullableSet (hg : g.WellFormed) :
    g.extendNullable g.nullableSet = g.nullableSet := by
  refine stabilize_fixed_of_grows (P := fun s => ∀ n ∈ s, g.Vanishes [.nonterminal n])
    (fun _ hsound => extendNullable_grows hg hsound)
    (fun n hn => absurd hn (IndexSet.mem_empty n)) ?_
  rw [nonterminalIds, Index.length_below]
  exact Nat.lt_succ_self _

/-- Nonterminals found nullable vanish, and no rule adds further ones. -/
theorem nullableSet_spec (hg : g.WellFormed) :
    (∀ n ∈ g.nullableSet, g.Vanishes [.nonterminal n]) ∧
      ∀ rule ∈ g.rules, allNullable g.nullableSet rule.body = true →
        rule.left ∈ g.nullableSet := by
  have hsound : ∀ n ∈ g.nullableSet, g.Vanishes [.nonterminal n] :=
    stabilize_induction (P := fun s => ∀ n ∈ s, g.Vanishes [.nonterminal n])
      (fun _ hsound => (extendNullable_grows hg hsound).1) (g.nonterminals.length + 1)
      (fun n hn => absurd hn (IndexSet.mem_empty n))
  refine ⟨hsound, ?_⟩
  intro rule hrule hbody
  have hstep := Grows.foldl_fixed (P := fun s => ∀ n ∈ s, g.Vanishes [.nonterminal n])
    (fun _ hrule _ hsound => extendNullable_step hg hrule hsound) hsound
    (extendNullable_nullableSet hg) rule hrule
  rw [if_pos hbody] at hstep
  rw [← hstep]
  exact IndexSet.mem_insert.mpr (.inl rfl)

/-- What derives a nullable list is nullable. -/
theorem allNullable_of_rewrites
    (hclosed : ∀ rule ∈ g.rules, allNullable nullable rule.body = true → rule.left ∈ nullable)
    (h : g.Rewrites xs ys) (hys : allNullable nullable ys = true) :
    allNullable nullable xs = true := by
  induction h with
  | @head r rule hrule rest =>
    obtain ⟨hbody, hrest⟩ := allNullable_append.mp hys
    exact allNullable_nonterminal.mpr ⟨hclosed rule (mem_rules.mpr ⟨r, hrule⟩) hbody, hrest⟩
  | tail symbol _ ih =>
    cases symbol with
    | terminal t => cases hys
    | nonterminal n =>
      obtain ⟨hn, hys⟩ := allNullable_nonterminal.mp hys
      exact allNullable_nonterminal.mpr ⟨hn, ih hys⟩

/-- A list of symbols is found nullable exactly if it vanishes. -/
theorem allNullable_iff (hg : g.WellFormed) :
    allNullable g.nullableSet xs = true ↔ g.Vanishes xs := by
  obtain ⟨hsound, hclosed⟩ := nullableSet_spec hg
  refine ⟨vanishes_of_allNullable hsound, ?_⟩
  intro h
  induction h using Relation.ReflTransGen.head_induction_on with
  | refl => rfl
  | head hstep _ ih => exact allNullable_of_rewrites hclosed hstep ih

/-- A terminal is in the set of a nonterminal. -/
def InFirst (firsts : List TerminalSet) (u : NonterminalId × TerminalId) : Prop :=
  ∃ set, firsts[u.1.val]? = some set ∧ u.2 ∈ set

/-- The terminals found for a nonterminal are those of its set. -/
theorem mem_firstOfSymbol_nonterminal {n : NonterminalId} :
    t ∈ firstOfSymbol firsts (.nonterminal n) ↔ InFirst firsts (n, t) := by
  rw [firstOfSymbol, InFirst]
  cases firsts[n.val]? with
  | none => simp
  | some set => simp

/-- The terminals found for a nonterminal in front are those of its set, and those of the rest if
it is nullable. -/
theorem mem_firstOfSymbols_nonterminal {n : NonterminalId} :
    t ∈ firstOfSymbols nullable firsts (.nonterminal n :: xs) ↔
      InFirst firsts (n, t) ∨ n ∈ nullable ∧ t ∈ firstOfSymbols nullable firsts xs := by
  have hfirst : t ∈ (firsts[n.val]?).getD ∅ ↔ InFirst firsts (n, t) :=
    mem_firstOfSymbol_nonterminal
  rw [firstOfSymbols]
  split
  · next hn => rw [IndexSet.mem_union, hfirst, and_iff_right (IndexSet.contains_iff.mp hn)]
  · next hn =>
    have hn' : n ∉ nullable := hn
    simp [hfirst, hn']

/-- The terminal found for a terminal in front is that terminal. -/
theorem mem_firstOfSymbols_terminal {t' : TerminalId} :
    t ∈ firstOfSymbols nullable firsts (.terminal t' :: xs) ↔ t = t' := by
  rw [firstOfSymbols, IndexSet.mem_ofList, List.mem_singleton]

/-- The terminals found for two lists are those of the first, and those of the second if the first
is nullable. -/
theorem mem_firstOfSymbols_append :
    t ∈ firstOfSymbols nullable firsts (xs ++ ys) ↔ t ∈ firstOfSymbols nullable firsts xs ∨
      allNullable nullable xs = true ∧ t ∈ firstOfSymbols nullable firsts ys := by
  induction xs with
  | nil => simp [firstOfSymbols, allNullable]
  | cons symbol xs ih =>
    cases symbol with
    | terminal t' =>
      rw [List.cons_append, mem_firstOfSymbols_terminal, mem_firstOfSymbols_terminal]
      simp [allNullable]
    | nonterminal n =>
      rw [List.cons_append, mem_firstOfSymbols_nonterminal, mem_firstOfSymbols_nonterminal, ih,
        allNullable_nonterminal, and_or_left, or_assoc, and_assoc]

/-- A property of the terminals in a list and in the sets of nonterminals holds of all that are
found. -/
theorem firstOfSymbols_induction {Q : TerminalId → Prop} (hxs : ∀ t, .terminal t ∈ xs → Q t)
    (hfirsts : ∀ u, InFirst firsts u → Q u.2) :
    ∀ t ∈ firstOfSymbols nullable firsts xs, Q t := by
  induction xs with
  | nil => exact fun t ht => absurd ht (IndexSet.mem_empty t)
  | cons symbol xs ih =>
    intro t ht
    cases symbol with
    | terminal t' =>
      rw [mem_firstOfSymbols_terminal.mp ht]
      exact hxs t' List.mem_cons_self
    | nonterminal n =>
      rcases mem_firstOfSymbols_nonterminal.mp ht with ht | ⟨-, ht⟩
      · exact hfirsts _ ht
      · exact ih (fun t' ht' => hxs t' (List.mem_cons_of_mem _ ht')) t ht

/-- Terminals added to the set of a nonterminal are in it, and all others stay. -/
theorem inFirst_modify {n : NonterminalId} {added : TerminalSet} (hn : n.val < firsts.length)
    {u : NonterminalId × TerminalId} :
    InFirst (firsts.modify n.val (· ∪ added)) u ↔ InFirst firsts u ∨ u.1 = n ∧ u.2 ∈ added := by
  unfold InFirst
  rw [getElem?_modify_eq]
  by_cases hu : n.val = u.1.val
  · obtain ⟨set, hset⟩ : ∃ set, firsts[u.1.val]? = some set :=
      ⟨_, List.getElem?_eq_getElem (hu ▸ hn)⟩
    have hu' : u.1 = n := Index.ext hu.symm
    rw [if_pos hu, hset]
    simp [hu']
  · have hu' : u.1 ≠ n := fun heq => hu (congrArg Index.val heq.symm)
    rw [if_neg hu]
    simp [hu']

/-- Sets found so far: one for each nonterminal, of declared terminals that begin it. -/
structure FirstsSound (g : Grammar) (firsts : List TerminalSet) : Prop where
  length : firsts.length = g.nonterminals.length
  begins : ∀ u, InFirst firsts u → g.Begins [.nonterminal u.1] u.2
  declared : ∀ u, InFirst firsts u → u.2.val < g.terminals.length

/-- The terminals found for a list begin it. -/
theorem FirstsSound.begins_of_mem (hg : g.WellFormed) (h : g.FirstsSound firsts)
    (ht : t ∈ firstOfSymbols g.nullableSet firsts xs) : g.Begins xs t := by
  induction xs with
  | nil => exact absurd ht (IndexSet.mem_empty t)
  | cons symbol xs ih =>
    cases symbol with
    | terminal t' =>
      rw [begins_terminal]
      exact mem_firstOfSymbols_terminal.mp ht
    | nonterminal n =>
      rw [← List.singleton_append, begins_append]
      rcases mem_firstOfSymbols_nonterminal.mp ht with ht | ⟨hn, ht⟩
      · exact .inl (h.begins _ ht)
      · exact .inr ⟨(nullableSet_spec hg).1 n hn, ih ht⟩

/-- What is demanded after a nonterminal in front: the rest if it is nullable, and the nonterminal
itself unless it is the head. -/
theorem mem_leadingDemands_nonterminal {head n : NonterminalId} {symbol : Symbol} :
    symbol ∈ leadingDemands nullable head (.nonterminal n :: xs) ↔
      n ≠ head ∧ symbol = .nonterminal n ∨
        n ∈ nullable ∧ symbol ∈ leadingDemands nullable head xs := by
  have hlater : symbol ∈
      (if nullable.contains n = true then leadingDemands nullable head xs else []) ↔
        n ∈ nullable ∧ symbol ∈ leadingDemands nullable head xs := by
    rw [List.mem_ite_nil_right, IndexSet.contains_iff]
  rw [leadingDemands]
  split
  · next hn => exact hlater.trans (by simp [hn])
  · next hn => rw [List.mem_cons, hlater, and_iff_right hn]

/-- What a body demands is found for the body. -/
theorem mem_firstOfSymbols_of_demanded {head : NonterminalId} {symbol : Symbol}
    (hsymbol : symbol ∈ leadingDemands nullable head xs) (ht : t ∈ firstOfSymbol firsts symbol) :
    t ∈ firstOfSymbols nullable firsts xs := by
  induction xs with
  | nil => cases hsymbol
  | cons leading xs ih =>
    cases leading with
    | terminal t' =>
      rw [List.mem_singleton.mp hsymbol] at ht
      exact ht
    | nonterminal n =>
      rw [mem_firstOfSymbols_nonterminal]
      rcases mem_leadingDemands_nonterminal.mp hsymbol with ⟨-, rfl⟩ | ⟨hn, hsymbol⟩
      · exact .inl (mem_firstOfSymbol_nonterminal.mp ht)
      · exact .inr ⟨hn, ih hsymbol⟩

/-- What is found for a body is demanded by it, or is in the set of its head anyway. -/
theorem demanded_of_mem_firstOfSymbols (head : NonterminalId)
    (ht : t ∈ firstOfSymbols nullable firsts xs) :
    (∃ symbol ∈ leadingDemands nullable head xs, t ∈ firstOfSymbol firsts symbol) ∨
      InFirst firsts (head, t) := by
  induction xs with
  | nil => exact absurd ht (IndexSet.mem_empty t)
  | cons leading xs ih =>
    cases leading with
    | terminal t' => exact .inl ⟨.terminal t', List.mem_singleton_self _, ht⟩
    | nonterminal n =>
      rcases mem_firstOfSymbols_nonterminal.mp ht with ht | ⟨hn, ht⟩
      · by_cases hhead : n = head
        · exact .inr (hhead ▸ ht)
        · exact .inl ⟨.nonterminal n, mem_leadingDemands_nonterminal.mpr (.inl ⟨hhead, rfl⟩),
            mem_firstOfSymbol_nonterminal.mpr ht⟩
      · refine (ih ht).imp_left fun ⟨symbol, hsymbol, ht⟩ => ⟨symbol, ?_, ht⟩
        exact mem_leadingDemands_nonterminal.mpr (.inr ⟨hn, hsymbol⟩)

/-- Demands are made by the bodies of rules. -/
theorem mem_firstDemands {n : NonterminalId} {symbol : Symbol} :
    (n, symbol) ∈ g.firstDemands nullable ↔
      ∃ rule ∈ g.rules, rule.left = n ∧ symbol ∈ leadingDemands nullable n rule.body := by
  simp only [firstDemands, List.mem_flatMap, List.mem_map, Prod.mk.injEq]
  constructor
  · rintro ⟨rule, hrule, symbol, hsymbol, rfl, rfl⟩
    exact ⟨rule, hrule, rfl, hsymbol⟩
  · rintro ⟨rule, hrule, rfl, hsymbol⟩
    exact ⟨rule, hrule, symbol, hsymbol, rfl, rfl⟩

/-- Meeting a demand adds declared terminals that begin the nonterminal, if any. -/
theorem FirstsSound.step (hg : g.WellFormed) {demand : NonterminalId × Symbol}
    (hdemand : demand ∈ g.firstDemands g.nullableSet) (h : g.FirstsSound firsts) :
    g.FirstsSound (firsts.modify demand.1.val (· ∪ firstOfSymbol firsts demand.2)) ∧
      Grows InFirst (g.nonterminalIds ×ˢ g.terminalIds) firsts
        (firsts.modify demand.1.val (· ∪ firstOfSymbol firsts demand.2)) := by
  obtain ⟨n, symbol⟩ := demand
  obtain ⟨rule, hrule, rfl, hsymbol⟩ := mem_firstDemands.mp hdemand
  obtain ⟨r, hr⟩ := mem_rules.mp hrule
  have hleft : rule.left.val < firsts.length := h.length ▸ hg.left_lt hrule
  have hbody : ∀ t ∈ firstOfSymbol firsts symbol,
      t ∈ firstOfSymbols g.nullableSet firsts rule.body :=
    fun t ht => mem_firstOfSymbols_of_demanded hsymbol ht
  have hdeclared : ∀ t ∈ firstOfSymbol firsts symbol, t.val < g.terminals.length :=
    fun t ht => firstOfSymbols_induction (fun t ht => (hg.body r rule hr _ ht).2) h.declared t
      (hbody t ht)
  refine ⟨⟨by rw [List.length_modify, h.length], ?_, ?_⟩, ?_, ?_⟩
  · intro u hu
    rcases (inFirst_modify hleft).mp hu with hu | ⟨hn, ht⟩
    · exact h.begins u hu
    · rw [hn]
      exact begins_rule hr (h.begins_of_mem hg (hbody _ ht))
  · intro u hu
    rcases (inFirst_modify hleft).mp hu with hu | ⟨-, ht⟩
    · exact h.declared u hu
    · exact hdeclared _ ht
  · exact fun u hu => (inFirst_modify hleft).mpr (.inl hu)
  · intro hne
    by_contra hnone
    refine hne (modify_eq_self fun set hset => IndexSet.union_eq_left fun t ht => ?_)
    by_contra hnot
    have hmem : (rule.left, t) ∈ g.nonterminalIds ×ˢ g.terminalIds :=
      List.mem_product.mpr ⟨Index.mem_below.mpr (hg.left_lt hrule),
        Index.mem_below.mpr (hdeclared t ht)⟩
    refine hnone ⟨(rule.left, t), hmem, (inFirst_modify hleft).mpr (.inr ⟨rfl, ht⟩), ?_⟩
    rintro ⟨set', hset', ht'⟩
    rw [hset] at hset'
    exact hnot (Option.some.inj hset' ▸ ht')

/-- One round adds declared terminals that begin their nonterminals, if any. -/
theorem FirstsSound.extend (hg : g.WellFormed) (h : g.FirstsSound firsts) :
    g.FirstsSound (extendFirsts (g.firstDemands g.nullableSet) firsts) ∧
      Grows InFirst (g.nonterminalIds ×ˢ g.terminalIds) firsts
        (extendFirsts (g.firstDemands g.nullableSet) firsts) :=
  Grows.foldl (P := g.FirstsSound) (fun _ hdemand _ h => h.step hg hdemand) h

/-- Empty sets are sound. -/
theorem firstsSound_empty (g : Grammar) : g.FirstsSound (g.nonterminals.map fun _ => ∅) := by
  have hnone : ∀ u, ¬ InFirst (g.nonterminals.map fun _ => ∅) u := by
    rintro u ⟨set, hset, ht⟩
    rw [List.getElem?_map, Option.map_eq_some_iff] at hset
    obtain ⟨-, -, rfl⟩ := hset
    exact absurd ht (IndexSet.mem_empty _)
  exact ⟨List.length_map _, fun u hu => absurd hu (hnone u), fun u hu => absurd hu (hnone u)⟩

/-- A further round adds nothing to the first sets. -/
theorem extendFirsts_firstSets (hg : g.WellFormed) :
    extendFirsts (g.firstDemands g.nullableSet) (g.firstSets g.nullableSet) =
      g.firstSets g.nullableSet := by
  refine stabilize_fixed_of_grows (fun _ h => h.extend hg) (firstsSound_empty g) ?_
  rw [List.length_product, nonterminalIds, terminalIds, Index.length_below, Index.length_below]
  exact Nat.lt_succ_self _

/-- The first sets are sound, and no rule adds further terminals. -/
theorem firstSets_spec (hg : g.WellFormed) :
    g.FirstsSound (g.firstSets g.nullableSet) ∧
      ∀ rule ∈ g.rules, ∀ t ∈ firstOfSymbols g.nullableSet (g.firstSets g.nullableSet) rule.body,
        InFirst (g.firstSets g.nullableSet) (rule.left, t) := by
  have hsound : g.FirstsSound (g.firstSets g.nullableSet) :=
    stabilize_induction (fun _ h => (h.extend hg).1) _ (firstsSound_empty g)
  refine ⟨hsound, ?_⟩
  intro rule hrule t ht
  rcases demanded_of_mem_firstOfSymbols rule.left ht with ⟨symbol, hsymbol, ht⟩ | ht
  · have hdemand : (rule.left, symbol) ∈ g.firstDemands g.nullableSet :=
      mem_firstDemands.mpr ⟨rule, hrule, rfl, hsymbol⟩
    have hstep := Grows.foldl_fixed (P := g.FirstsSound) (fun _ hdemand _ h => h.step hg hdemand)
      hsound (extendFirsts_firstSets hg) _ hdemand
    rw [← hstep]
    exact (inFirst_modify (hsound.length ▸ hg.left_lt hrule)).mpr (.inr ⟨rfl, ht⟩)
  · exact ht

/-- What is found for a list is found for those that derive it. -/
theorem mem_firstOfSymbols_of_rewrites (hg : g.WellFormed) (h : g.Rewrites xs ys)
    (ht : t ∈ firstOfSymbols g.nullableSet (g.firstSets g.nullableSet) ys) :
    t ∈ firstOfSymbols g.nullableSet (g.firstSets g.nullableSet) xs := by
  induction h with
  | @head r rule hrule rest =>
    have hmem : rule ∈ g.rules := mem_rules.mpr ⟨r, hrule⟩
    rw [mem_firstOfSymbols_nonterminal]
    rcases mem_firstOfSymbols_append.mp ht with ht | ⟨hbody, ht⟩
    · exact .inl ((firstSets_spec hg).2 rule hmem t ht)
    · exact .inr ⟨(nullableSet_spec hg).2 rule hmem hbody, ht⟩
  | tail symbol _ ih =>
    cases symbol with
    | terminal t' => exact mem_firstOfSymbols_terminal.mpr (mem_firstOfSymbols_terminal.mp ht)
    | nonterminal n =>
      rw [mem_firstOfSymbols_nonterminal]
      exact (mem_firstOfSymbols_nonterminal.mp ht).imp_right fun ⟨hn, ht⟩ => ⟨hn, ih ht⟩

/-- The terminals found for a list of symbols are those that begin it. -/
theorem mem_firstOfSymbols_iff (hg : g.WellFormed) :
    t ∈ firstOfSymbols g.nullableSet (g.firstSets g.nullableSet) xs ↔ g.Begins xs t := by
  refine ⟨(firstSets_spec hg).1.begins_of_mem hg, ?_⟩
  rintro ⟨rest, h⟩
  induction h using Relation.ReflTransGen.head_induction_on with
  | refl => exact mem_firstOfSymbols_terminal.mpr rfl
  | head hstep _ ih => exact mem_firstOfSymbols_of_rewrites hg hstep ih

/-- Terminals that begin what declared symbols derive are declared. -/
theorem Begins.declared (hg : g.WellFormed) (hxs : ∀ symbol ∈ xs, g.Declares symbol)
    (h : g.Begins xs t) : t.val < g.terminals.length :=
  firstOfSymbols_induction (fun _ ht => (hxs _ ht).2) (firstSets_spec hg).1.declared t
    ((mem_firstOfSymbols_iff hg).mpr h)

/-- The end of the input does not begin what declared symbols derive. -/
theorem not_begins_endOfInput (hg : g.WellFormed)
    (hxs : ∀ symbol ∈ xs, g.Declares symbol) : ¬ g.Begins xs endOfInput := by
  intro hbegins
  have hopens := opens_of_begins hbegins
  induction hopens with
  | terminal rest => exact (hxs _ List.mem_cons_self).1 rfl
  | @enter r rule hrule hbody _ ih => exact ih (hg.body r rule hrule) hbody.begins
  | skip _ hrest ih =>
    exact ih (fun symbol hsymbol => hxs symbol (List.mem_cons_of_mem _ hsymbol)) hrest.begins

end Grammar

namespace Analysis

variable {g : Grammar} {a : Analysis} {xs : List Symbol} {t : TerminalId}

/-- The sets of an analysis. -/
theorem eq_of_analyse (ha : g.analyse = .ok a) :
    a.nullable = g.nullableSet ∧ a.firsts = g.firstSets g.nullableSet ∧
      List.Forall₂ (fun n buckets =>
        g.chainsTo g.nullableSet (g.firstSets g.nullableSet) n = .ok buckets)
        g.nonterminalIds a.buckets := by
  unfold Grammar.analyse at ha
  dsimp only at ha
  split at ha
  · next buckets hbuckets =>
    obtain rfl := Except.ok.inj ha
    exact ⟨rfl, rfl, mapM_eq_ok_iff.mp hbuckets⟩
  · cases ha

/-- A list of symbols vanishes according to an analysis if it does. -/
theorem vanishes_iff (hg : g.WellFormed) (ha : g.analyse = .ok a) :
    a.vanishes xs = true ↔ g.Vanishes xs := by
  rw [Analysis.vanishes, (eq_of_analyse ha).1, Grammar.allNullable_iff hg]

/-- The terminals that begin a list of symbols according to an analysis. -/
theorem mem_firstTerminals (hg : g.WellFormed) (ha : g.analyse = .ok a) :
    t ∈ a.firstTerminals xs ↔ g.Begins xs t := by
  obtain ⟨hnullable, hfirsts, -⟩ := eq_of_analyse ha
  rw [Analysis.firstTerminals, hnullable, hfirsts, Grammar.mem_firstOfSymbols_iff hg]

/-- Every nonterminal has a first set, and it is exact. -/
theorem exists_first (hg : g.WellFormed) (ha : g.analyse = .ok a) {n : NonterminalId}
    (hn : n.val < g.nonterminals.length) :
    ∃ first, a.first? n = some first ∧ ∀ t, t ∈ first ↔ g.Begins [.nonterminal n] t := by
  have hlength : a.firsts.length = g.nonterminals.length := by
    rw [(eq_of_analyse ha).2.1]
    exact (Grammar.firstSets_spec hg).1.length
  obtain ⟨first, hfirst⟩ : ∃ first, a.first? n = some first :=
    ⟨_, List.getElem?_eq_getElem (hlength ▸ hn)⟩
  refine ⟨first, hfirst, fun t => ?_⟩
  have hset : t ∈ a.firstTerminals [.nonterminal n] ↔ t ∈ first := by
    rw [firstTerminals, Grammar.mem_firstOfSymbols_nonterminal, firstOfSymbols, Grammar.InFirst]
    change a.firsts[n.val]? = some first at hfirst
    simp [hfirst]
  rw [← hset, mem_firstTerminals hg ha]

end Analysis

/-- What an analysis says of a list of symbols, and so of a nonterminal, is exact: the terminals
found for it are those that begin what it derives, and it is found nullable if it derives the empty
string. Neither iteration needs its bound. -/
theorem firsts_exact {g : Grammar} {a : Analysis} (h : g.IsDefined) (ha : g.analyse = .ok a) :
    (∀ xs, (∀ t, t ∈ a.firstTerminals xs ↔ g.Begins xs t) ∧
      (a.vanishes xs = true ↔ g.Vanishes xs)) ∧
    (∀ n, n.val < g.nonterminals.length →
      (∃ first, a.first? n = some first ∧ ∀ t, t ∈ first ↔ g.Begins [.nonterminal n] t) ∧
      (a.isNullable n = true ↔ g.Vanishes [.nonterminal n])) ∧
    Stabilizes g.extendNullable ∅ a.nullable ∧
    Stabilizes (extendFirsts (g.firstDemands a.nullable)) (g.nonterminals.map fun _ => ∅)
      a.firsts := by
  have hg := h.wellFormed
  have hlists : ∀ xs, (∀ t, t ∈ a.firstTerminals xs ↔ g.Begins xs t) ∧
      (a.vanishes xs = true ↔ g.Vanishes xs) :=
    fun xs => ⟨fun t => Analysis.mem_firstTerminals hg ha, Analysis.vanishes_iff hg ha⟩
  refine ⟨hlists, fun n hn => ⟨Analysis.exists_first hg ha hn, ?_⟩, ?_, ?_⟩
  · have hsingle : a.vanishes [.nonterminal n] = a.isNullable n := by
      simp [Analysis.vanishes, Analysis.isNullable, allNullable]
    rw [← hsingle]
    exact (hlists [.nonterminal n]).2
  · rw [(Analysis.eq_of_analyse ha).1]
    exact stabilizes_of_fixed (Grammar.extendNullable_nullableSet hg)
  · rw [(Analysis.eq_of_analyse ha).2.1, (Analysis.eq_of_analyse ha).1]
    exact stabilizes_of_fixed (Grammar.extendFirsts_firstSets hg)

/-- The grammar `S := A S b | c; A := %empty | A a` (as rules 1 to 4). -/
def nullablePrefix : Grammar where
  terminals := [.endOfInput, ⟨"a", none, .plain⟩, ⟨"b", none, .plain⟩, ⟨"c", none, .plain⟩]
  nonterminals := [augmentedStartName, "S", "A"]
  rules := [⟨augmentedStart, [.nonterminal ⟨1⟩], none⟩,
    ⟨⟨1⟩, [.nonterminal ⟨2⟩, .nonterminal ⟨1⟩, .terminal ⟨2⟩], none⟩, ⟨⟨1⟩, [.terminal ⟨3⟩], none⟩,
    ⟨⟨2⟩, [], none⟩, ⟨⟨2⟩, [.nonterminal ⟨2⟩, .terminal ⟨1⟩], none⟩]
  start := ⟨1⟩
  operators := ∅
  operatorTerminals := ∅

/-- What `A S` derives begins with `a` or `c`, not with `b`. It does not vanish, and `A` does. -/
theorem firsts_exact_nullablePrefix :
    nullablePrefix.IsDefined ∧ ∃ a, nullablePrefix.analyse = .ok a ∧
      (∀ t, nullablePrefix.Begins [.nonterminal ⟨2⟩, .nonterminal ⟨1⟩] t ↔ t = ⟨1⟩ ∨ t = ⟨3⟩) ∧
      ¬ nullablePrefix.Vanishes [.nonterminal ⟨2⟩, .nonterminal ⟨1⟩] ∧
      nullablePrefix.Vanishes [.nonterminal ⟨2⟩] := by
  have hdefined : nullablePrefix.IsDefined :=
    ⟨[.terminal "a" none, .terminal "b" none, .terminal "c" none, .nonterminal "S",
      .nonterminal "A", .rule ⟨1⟩ [.nonterminal ⟨2⟩, .nonterminal ⟨1⟩, .terminal ⟨2⟩] none,
      .rule ⟨1⟩ [.terminal ⟨3⟩] none, .rule ⟨2⟩ [] none,
      .rule ⟨2⟩ [.nonterminal ⟨2⟩, .terminal ⟨1⟩] none], .inl (by decide)⟩
  have hfound : (nullablePrefix.analyse.toOption.map fun a =>
      (a.firstTerminals [.nonterminal ⟨2⟩, .nonterminal ⟨1⟩],
        a.vanishes [.nonterminal ⟨2⟩, .nonterminal ⟨1⟩], a.isNullable ⟨2⟩)) =
          some (.ofList [⟨1⟩, ⟨3⟩], false, true) := by decide +kernel
  cases ha : nullablePrefix.analyse with
  | error e =>
    rw [ha] at hfound
    cases hfound
  | ok a =>
    rw [ha] at hfound
    obtain ⟨hfirst, hrest⟩ := Prod.mk.inj (Option.some.inj hfound)
    obtain ⟨hvanishes, hnullable⟩ := Prod.mk.inj hrest
    obtain ⟨hlists, hnonterminals, -⟩ := firsts_exact hdefined ha
    refine ⟨hdefined, a, rfl, fun t => ?_, fun h => ?_, ?_⟩
    · rw [← (hlists _).1, hfirst]
      simp
    · rw [(hlists _).2.mpr h] at hvanishes
      cases hvanishes
    · exact (hnonterminals ⟨2⟩ (by decide)).2.mp hnullable

end OperatorLALR
