import OperatorLALR.Grammar.Usage
import OperatorLALR.Proofs.Exploration
import OperatorLALR.Proofs.Grammar.Derivation
import OperatorLALR.Proofs.Grammar.WellFormed

/-!
# Nonterminals that no derivation reaches

A nonterminal occurs in some list of symbols derived from the augmented start symbol exactly if the
bodies of rules lead to it from there (`exists_form_iff_reached`). The exploration along the bodies
ends, and finds these nonterminals, so that the others are exactly what is reported to be without
use (`nonterminalsWithoutUse_exact`).
-/

namespace OperatorLALR.Grammar

variable {g : Grammar} {m n : NonterminalId} {form : List Symbol}

/-- What follows a nonterminal are the nonterminals in the bodies of its rules. -/
theorem mem_successors : n ∈ g.successors m ↔
    ∃ r rule, g.rule? r = some rule ∧ rule.left = m ∧ .nonterminal n ∈ rule.body := by
  simp only [successors, List.mem_flatMap, List.mem_filterMap, mem_rulesOf]
  constructor
  · rintro ⟨r, ⟨rule, hrule, hleft⟩, symbol, hsymbol, hn⟩
    rw [body_eq hrule] at hsymbol
    cases symbol with
    | terminal => cases hn
    | nonterminal n' =>
      obtain rfl := Option.some.inj hn
      exact ⟨r, rule, hrule, hleft, hsymbol⟩
  · rintro ⟨r, rule, hrule, hleft, hn⟩
    exact ⟨r, ⟨rule, hrule, hleft⟩, .nonterminal n, by rwa [body_eq hrule], rfl⟩

/-- A list of symbols that the augmented start symbol derives. -/
def IsSententialForm (g : Grammar) (form : List Symbol) : Prop :=
  g.Derives [.nonterminal augmentedStart] form

/-- The bodies of rules lead from the augmented start symbol to a nonterminal. -/
def Reached (g : Grammar) : NonterminalId → Prop :=
  Relation.ReflTransGen (fun m n => n ∈ g.successors m) augmentedStart

/-- The nonterminals of a sentential form are reached. -/
theorem IsSententialForm.reached (h : g.IsSententialForm form) :
    ∀ n, .nonterminal n ∈ form → g.Reached n := by
  induction h with
  | refl =>
    intro n hn
    obtain rfl := Symbol.nonterminal.inj (List.mem_singleton.mp hn)
    exact .refl
  | tail _ hstep ih =>
    intro n hn
    obtain ⟨before, r, rule, after, hrule, rfl, rfl⟩ := hstep.exists_rule
    simp only [List.mem_append, List.mem_cons] at hn ih
    rcases hn with hbefore | hbody | hafter
    · exact ih n (.inl hbefore)
    · exact (ih rule.left (.inr (.inl rfl))).tail (mem_successors.mpr ⟨r, rule, hrule, rfl, hbody⟩)
    · exact ih n (.inr (.inr hafter))

/-- A nonterminal that is reached occurs in a sentential form. -/
theorem Reached.exists_form (h : g.Reached n) :
    ∃ form, g.IsSententialForm form ∧ .nonterminal n ∈ form := by
  induction h with
  | refl => exact ⟨_, .refl, List.mem_singleton_self _⟩
  | tail _ hnext ih =>
    obtain ⟨form, hform, hm⟩ := ih
    obtain ⟨r, rule, hrule, rfl, hn⟩ := mem_successors.mp hnext
    obtain ⟨before, after, rfl⟩ := List.append_of_mem hm
    refine ⟨before ++ (rule.body ++ after),
      Relation.ReflTransGen.tail hform ((Rewrites.head hrule after).append_left before), ?_⟩
    exact List.mem_append_right before (List.mem_append_left after hn)

/-- The nonterminals in sentential forms are those that are reached. -/
theorem exists_form_iff_reached :
    (∃ form, g.IsSententialForm form ∧ .nonterminal n ∈ form) ↔ g.Reached n :=
  ⟨fun ⟨_, hform, hn⟩ => hform.reached n hn, Reached.exists_form⟩

/-- The exploration along the bodies of the rules comes to an end: all that it finds is declared. -/
theorem processesAll_reachable (hg : g.WellFormed) :
    ProcessesAll g.successors 0 (.ofList [augmentedStart]) g.reachableNonterminals := by
  have hdeclared : ∀ n, n ∈ g.nonterminalIds → n ∈ g.nonterminalIds := fun _ => id
  refine processesAll_exploreFrom hdeclared ?_ (Index.mem_below.mpr hg.nonterminals_pos) ?_
  · intro m _ n hn
    obtain ⟨r, rule, hrule, -, hbody⟩ := mem_successors.mp hn
    exact Index.mem_below.mpr (hg.body r rule hrule _ hbody).2
  · rw [nonterminalIds, Index.length_below]
    exact Nat.lt_succ_self _

/-- The exploration finds the nonterminals that are reached. -/
theorem mem_reachableNonterminals (hg : g.WellFormed) :
    n ∈ g.reachableNonterminals.items ↔ g.Reached n :=
  (processesAll_reachable hg).mem_iff_reached

/-- The search for the nonterminals that derivations reach ends by itself. Those reported to be
without use are listed in the order of their declaration, none of them twice, and they are exactly
the declared nonterminals that occur in no list of symbols derived from the augmented start
symbol. -/
theorem nonterminalsWithoutUse_exact (hg : g.IsDefined) :
    ProcessesAll g.successors 0 (.ofList [augmentedStart]) g.reachableNonterminals ∧
    g.nonterminalsWithoutUse.Pairwise (fun m n => m.val < n.val) ∧
    ∀ n, n ∈ g.nonterminalsWithoutUse ↔ n.val < g.nonterminals.length ∧
      ∀ form, g.Derives [.nonterminal augmentedStart] form → .nonterminal n ∉ form := by
  refine ⟨processesAll_reachable hg.wellFormed, ?_, fun n => ?_⟩
  · refine List.Pairwise.filter _ ?_
    rw [nonterminalIds, Index.below, List.pairwise_map]
    exact List.pairwise_lt_range
  · have hunreached : (∀ form, g.IsSententialForm form → .nonterminal n ∉ form) ↔
        (g.reachableNonterminals.number? n).isNone = true := by
      rw [Option.isNone_iff_eq_none, Numbering.number?_eq_none_iff,
        mem_reachableNonterminals hg.wellFormed, ← exists_form_iff_reached]
      simp only [not_exists, not_and]
    rw [nonterminalsWithoutUse, List.mem_filter, nonterminalIds, Index.mem_below, ← hunreached]
    rfl

/-- The grammar `S := a; A := B; B := A a` (as rules 1 to 3). -/
def island : Grammar where
  terminals := [.endOfInput, ⟨"a", none, .plain⟩]
  nonterminals := [augmentedStartName, "S", "A", "B"]
  rules := [⟨augmentedStart, [.nonterminal ⟨1⟩], none⟩, ⟨⟨1⟩, [.terminal ⟨1⟩], none⟩,
    ⟨⟨2⟩, [.nonterminal ⟨3⟩], none⟩, ⟨⟨3⟩, [.nonterminal ⟨2⟩, .terminal ⟨1⟩], none⟩]
  start := ⟨1⟩
  operators := ∅
  operatorTerminals := ∅

/-- The nonterminals `A` and `B` lead to one another, but no derivation reaches them. -/
theorem nonterminalsWithoutUse_exact_island :
    island.IsDefined ∧ island.nonterminalsWithoutUse = [⟨2⟩, ⟨3⟩] ∧
      ∀ form, island.Derives [.nonterminal augmentedStart] form → .nonterminal ⟨3⟩ ∉ form := by
  have hdefined : island.IsDefined :=
    ⟨[.terminal "a" none, .nonterminal "S", .nonterminal "A", .nonterminal "B",
      .rule ⟨1⟩ [.terminal ⟨1⟩] none, .rule ⟨2⟩ [.nonterminal ⟨3⟩] none,
      .rule ⟨3⟩ [.nonterminal ⟨2⟩, .terminal ⟨1⟩] none], .inl (by decide)⟩
  have hlist : island.nonterminalsWithoutUse = [⟨2⟩, ⟨3⟩] := by decide +kernel
  obtain ⟨-, -, hexact⟩ := nonterminalsWithoutUse_exact hdefined
  exact ⟨hdefined, hlist, ((hexact ⟨3⟩).mp (by rw [hlist]; decide)).2⟩

end OperatorLALR.Grammar
