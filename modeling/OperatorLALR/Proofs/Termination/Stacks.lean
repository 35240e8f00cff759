import OperatorLALR.Proofs.Analysis.HiddenRecursion
import OperatorLALR.Proofs.Automaton.Expected
import OperatorLALR.Proofs.Soundness.Branches

/-!
# Symbols that vanish on top of a stack

A tree has a rank, by what lifts its nonterminal, and vanishes if its nonterminal does. The state on
top of a stack has items whose dot is behind some symbols. If more entries vanish than these, the
item was opened by another one, below, whose head hides its own (`Grammar.Built.exists_opening`,
`Grammar.Built.depth_lt_of_opening`). So the entries on top that vanish are bounded where no
nonterminal hides itself (`Path.le_slack`).
-/

namespace OperatorLALR

variable {τ β σ : Type}

/-- How many nonterminals may still come in the place of a tree: those that lift its own, and all of
them for a token. -/
noncomputable def ParseTree.rank (g : Grammar) : ParseTree τ → Nat
  | .leaf _ _ _ => g.nonterminals.length + 1
  | .node r _ => g.rank (g.left r)

/-- Whether a tree is of a nonterminal that vanishes. -/
def ParseTree.vanishes (g : Grammar) : ParseTree τ → Bool
  | .leaf _ _ _ => false
  | .node r _ => allNullable g.nullableSet [.nonterminal (g.left r)]

/-- The number of symbols in the bodies of all rules. -/
def Grammar.breadth (g : Grammar) : Nat := (g.rules.flatMap Rule.body).length

/-- No body has more symbols. -/
theorem Grammar.length_body_le (g : Grammar) (r : RuleId) : (g.body r).length ≤ g.breadth := by
  cases hrule : g.rule? r with
  | none =>
    rw [body, hrule]
    exact Nat.zero_le _
  | some rule =>
    have hmem : rule.body ∈ g.rules.map Rule.body :=
      List.mem_map_of_mem (List.mem_of_getElem? hrule)
    rw [body_eq hrule, breadth, List.flatMap_def]
    exact (List.sublist_flatten_of_mem hmem).length_le

/-- The most entries on top of a stack that can vanish, where no nonterminal hides itself. -/
def Grammar.slack (g : Grammar) : Nat := g.breadth * (g.nonterminals.length + 2)

variable [Token τ] {g : Grammar} {a : Analysis} {p : Parser τ (ParseTree τ) β σ}
  {stack : List (StackEntry τ (ParseTree τ))} {symbols : List Symbol}

/-- The rule of a node whose body is led by the tree on top of a stack, with nothing else in it,
lifts what is on top. -/
theorem rank_lt_of_spells (hg : g.Built a) {r : RuleId} {symbol : Symbol} {rest : List Symbol}
    (hbody : g.body r = symbol :: rest) (hrest : g.Vanishes rest) (hr : r ≠ acceptRule)
    {rule : Rule} (hrule : g.rule? r = some rule) {tree : ParseTree τ}
    (htree : Spells g p.operators symbol tree) : g.rank (g.left r) < tree.rank g := by
  cases htree with
  | leaf => exact Nat.lt_succ_of_le (g.rank_le _)
  | @node r' rule' children hrule' _ =>
    rw [ParseTree.rank, Grammar.left_eq hrule, Grammar.left_eq hrule']
    exact Grammar.rank_lt hg.wellFormed hg.analysed
      ⟨r, rule, rest, hrule, rfl, (Grammar.body_eq hrule).symm.trans hbody, hrest⟩
      (hg.wellFormed.left r rule hrule hr).2

/-- The symbols of trees that vanish vanish. -/
theorem vanishes_of_spells (hg : g.WellFormed) {trees : List (ParseTree τ)}
    (h : List.Forall₂ (Spells g p.operators) symbols trees)
    (htrees : ∀ tree ∈ trees, tree.vanishes g = true) : g.Vanishes symbols := by
  induction h with
  | nil => exact Grammar.vanishes_nil
  | @cons symbol tree symbols trees hspells _ ih =>
    obtain ⟨htree, htrees⟩ := List.forall_mem_cons.mp htrees
    have hsymbol : g.Vanishes [symbol] := by
      cases hspells with
      | leaf => cases htree
      | node hrule =>
        rw [ParseTree.vanishes, Grammar.left_eq hrule] at htree
        exact (Grammar.allNullable_iff hg).mp htree
    exact Grammar.vanishes_append.mpr ⟨hsymbol, ih htrees⟩

omit [Token τ] in
/-- The trees on some entries vanish if all entries do. -/
theorem vanishes_of_mem_stackTrees (hstack : ∀ e ∈ stack, e.item.tree.vanishes g = true) :
    ∀ tree ∈ stackTrees stack, tree.vanishes g = true := by
  intro tree htree
  obtain ⟨e, he, rfl⟩ := List.mem_map.mp htree
  exact hstack e (List.mem_reverse.mp he)

/-- An item with its dot in front comes, by a chain, from one whose dot is behind some symbols,
unless the state is the initial one. -/
theorem Grammar.Built.exists_opening (h : g.Built a) {q : StateId} {r : RuleId}
    (hitem : (g.automaton a).Has q ⟨r, 0⟩) (hq : q ≠ initialState) :
    ∃ k n tail, (g.automaton a).Has q k ∧ 0 < k.dot ∧ k.next? g = some (.nonterminal n) ∧
      Chain g n (g.left r) tail := by
  obtain ⟨s, hs, hmem⟩ := hitem
  have hkernel : ∀ k ∈ s.kernel, 0 < k.dot := by
    intro k hk
    rcases h.kernel_cases hs hk with ⟨hinitial, -⟩ | ⟨_, _, _, _, _, _, rfl⟩
    · exact absurd hinitial hq
    · exact Nat.succ_pos _
  rcases h.items_cases hs hmem with hk | ⟨k, hk, n, rule, tail, hnext, hrule, hchain, -⟩
  · exact absurd (hkernel _ hk) (Nat.lt_irrefl 0)
  · rw [← Grammar.left_eq hrule] at hchain
    have hhas : (g.automaton a).Has q k := ⟨s, hs, Grammar.Built.mem_items_of_mem_kernel hk⟩
    exact ⟨k, n, tail, hhas, hkernel k hk, hnext, hchain⟩

/-- The head of an item whose dot is behind symbols that vanish is less deep than the nonterminals
to which chains lead from the one behind its dot. -/
theorem Grammar.Built.depth_lt_of_opening (h : g.Built a) {q : StateId} {k : Item}
    {n lower : NonterminalId} {tail : List Symbol}
    (hself : ¬ g.Hides (g.left k.rule) (g.left k.rule)) (hk : (g.automaton a).Has q k)
    (hdot : 0 < k.dot) (hnext : k.next? g = some (.nonterminal n))
    (hvanishes : g.Vanishes ((g.body k.rule).take k.dot)) (hchain : Chain g n lower tail) :
    g.depth (g.left k.rule) < g.depth lower := by
  obtain ⟨rule, hrule, hbody⟩ := h.exists_rule hk
  have hparts : rule.body = (g.body k.rule).take k.dot ++ .nonterminal n :: k.rest g := by
    rw [← hbody, ← Grammar.ahead_eq hnext]
    exact (List.take_append_drop _ _).symm
  have hfront : (g.body k.rule).take k.dot ≠ [] := by
    have hlt : k.dot < (g.body k.rule).length := (List.getElem?_eq_some_iff.mp hnext).1
    refine List.ne_nil_of_length_pos ?_
    rw [List.length_take]
    omega
  have hhides := Grammar.hides_of_chain hrule hparts hfront hvanishes hchain
  rw [← Grammar.left_eq hrule] at hhides
  refine Grammar.depth_lt hself hhides ?_
  rw [Grammar.left_eq hrule]
  exact h.wellFormed.left_lt (Grammar.mem_rules.mpr ⟨k.rule, hrule⟩)

namespace Path

/-- The symbols before the dot of an item in the state on top vanish if the topmost entries do. -/
theorem vanishes_before (h : Path g a p stack symbols) (hg : g.Built a)
    (hinitial : p.table.initial = initialState) {r : RuleId} {dot : Nat}
    (hitem : (g.automaton a).Has (p.stateOn stack) ⟨r, dot⟩)
    (htop : ∀ e ∈ stack.take dot, e.item.tree.vanishes g = true) :
    g.Vanishes ((g.body r).take dot) := by
  obtain ⟨-, hspells, -⟩ := h.handle hg hinitial hitem
  exact vanishes_of_spells hg.wellFormed hspells (vanishes_of_mem_stackTrees htop)

/-- Where no nonterminal hides itself, the entries on top of a stack that vanish are bounded by how
deep the head of an item in the state on top is hidden. -/
theorem le_of_vanishes (h : Path g a p stack symbols) (hg : g.Built a)
    (hinitial : p.table.initial = initialState) (hself : ∀ n, ¬ g.Hides n n) {v : Nat}
    (hv : v ≤ stack.length) (htop : ∀ e ∈ stack.take v, e.item.tree.vanishes g = true) {r : RuleId}
    {dot : Nat} (hitem : (g.automaton a).Has (p.stateOn stack) ⟨r, dot⟩) (hdot : 0 < dot) :
    v ≤ dot + g.breadth * (g.depth (g.left r) + 1) := by
  induction hheight : stack.length using Nat.strong_induction_on
    generalizing stack symbols v r dot with
  | _ height ih =>
    subst hheight
    by_cases hle : v ≤ dot
    · omega
    obtain ⟨hlength, -, hfront⟩ := h.handle hg hinitial hitem
    have hbelow := h.drop dot
    have hlower : (stack.drop dot).length = stack.length - dot := List.length_drop
    have hq : p.stateOn (stack.drop dot) ≠ initialState := by
      intro hq
      have hempty := hbelow.eq_nil_of_initial hg hq
      rw [hempty, List.length_nil] at hlower
      omega
    obtain ⟨k, n, tail, hk, hkdot, hnext, hchain⟩ := hg.exists_opening hfront hq
    have htop' : ∀ e ∈ (stack.drop dot).take (v - dot), e.item.tree.vanishes g = true := by
      intro e he
      rw [List.take_drop, Nat.add_sub_cancel' (by omega)] at he
      exact htop e (List.mem_of_mem_drop he)
    have hbound := ih _ (by omega) hbelow (by omega) htop' hk hkdot rfl
    have hbreadth : k.dot ≤ g.breadth :=
      Nat.le_trans (Grammar.mem_allItems.mp (hg.mem_allItems_of_has hk)).2 (g.length_body_le k.rule)
    have hsum : g.breadth * (g.depth (g.left r) + 1) =
        g.breadth * g.depth (g.left r) + g.breadth := Nat.mul_succ _ _
    by_cases hcovers : k.dot ≤ v - dot
    · -- all that is before the dot vanishes, so that the head of this item hides the other
      have hvanishes := hbelow.vanishes_before hg hinitial hk fun e he =>
        htop' e (List.take_subset_take_left _ hcovers he)
      have hlt := hg.depth_lt_of_opening (hself _) hk hkdot hnext hvanishes hchain
      have hmul : g.breadth * (g.depth (g.left k.rule) + 1) ≤ g.breadth * g.depth (g.left r) :=
        Nat.mul_le_mul_left g.breadth hlt
      omega
    · omega

/-- The entries on top of a stack that vanish are bounded, where no nonterminal hides itself. -/
theorem le_slack (h : Path g a p stack symbols) (hg : g.Built a)
    (hinitial : p.table.initial = initialState) (hself : ∀ n, ¬ g.Hides n n) {v : Nat}
    (hv : v ≤ stack.length) (htop : ∀ e ∈ stack.take v, e.item.tree.vanishes g = true) :
    v ≤ g.slack := by
  cases h with
  | nil => exact Nat.le_trans hv (Nat.zero_le _)
  | @cons e below symbol symbols hbelow hgoes hspells =>
    obtain ⟨s, hs, ⟨item, hmem, hnext⟩, -⟩ := hg.goes_iff.mp hgoes
    obtain ⟨s', hs', hkernel⟩ := hg.has_advance ⟨s, hs, hmem⟩ hnext hgoes
    have hitem : (g.automaton a).Has e.state item.advance :=
      ⟨s', hs', Grammar.Built.mem_items_of_mem_kernel hkernel⟩
    have hbound : v ≤ item.advance.dot +
        g.breadth * (g.depth (g.left item.advance.rule) + 1) :=
      (Path.cons hbelow hgoes hspells).le_of_vanishes hg hinitial hself hv htop hitem
        (Nat.succ_pos _)
    have hdot : item.advance.dot ≤ g.breadth :=
      Nat.le_trans (Grammar.mem_allItems.mp (hg.mem_allItems_of_has hitem)).2
        (g.length_body_le item.advance.rule)
    have hmul : g.breadth * (g.depth (g.left item.advance.rule) + 1) ≤
        g.breadth * (g.nonterminals.length + 1) :=
      Nat.mul_le_mul_left g.breadth (Nat.succ_le_succ (g.depth_le _))
    have hsum : g.slack = g.breadth * (g.nonterminals.length + 1) + g.breadth := Nat.mul_succ _ _
    omega

end Path

end OperatorLALR
