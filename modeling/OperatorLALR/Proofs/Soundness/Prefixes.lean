import OperatorLALR.Proofs.Automaton.Canonical
import OperatorLALR.Proofs.Automaton.Expected
import OperatorLALR.Proofs.Completeness.Plain

/-!
# What has been read begins a sentential form

A string of symbols with a valid item begins something that the start symbol derives, and goes on
there with what the item expects (`Grammar.ValidItem.derives`). The symbols on the edges of a stack
are such a string, and they derive the tokens at the leaves of its trees. So whatever a parser has
shifted begins a sentential form (`Branch.Sound.derives`), be the input in the language or not.
-/

namespace OperatorLALR

/-- Behind a string with a valid item comes what the item expects, in something that the start
symbol derives. -/
theorem Grammar.ValidItem.derives {g : Grammar} {γ : List Symbol} {item : Item}
    (h : g.ValidItem γ item) (hg : g.WellFormed) :
    ∃ after, g.Derives [.nonterminal g.start] (γ ++ (g.ahead item ++ after)) := by
  induction h with
  | start =>
    refine ⟨[], ?_⟩
    rw [ahead, body_eq hg.accept]
    exact .refl
  | @close γ item n r _ hnext hr ih =>
    obtain ⟨after, hderives⟩ := ih
    obtain ⟨rule, hrule, rfl⟩ := mem_rulesOf.mp hr
    refine ⟨item.rest g ++ after, ?_⟩
    have hbody : g.ahead ⟨r, 0⟩ = rule.body := body_eq hrule
    rw [ahead_eq hnext] at hderives
    rw [hbody]
    exact hderives.tail ((Rewrites.head hrule _).append_left γ)
  | @shift γ item symbol _ hnext ih =>
    obtain ⟨after, hderives⟩ := ih
    refine ⟨after, ?_⟩
    rw [ahead_eq hnext] at hderives
    rw [List.append_assoc]
    exact hderives

variable {τ β σ : Type} [Token τ] {g : Grammar} {a : Analysis} {p : Parser τ (ParseTree τ) β σ}
  {tokens : List τ} {b : Branch τ} {stack : List (StackEntry τ (ParseTree τ))}
  {symbols : List Symbol}

namespace Path

/-- The walk across the symbols on the edges of a stack leads to the state on top. -/
theorem walk? (h : Path g a p stack symbols) (hg : g.Built a)
    (hinitial : p.table.initial = initialState) :
    (g.automaton a).walk? symbols.reverse = some (p.stateOn stack) := by
  induction h with
  | nil => exact congrArg some hinitial.symm
  | cons _ hgoes _ ih =>
    rw [List.reverse_cons]
    exact hg.walk?_snoc_eq_some_iff.mpr ⟨_, ih, hgoes⟩

/-- The trees on a stack are derivation trees of the symbols on the edges. -/
theorem spells (h : Path g a p stack symbols) :
    List.Forall₂ (Spells g p.operators) symbols.reverse (stackTrees stack) := by
  induction h with
  | nil => exact .nil
  | cons _ _ hspells ih =>
    rw [List.reverse_cons, stackTrees_cons]
    exact List.rel_append ih (.cons hspells .nil)

end Path

/-- The leaves of the trees on the stack of a branch are a way to read the tokens so far. -/
theorem Branch.Sound.readsAs (h : Sound g a p tokens b) :
    ReadsAs p.operators (tokens.take b.position) (ParseTree.viewsOf (stackTrees b.stack)) where
  places := by
    have hzip : (tokens.take b.position).zipIdx = tokens.zipIdx.take b.position := by
      refine List.ext_getElem? fun i => ?_
      rw [List.getElem?_zipIdx, List.getElem?_take, List.getElem?_take, List.getElem?_zipIdx]
      split <;> rfl
    rw [ParseTree.map_place_viewsOf, ParseTree.leavesOf_eq, h.leaves, hzip]
  reads := by
    obtain ⟨symbols, hpath⟩ := h.path
    intro v hv
    rw [ParseTree.viewsOf_eq] at hv
    obtain ⟨tree, htree, hv⟩ := List.mem_flatMap.mp hv
    obtain ⟨i, hi⟩ := List.mem_iff_getElem?.mp htree
    obtain ⟨symbol, -, hspells⟩ := exists_getElem?_left hpath.spells hi
    exact hspells.reads v hv

/-- The tokens that a branch has read begin something that the start symbol derives, if they denote
no operators. -/
theorem Branch.Sound.derives (h : Sound g a p tokens b) (hg : g.Built a)
    (hinitial : p.table.initial = initialState)
    (hnames : ∀ token ∈ tokens, Token.operatorName token = none) :
    ∃ rest, g.Derives [.nonterminal g.start]
      ((tokens.take b.position).map (fun token => .terminal (Token.terminal token)) ++ rest) := by
  obtain ⟨symbols, hpath⟩ := h.path
  have hviews := h.readsAs.eq_plainViews fun token htoken =>
    hnames token (List.mem_of_mem_take htoken)
  have hread := derives_of_forall₂_spells hpath.spells
  rw [hviews, map_symbol_plainViews] at hread
  have hwalk := hpath.walk? hg hinitial
  obtain ⟨item, hitem⟩ := hg.exists_state_of_walk? hwalk
  obtain ⟨after, hafter⟩ := (hg.validItem_of_has hwalk hitem).derives hg.wellFormed
  exact ⟨_, Relation.ReflTransGen.trans hafter (hread.append .refl)⟩

end OperatorLALR
