import OperatorLALR.Proofs.Soundness.Paths

/-!
# Derivation trees and derivations

The views of a parse tree are its tokens in their readings, from left to right. A symbol derives the
terminals as which the tokens of its derivation tree are read (`Spells.derives`), and conversely
whatever tokens it derives in a row are the leaves of one of its derivation trees
(`exists_spells_of_derives`).
-/

namespace OperatorLALR

variable {τ : Type}

mutual

/-- The tokens at the leaves of a tree as they are read, from left to right. -/
def ParseTree.views : ParseTree τ → List (TokenView τ)
  | .leaf token reading position => [⟨token, reading, position, 0⟩]
  | .node _ children => ParseTree.viewsOf children

/-- The tokens at the leaves of some trees as they are read, from left to right. -/
def ParseTree.viewsOf : List (ParseTree τ) → List (TokenView τ)
  | [] => []
  | t :: ts => t.views ++ ParseTree.viewsOf ts

end

/-- The views of some trees are those of each of them in turn. -/
theorem ParseTree.viewsOf_eq (ts : List (ParseTree τ)) :
    ParseTree.viewsOf ts = ts.flatMap ParseTree.views := by
  induction ts with
  | nil => rfl
  | cons t ts ih => rw [viewsOf, ih, List.flatMap_cons]

/-- The views of two lists of trees follow one another. -/
theorem ParseTree.viewsOf_append (ts us : List (ParseTree τ)) :
    ParseTree.viewsOf (ts ++ us) = ParseTree.viewsOf ts ++ ParseTree.viewsOf us := by
  rw [viewsOf_eq, viewsOf_eq, viewsOf_eq, List.flatMap_append]

/-- A token and its place in the input. -/
def TokenView.place (view : TokenView τ) : τ × Nat := (view.token, view.position)

mutual

/-- The leaves of a tree are the tokens of its views. -/
theorem ParseTree.map_place_views : (tree : ParseTree τ) →
    tree.views.map TokenView.place = tree.leaves
  | .leaf _ _ _ => rfl
  | .node _ children => ParseTree.map_place_viewsOf children

/-- The leaves of some trees are the tokens of their views. -/
theorem ParseTree.map_place_viewsOf : (trees : List (ParseTree τ)) →
    (ParseTree.viewsOf trees).map TokenView.place = ParseTree.leavesOf trees
  | [] => rfl
  | t :: ts => by
    rw [ParseTree.viewsOf, ParseTree.leavesOf, List.map_append, ParseTree.map_place_views t,
      ParseTree.map_place_viewsOf ts]

end

/-- The symbol that a view is read as. -/
def TokenView.symbol (view : TokenView τ) : Symbol := .terminal view.reading.terminal

variable [Token τ] {g : Grammar} {operators : OperatorTable} {symbol : Symbol}
  {symbols : List Symbol} {tree : ParseTree τ} {trees : List (ParseTree τ)}

/-- A symbol derives the terminals as which the tokens of its derivation tree are read. -/
theorem Spells.derives (h : Spells g operators symbol tree) :
    g.Derives [symbol] (tree.views.map TokenView.symbol) := by
  refine @Spells.rec τ _ g operators
    (fun symbol tree _ => g.Derives [symbol] (tree.views.map TokenView.symbol))
    (fun symbols trees _ => g.Derives symbols ((ParseTree.viewsOf trees).map TokenView.symbol))
    ?_ ?_ ?_ ?_ symbol tree h
  · intro token reading position _
    exact .refl
  · intro r rule children hrule _ ih
    exact ih.rule hrule
  · exact .refl
  · intro symbol tree symbols trees _ _ htree htrees
    rw [ParseTree.viewsOf, List.map_append]
    exact htree.append htrees

/-- Symbols derive the terminals as which the tokens of their derivation trees are read. -/
theorem derives_of_forall₂_spells (h : List.Forall₂ (Spells g operators) symbols trees) :
    g.Derives symbols ((ParseTree.viewsOf trees).map TokenView.symbol) := by
  induction h with
  | nil => exact .refl
  | cons htree _ ih =>
    rw [ParseTree.viewsOf, List.map_append]
    exact htree.derives.append ih

/-- Symbols vanish if their derivation trees have no leaves. -/
theorem vanishes_of_viewsOf_eq_nil (h : List.Forall₂ (Spells g operators) symbols trees)
    (hviews : ParseTree.viewsOf trees = []) : g.Vanishes symbols := by
  have hderives := derives_of_forall₂_spells h
  rwa [hviews] at hderives

/-- The first leaf of their derivation trees begins symbols. -/
theorem begins_of_viewsOf_eq_cons (h : List.Forall₂ (Spells g operators) symbols trees)
    {view : TokenView τ} {views : List (TokenView τ)}
    (hviews : ParseTree.viewsOf trees = view :: views) :
    g.Begins symbols view.reading.terminal := by
  have hderives := derives_of_forall₂_spells h
  rw [hviews] at hderives
  exact ⟨_, hderives⟩

/-- Where a nonterminal is replaced by the body of a rule, the derivation trees of the body become
the children of a node. -/
theorem exists_spells_of_rewrites {symbols' : List Symbol} (hrewrites : g.Rewrites symbols symbols')
    (h : List.Forall₂ (Spells g operators) symbols' trees) :
    ∃ trees', List.Forall₂ (Spells g operators) symbols trees' ∧
      ParseTree.viewsOf trees' = ParseTree.viewsOf trees := by
  induction hrewrites generalizing trees with
  | @head r rule hrule rest =>
    have hbody := List.forall₂_take_append trees rule.body rest h.flip
    have hrest := List.forall₂_drop_append trees rule.body rest h.flip
    refine ⟨.node r (trees.take rule.body.length) :: trees.drop rule.body.length,
      .cons (.node hrule hbody.flip) hrest.flip, ?_⟩
    rw [ParseTree.viewsOf, ParseTree.views, ← ParseTree.viewsOf_append, List.take_append_drop]
  | tail symbol _ ih =>
    obtain ⟨tree, trees', htree, htrees', rfl⟩ := List.forall₂_cons_left_iff.mp h
    obtain ⟨trees'', htrees'', hviews⟩ := ih htrees'
    refine ⟨tree :: trees'', .cons htree htrees'', ?_⟩
    rw [ParseTree.viewsOf, ParseTree.viewsOf, hviews]

/-- What symbols derive in a row are the leaves of derivation trees. -/
theorem exists_spells_of_derives {views : List (TokenView τ)}
    (hreads : ∀ v ∈ views, Reads operators v.token v.reading ∧ v.stamp = 0)
    (h : g.Derives symbols (views.map TokenView.symbol)) :
    ∃ trees, List.Forall₂ (Spells g operators) symbols trees ∧
      ParseTree.viewsOf trees = views := by
  induction h using Relation.ReflTransGen.head_induction_on with
  | refl =>
    induction views with
    | nil => exact ⟨[], .nil, rfl⟩
    | cons v views ih =>
      obtain ⟨⟨hv, hstamp⟩, hviews⟩ := List.forall_mem_cons.mp hreads
      obtain ⟨trees, htrees, heq⟩ := ih hviews
      refine ⟨.leaf v.token v.reading v.position :: trees, .cons (.leaf hv) htrees, ?_⟩
      rw [ParseTree.viewsOf, heq, ParseTree.views, ← hstamp]
      rfl
  | head hrewrites _ ih =>
    obtain ⟨trees, htrees, hviews⟩ := ih
    obtain ⟨trees', htrees', hviews'⟩ := exists_spells_of_rewrites hrewrites htrees
    exact ⟨trees', htrees', hviews'.trans hviews⟩

end OperatorLALR
