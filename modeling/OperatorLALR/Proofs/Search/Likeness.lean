import OperatorLALR.Proofs.Search.Branch

/-!
# What a parser and a branch have in common

An entry of a parser's stack and one of a branch's are alike if they differ only in their times, and
if the node of the one is made from the tree of the other. The parser treats like stacks alike: it
finds the same state on top, the same priority of a handle and the same open actions.
-/

namespace OperatorLALR

variable {τ ν β ε σ : Type}

/-- A part of a handle and its counterpart with a tree in place of a node. -/
inductive HandleItem.Alike (maker : NodeMaker τ ν β σ) :
    HandleItem τ ν → HandleItem τ (ParseTree τ) → Prop
  | token (view : TokenView τ) : Alike maker (.token view) (.token view.timeless)
  | node {n : ν} {t : ParseTree τ} (h : Shows maker (.node n) t) : Alike maker (.node n) (.node t)

/-- An entry of a stack and its counterpart with a tree in place of a node. -/
structure StackEntry.Alike (maker : NodeMaker τ ν β σ) (e : StackEntry τ ν)
    (e' : StackEntry τ (ParseTree τ)) : Prop where
  state : e'.state = e.state
  item : HandleItem.Alike maker e.item e'.item
  priority : e'.priority = e.priority

namespace HandleItem.Alike

variable {maker : NodeMaker τ ν β σ} {item : HandleItem τ ν} {item' : HandleItem τ (ParseTree τ)}

/-- The tree of the counterpart is what the item is made from. -/
theorem shows (h : Alike maker item item') : Shows maker item item'.tree := by
  cases h with
  | token view => exact .token view
  | node h => exact h

/-- Tokens correspond to tokens. -/
theorem isNode_eq (h : Alike maker item item') : item'.isNode = item.isNode := by
  cases h <;> rfl

/-- A token and its counterpart are read as the same operator. -/
theorem operator?_eq (h : Alike maker item item') : item'.operator? = item.operator? := by
  cases h <;> rfl

/-- The counterpart of a node is a tree that it is made from. -/
theorem exists_tree {n : ν} (h : Alike maker (.node n) item') :
    ∃ t, item' = .node t ∧ Shows maker (.node n) t := by
  cases h with
  | node h => exact ⟨_, rfl, h⟩

/-- The counterpart of a tree is a node that is made from it. -/
theorem exists_node {t : ParseTree τ} (h : Alike maker item (.node t)) :
    ∃ n, item = .node n ∧ Shows maker (.node n) t := by
  cases h with
  | node h => exact ⟨_, rfl, h⟩

end HandleItem.Alike

section Handles

variable {maker : NodeMaker τ ν β σ} {handle stack : List (StackEntry τ ν)}
  {handle' stack' : List (StackEntry τ (ParseTree τ))}

/-- The entries at one place of like lists. -/
theorem getElem?_alike (h : List.Forall₂ (StackEntry.Alike maker) handle handle') (i : Nat) :
    (handle[i]? = none ∧ handle'[i]? = none) ∨
      ∃ e e', handle[i]? = some e ∧ handle'[i]? = some e' ∧ StackEntry.Alike maker e e' := by
  induction h generalizing i with
  | nil => exact .inl ⟨rfl, rfl⟩
  | cons he _ ih =>
    cases i with
    | zero => exact .inr ⟨_, _, rfl, rfl, he⟩
    | succ i => exact ih i

/-- At each place of like lists the same operator is read. -/
theorem operatorAt_alike (h : List.Forall₂ (StackEntry.Alike maker) handle handle') (i : Nat) :
    ((handle'[i]?).bind fun e => e.item.operator?) =
      (handle[i]?).bind fun e => e.item.operator? := by
  rcases getElem?_alike h i with ⟨hi, hi'⟩ | ⟨e, e', hi, hi', he⟩
  · rw [hi, hi']
    rfl
  · rw [hi, hi', Option.bind_some, Option.bind_some, he.item.operator?_eq]

/-- The same bounds are respected in like handles. -/
theorem argumentFits_alike (h : List.Forall₂ (StackEntry.Alike maker) handle handle') (i : Nat)
    (bound : Option Nat) :
    Parser.argumentFits handle' i bound = Parser.argumentFits handle i bound := by
  unfold Parser.argumentFits
  rcases getElem?_alike h i with ⟨hi, hi'⟩ | ⟨e, e', hi, hi', he⟩
  · rw [hi, hi']
  · simp only [hi, hi', he.item.isNode_eq, he.priority]

/-- Like handles have the same priority. -/
theorem nodePriority?_alike (h : List.Forall₂ (StackEntry.Alike maker) handle handle')
    (shape : RuleShape) :
    Parser.nodePriority? shape handle' = Parser.nodePriority? shape handle := by
  unfold Parser.nodePriority?
  simp only [operatorAt_alike h, argumentFits_alike h]

/-- A reduction takes like handles from like stacks. -/
theorem forall₂_handle (h : List.Forall₂ (StackEntry.Alike maker) stack stack') (n : Nat) :
    List.Forall₂ (StackEntry.Alike maker) (stack.take n).reverse (stack'.take n).reverse :=
  List.forall₂_reverse_iff.mpr (List.forall₂_take n h)

/-- The trees of a handle are what its items are made from. -/
theorem forall₂_shows (h : List.Forall₂ (StackEntry.Alike maker) handle handle') :
    List.Forall₂ (Shows maker) (handle.map StackEntry.item)
      (handle'.map fun e => e.item.tree) := by
  rw [List.forall₂_map_left_iff, List.forall₂_map_right_iff]
  exact h.imp fun _ _ he => he.item.shows

/-- Like stacks have the same state on top. -/
theorem stateOn_alike {p : Parser τ ν β σ}
    (h : List.Forall₂ (StackEntry.Alike maker) stack stack') :
    p.overTrees.stateOn stack' = p.stateOn stack := by
  cases h with
  | nil => rfl
  | cons he => exact he.state

/-- A reduction would find the same operator in like stacks. -/
theorem operatorInHandle_alike (h : List.Forall₂ (StackEntry.Alike maker) stack stack')
    (shape : RuleShape) :
    Parser.operatorInHandle shape stack' = Parser.operatorInHandle shape stack := by
  unfold Parser.operatorInHandle
  simp only [operatorAt_alike (forall₂_handle h _), h.length_eq]

/-- The same actions are left open on like stacks. -/
theorem openActions_alike {p : Parser τ ν β σ}
    (h : List.Forall₂ (StackEntry.Alike maker) stack stack') (lookahead : Lookahead τ)
    (a : Action) :
    p.overTrees.openActions stack' lookahead.timeless a = p.openActions stack lookahead a := by
  have hcandidate : ∀ a c, p.overTrees.candidate (ε := Empty) stack' a = .ok c ↔
      p.candidate (ε := Empty) stack a = .ok c := by
    intro a c
    cases a with
    | reduce r =>
      simp only [Parser.candidate, Parser.overTrees]
      cases p.table.rule r with
      | none => simp
      | some shape => simp [operatorInHandle_alike h shape]
    | _ => simp [Parser.candidate]
  cases a with
  | dynamic d =>
    ext as
    rw [Parser.openActions_dynamic (ε := Empty), Parser.openActions_dynamic (ε := Empty),
      Parser.rank_eq_ok_iff, Parser.rank_eq_ok_iff]
    simp only [hcandidate, Lookahead.operator?_timeless]
    rfl
  | _ => rfl

end Handles

/-- The tree that a maker of trees shows is the node itself. -/
theorem Shows.tree_eq {item : HandleItem τ (ParseTree τ)} {t : ParseTree τ}
    (h : Shows (treeMaker : NodeMaker τ (ParseTree τ) β σ) item t) : item.tree = t := by
  refine @Shows.rec τ (ParseTree τ) β σ treeMaker (fun item t _ => item.tree = t)
    (fun items ts _ => items.map HandleItem.tree = ts) ?_ ?_ ?_ ?_ item t h
  · intro view
    rfl
  · intro r items children n memory memory' hmake _ ih
    obtain ⟨hn, -⟩ := Prod.mk.inj hmake
    rw [← ih, ← Except.ok.inj hn]
    rfl
  · rfl
  · intro item t items ts _ _ hitem hitems
    rw [List.map_cons, hitem, hitems]

/-- What is computed from a tree is its value. -/
theorem Shows.timeless_eq {maker : NodeMaker τ ν β σ} {item : HandleItem τ ν} {t : ParseTree τ}
    {build : RuleId → List (HandleItem τ ν) → ν} (hbuild : maker.Computes build)
    (h : Shows maker item t) : item.timeless = t.item build := by
  refine @Shows.rec τ ν β σ maker (fun item t _ => item.timeless = t.item build)
    (fun items ts _ => items.map HandleItem.timeless = ParseTree.items build ts)
    ?_ ?_ ?_ ?_ item t h
  · intro view
    rfl
  · intro r items children n memory memory' hmake _ ih
    have hn := hbuild r items memory
    rw [hmake, ih] at hn
    rw [ParseTree.item, ← Except.ok.inj hn]
    rfl
  · rfl
  · intro item t items ts _ _ hitem hitems
    rw [List.map_cons, hitem, hitems]
    rfl

end OperatorLALR
