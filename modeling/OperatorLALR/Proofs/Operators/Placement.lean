import OperatorLALR.Proofs.Completeness.Guides
import OperatorLALR.Proofs.Operators.Trees

/-!
# Where expressions stand

An expression that respects the operators can be read wherever the operators around it accept it:
the one in front of it, which stands on top of the stack, on its right side, and the one behind it,
which is the lookahead, on its left side (`Expression.Placed`). Neither then forbids what the
expression calls for. All operands in the expression are placed in the same way, because no operand
has a greater priority than the expression has (`Expression.Placed.child`). So a parser can be led
along the expression (`expressions_guide`).
-/

namespace OperatorLALR

variable {τ β σ : Type}

/-- The operators as which the entries of a stack are read, the topmost first. -/
def operatorsOn (stack : List (StackEntry τ (ParseTree τ))) : List (Option Operator) :=
  stack.map fun e => e.item.operator?

/-- The operators on entries that are priced as some trees are those of the trees. -/
theorem operatorsOn_append {table : ParseTable} {entries : List (StackEntry τ (ParseTree τ))}
    (below : List (StackEntry τ (ParseTree τ))) {done : List (ParseTree τ)}
    (h : List.Forall₂ (StackEntry.Prices table) entries.reverse done) :
    operatorsOn (entries ++ below) =
      (done.map ParseTree.operator?).reverse ++ operatorsOn below := by
  have hsame : entries.reverse.map (fun e => e.item.operator?) = done.map ParseTree.operator? := by
    rw [← List.forall₂_eq_eq_eq, List.forall₂_map_left_iff, List.forall₂_map_right_iff]
    exact h.imp fun _ _ hprices => hprices.operator
  rw [← hsame, ← List.map_reverse, List.reverse_reverse]
  exact List.map_append

/-- The operator in a handle stands on the stack. -/
theorem getElem?_operatorsOn {shape : RuleShape} {stack : List (StackEntry τ (ParseTree τ))}
    {place : Nat} {op : Operator} (hplace : shape.operator = some place)
    (hlt : place < shape.length) (h : Parser.operatorInHandle shape stack = some op) :
    (operatorsOn stack)[shape.length - 1 - place]? = some (some op) := by
  rw [Parser.operatorInHandle, hplace] at h
  dsimp only at h
  split at h
  · cases h
  · next henough =>
    obtain ⟨e, he, hop⟩ := Option.bind_eq_some_iff.mp h
    have hlength : (stack.take shape.length).length = shape.length :=
      List.length_take_of_le (Nat.le_of_not_lt henough)
    rw [List.getElem?_reverse (by rwa [hlength]), hlength,
      List.getElem?_take_of_lt (by omega)] at he
    rw [operatorsOn, List.getElem?_map, he, Option.map_some, hop]

namespace Expression

/-- An operator other than one in front of its operand may be shifted: the one that stands below the
topmost entry accepts it on its right. -/
def LeafPlaced (stack : List (StackEntry τ (ParseTree τ))) (reading : Reading) : Prop :=
  reading.terminal ≠ Fixity.prefixOp.terminal → ∀ incoming op, reading.operator = some incoming →
    (operatorsOn stack)[1]? = some (some op) → ∀ limit ∈ op.rightLimit, incoming.priority ≤ limit

/-- An expression respects the operators, and so do those around it. -/
structure NodePlaced (stack : List (StackEntry τ (ParseTree τ))) (tree : ParseTree τ)
    (lookahead : Lookahead τ) : Prop where
  expression : Expression tree
  respects : tree.Respects expressionsTable.toParseTable
  /-- The operator in front of the expression accepts it on its right. -/
  right : ∀ op, (operatorsOn stack)[0]? = some (some op) →
    tree.Fits expressionsTable.toParseTable op.rightLimit
  /-- The operator behind the expression accepts it on its left. -/
  left : ∀ op, lookahead.operator? = some op →
    tree.Fits expressionsTable.toParseTable op.leftLimit

/-- A token or an expression may be read onto a stack before a lookahead. -/
def Placed (stack : List (StackEntry τ (ParseTree τ))) (tree : ParseTree τ)
    (lookahead : Lookahead τ) : Prop :=
  match tree with
  | .leaf _ reading _ => LeafPlaced stack reading
  | .node r children => NodePlaced stack (.node r children) lookahead

/-- An expression is a node. -/
theorem exists_node {tree : ParseTree τ} (h : Expression tree) :
    ∃ r children, tree = .node r children := by
  cases h <;> exact ⟨_, _, rfl⟩

/-- An expression may be read where it is placed as a node. -/
theorem NodePlaced.placed {stack : List (StackEntry τ (ParseTree τ))} {tree : ParseTree τ}
    {lookahead : Lookahead τ} (h : NodePlaced stack tree lookahead) :
    Placed stack tree lookahead := by
  obtain ⟨r, children, rfl⟩ := h.expression.exists_node
  exact h

/-- A token that is not read as an operator may be shifted anywhere. -/
theorem leafPlaced_none (stack : List (StackEntry τ (ParseTree τ))) (t : TerminalId) :
    LeafPlaced stack ⟨t, none⟩ :=
  fun _ _ _ hincoming => nomatch hincoming

section Operands

variable {below stack : List (StackEntry τ (ParseTree τ))} {tree e : ParseTree τ}
  {lookahead : Lookahead τ} {op : Operator} (h : NodePlaced below tree lookahead)
  (he : Expression e) (hrespects : e.Respects expressionsTable.toParseTable)

include h he hrespects

/-- A left operand stands where the whole expression does, with the operator behind it. -/
theorem NodePlaced.leftOperand (hfits : e.Fits expressionsTable.toParseTable op.leftLimit)
    (hle : e.priority expressionsTable.toParseTable ≤ tree.priority expressionsTable.toParseTable)
    (hstack : (operatorsOn stack)[0]? = (operatorsOn below)[0]?) {view : TokenView τ}
    (hview : view.reading.operator = some op) : NodePlaced stack e (.token view) := by
  refine ⟨he, hrespects, fun op' hop' => ?_, fun op' hop' => ?_⟩
  · exact (h.right op' (hstack.symm.trans hop')).mono hle
  · obtain rfl : op = op' := Option.some.inj (hview.symm.trans hop')
    exact hfits

/-- A right operand has the operator in front of it and stands before what follows the whole
expression. -/
theorem NodePlaced.rightOperand (hfits : e.Fits expressionsTable.toParseTable op.rightLimit)
    (hle : e.priority expressionsTable.toParseTable ≤ tree.priority expressionsTable.toParseTable)
    (hstack : (operatorsOn stack)[0]? = some (some op)) : NodePlaced stack e lookahead := by
  refine ⟨he, hrespects, fun op' hop' => ?_, fun op' hop' => (h.left op' hop').mono hle⟩
  obtain rfl : op = op' := Option.some.inj (Option.some.inj (hstack.symm.trans hop'))
  exact hfits

omit he hrespects

/-- The operator of an expression may be shifted onto its left operand. -/
theorem NodePlaced.operator (hpriority : tree.priority expressionsTable.toParseTable = op.priority)
    (hstack : (operatorsOn stack)[1]? = (operatorsOn below)[0]?) (t : TerminalId) :
    LeafPlaced stack ⟨t, some op⟩ := by
  rintro - incoming op' hincoming hop' limit hlimit
  obtain rfl : op = incoming := Option.some.inj hincoming
  rw [← hpriority]
  exact h.right op' (hstack.symm.trans hop') limit hlimit

end Operands

/-- The children of a placed expression are placed. -/
theorem NodePlaced.child {entries below : List (StackEntry τ (ParseTree τ))} {r : RuleId}
    {done rest : List (ParseTree τ)} {operand : ParseTree τ} {lookahead : Lookahead τ}
    (hprices : List.Forall₂ (StackEntry.Prices expressionsTable.toParseTable) entries.reverse done)
    (h : NodePlaced below (.node r (done ++ operand :: rest)) lookahead) :
    Placed (entries ++ below) operand (lookaheadBefore rest lookahead) := by
  have hoperators := operatorsOn_append below hprices
  generalize hchildren : done ++ operand :: rest = children at h
  obtain _ | ⟨hall, hoperands⟩ := h.respects
  cases h.expression with
  | atom token i =>
    simp only [append_cons_eq_cons_iff, List.append_eq_nil_iff, reduceCtorEq, and_false,
      exists_false, or_false] at hchildren
    obtain ⟨rfl, rfl, rfl⟩ := hchildren
    exact leafPlaced_none _ _
  | parens left right i j he =>
    simp only [append_cons_eq_cons_iff, List.append_eq_nil_iff, reduceCtorEq, and_false,
      exists_false, or_false] at hchildren
    rcases hchildren with ⟨rfl, rfl, rfl⟩ | ⟨_, rfl, ⟨rfl, rfl, rfl⟩ | ⟨_, rfl, rfl, rfl, rfl⟩⟩
    · exact leafPlaced_none _ _
    · refine NodePlaced.placed ⟨he, hall _ (by simp), fun op hop => ?_, fun op hop => ?_⟩
      · rw [hoperators] at hop
        cases hop
      · cases hop
    · exact leafPlaced_none _ _
  | @prefixOp token i op e hop he =>
    have hfits : e.Fits expressionsTable.toParseTable op.rightLimit :=
      hoperands.right 0 op rfl e rfl
    have hle := hfits.le_of_right (by rw [hop]; nofun)
    simp only [append_cons_eq_cons_iff, List.append_eq_nil_iff, reduceCtorEq, and_false,
      exists_false, or_false] at hchildren
    rcases hchildren with ⟨rfl, rfl, rfl⟩ | ⟨_, rfl, rfl, rfl, rfl⟩
    · exact fun hne => absurd rfl hne
    · exact (h.rightOperand he (hall _ (by simp)) hfits hle (by rw [hoperators]; rfl)).placed
  | @infixOp token i op e e' hop he he' =>
    have hfits : e.Fits expressionsTable.toParseTable op.leftLimit := hoperands.left 0 op rfl e rfl
    have hfits' : e'.Fits expressionsTable.toParseTable op.rightLimit :=
      hoperands.right 1 op rfl e' rfl
    have hle := hfits.le_of_left (by rw [hop]; nofun)
    have hle' := hfits'.le_of_right (by rw [hop]; nofun)
    simp only [append_cons_eq_cons_iff, List.append_eq_nil_iff, reduceCtorEq, and_false,
      exists_false, or_false] at hchildren
    rcases hchildren with ⟨rfl, rfl, rfl⟩ | ⟨_, rfl, ⟨rfl, rfl, rfl⟩ | ⟨_, rfl, rfl, rfl, rfl⟩⟩
    · exact (h.leftOperand he (hall _ (by simp)) hfits hle (by rw [hoperators]; rfl) rfl).placed
    · exact h.operator rfl (by rw [hoperators]; rfl) _
    · exact (h.rightOperand he' (hall _ (by simp)) hfits' hle' (by rw [hoperators]; rfl)).placed
  | @postfixOp token i op e hop he =>
    have hfits : e.Fits expressionsTable.toParseTable op.leftLimit := hoperands.left 0 op rfl e rfl
    have hle := hfits.le_of_left (by rw [hop]; nofun)
    simp only [append_cons_eq_cons_iff, List.append_eq_nil_iff, reduceCtorEq, and_false,
      exists_false, or_false] at hchildren
    rcases hchildren with ⟨rfl, rfl, rfl⟩ | ⟨_, rfl, rfl, rfl, rfl⟩
    · exact (h.leftOperand he (hall _ (by simp)) hfits hle (by rw [hoperators]; rfl) rfl).placed
    · exact h.operator rfl (by rw [hoperators]; rfl) _

end Expression

section Offers

variable {p : Parser τ (ParseTree τ) β σ} (hp : Serves expressions expressionsAnalysis p)
  (hc : expressions.Covers expressionsAnalysis p.table)
  (htable : p.table = expressionsTable.toParseTable)

include htable

/-- Where the operators decide, the handle has a right operand on top and its operator below. -/
theorem second_of_operatorInHandle {r : RuleId} {shape : RuleShape} {op : Operator}
    {stack : List (StackEntry τ (ParseTree τ))}
    (hr : .reduce r ∈ [Action.shift ⟨5⟩, .shift ⟨6⟩, .reduce ⟨1⟩, .reduce ⟨2⟩])
    (hshape : p.table.rule r = some shape) (hop : Parser.operatorInHandle shape stack = some op) :
    (operatorsOn stack)[1]? = some (some op) := by
  rw [htable] at hshape
  simp only [List.mem_cons, reduceCtorEq, Action.reduce.injEq, List.not_mem_nil, or_false,
    false_or] at hr
  rcases hr with rfl | rfl <;> obtain rfl := Option.some.inj hshape
  · exact getElem?_operatorsOn rfl (by decide) hop
  · exact getElem?_operatorsOn rfl (by decide) hop

include hp hc

/-- The table offers to shift a placed token. -/
theorem Expression.LeafPlaced.offers [Token τ] {stack : List (StackEntry τ (ParseTree τ))}
    {view : TokenView τ} {next : StateId} (h : LeafPlaced stack view.reading)
    (hgoes : (expressions.automaton expressionsAnalysis).Goes (p.stateOn stack)
      (.terminal view.reading.terminal) next) : p.Offers stack (.token view) (.shift next) := by
  have hmem : .shift next ∈ p.table.ways (p.stateOn stack) view.reading.terminal := by
    rw [htable]
    exact expressions_mem_ways hgoes
  refine Parser.offers_shift hmem (hp.table.shapes expressions_built hc _ _) ?_
  intro incoming hincoming r shape op hr hshape hop
  rw [Lookahead.terminal] at hr
  rw [htable] at hmem hr
  rcases expressions_way hr with ⟨hways, -⟩ | ⟨hne, hopens⟩
  · rw [hways] at hmem
    cases List.mem_singleton.mp hmem
  · exact withinBound_iff.mpr
      (h hne incoming op hincoming (second_of_operatorInHandle htable hopens hshape hop))

/-- The table offers to reduce the children of a placed expression. -/
theorem Expression.NodePlaced.offers {below entries : List (StackEntry τ (ParseTree τ))}
    {r : RuleId} {children : List (ParseTree τ)} {lookahead : Lookahead τ}
    (h : NodePlaced below (.node r children) lookahead)
    (hprices : List.Forall₂ (StackEntry.Prices p.table) entries.reverse children)
    (hacts : expressions.Acts expressionsAnalysis (p.stateOn (entries ++ below))
      lookahead.terminal (.reduce r)) : p.Offers (entries ++ below) lookahead (.reduce r) := by
  have hmem : .reduce r ∈ p.table.ways (p.stateOn (entries ++ below)) lookahead.terminal := by
    rw [htable]
    exact expressions_mem_ways hacts
  obtain ⟨shape, hshape, hlength⟩ :
      ∃ shape, p.table.rule r = some shape ∧ shape.length = children.length := by
    rw [htable]
    cases h.expression <;> exact ⟨_, rfl, rfl⟩
  refine Parser.offers_reduce hmem (hp.table.shapes expressions_built hc _ _) hprices hshape ?_ ?_
  · rw [hlength, ← hprices.length_eq, List.length_reverse]
  · rw [htable]
    exact h.left

/-- A parser over the table can be led along all placed expressions. -/
theorem expressions_guide [Token τ] :
    Guide expressions expressionsAnalysis p Expression.Placed where
  shift _ hplaced hgoes := Expression.LeafPlaced.offers hp hc htable hplaced hgoes
  reduce _ hprices hplaced hr hlook := hplaced.offers hp hc htable hprices ⟨hr, hlook⟩
  operands := by
    intro below r children lookahead hplaced
    obtain _ | ⟨-, hoperands⟩ := hplaced.respects
    rw [htable]
    exact hoperands
  child := by
    intro below entries symbols r done child rest lookahead _ hprices _ _ hplaced
    rw [htable] at hprices
    exact hplaced.child hprices
  accept := by
    intro stack symbols _ hhas
    have hacts : expressions.Acts expressionsAnalysis (p.stateOn stack) endOfInput .accept :=
      expressions_built.look_accept hhas rfl
    have hmem := expressions_mem_ways hacts
    rw [htable]
    rcases expressions_way hmem with ⟨-, haction⟩ | ⟨-, hopens⟩
    · exact haction
    · simp at hopens

end Offers

end OperatorLALR
