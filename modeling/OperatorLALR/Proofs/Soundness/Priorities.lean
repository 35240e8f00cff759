import OperatorLALR.Proofs.Parser.Entries
import OperatorLALR.Proofs.Soundness.Parses

/-!
# Accepted trees respect the operators

The priority of a node is that of the operator that governs it, and a tree respects the operators if
no operand has a greater priority than its operator accepts on that side
(`ParseTree.Respects`). A parser checks this once, at the reduction, against the priorities that it
keeps on its stack. These are the priorities of the trees at all times, so that every node of an
accepted tree respects its operator (`parse_respects`): for any table, however its choices were made
and undone.
-/

namespace OperatorLALR

variable {τ ν β ε σ : Type}

namespace ParseTree

/-- Whether the tree is a node and not a token. -/
def isNode : ParseTree τ → Bool
  | .leaf _ _ _ => false
  | .node _ _ => true

/-- The operator as which the tree is read, if it is a token read as one. -/
def operator? : ParseTree τ → Option Operator
  | .leaf _ reading _ => reading.operator
  | .node _ _ => none

end ParseTree

/-- The operator that governs a node, with its place among the children: the rule names a place, and
the child there is a token read as an operator. -/
def ParseTable.governor? (table : ParseTable) (r : RuleId) (children : List (ParseTree τ)) :
    Option (Nat × Operator) :=
  ((table.rule r).bind RuleShape.operator).bind fun place =>
    ((children[place]?).bind ParseTree.operator?).map fun op => (place, op)

namespace ParseTree

/-- The priority of the operator that governs a node, or 0 without one. A token has priority 0. -/
def priority (table : ParseTable) : ParseTree τ → Nat
  | .leaf _ _ _ => 0
  | .node r children =>
    ((table.governor? r children).map fun governor => governor.2.priority).getD 0

/-- The tree may stand where priorities are bounded. -/
def Fits (table : ParseTable) (bound : Option Nat) (tree : ParseTree τ) : Prop :=
  ∀ limit ∈ bound, tree.priority table ≤ limit

end ParseTree

/-- The operands of the operator that governs a node respect its limits: the child just left of it
the one on the left, and the child just right of it the one on the right. -/
structure OperandsFit (table : ParseTable) (r : RuleId) (children : List (ParseTree τ)) : Prop where
  left : ∀ place op, table.governor? r children = some (place + 1, op) →
    ∀ operand, children[place]? = some operand → operand.Fits table op.leftLimit
  right : ∀ place op, table.governor? r children = some (place, op) →
    ∀ operand, children[place + 1]? = some operand → operand.Fits table op.rightLimit

/-- All operands fit where no operator governs. -/
theorem OperandsFit.of_ungoverned {table : ParseTable} {r : RuleId} {children : List (ParseTree τ)}
    (h : table.governor? r children = none) : OperandsFit table r children := by
  constructor <;>
  · intro place op hgovernor
    rw [h] at hgovernor
    cases hgovernor

/-- At every node of a tree the operands fit the operator that governs it. -/
inductive ParseTree.Respects (table : ParseTable) : ParseTree τ → Prop
  | leaf {token : τ} {reading : Reading} {position : Nat} :
      Respects table (.leaf token reading position)
  | node {r : RuleId} {children : List (ParseTree τ)}
      (hchildren : ∀ child ∈ children, Respects table child)
      (hoperands : OperandsFit table r children) : Respects table (.node r children)

/-- An entry of a stack is priced as a tree is: both are tokens or both are nodes, of one operator
and one priority. -/
structure StackEntry.Prices (table : ParseTable) (e : StackEntry τ ν) (tree : ParseTree τ) :
    Prop where
  isNode : e.item.isNode = tree.isNode
  operator : e.item.operator? = tree.operator?
  priority : e.priority = tree.priority table

section Handles

variable {table : ParseTable} {handle : List (StackEntry τ ν)} {children : List (ParseTree τ)}

/-- At each place of a handle and of the trees that price it the same operator is read. -/
theorem operatorAt_priced (h : List.Forall₂ (StackEntry.Prices table) handle children) (i : Nat) :
    ((handle[i]?).bind fun e => e.item.operator?) = (children[i]?).bind ParseTree.operator? := by
  cases hi : handle[i]? with
  | none =>
    have hnone : children[i]? = none := by
      rw [List.getElem?_eq_none_iff] at hi ⊢
      rwa [← h.length_eq]
    rw [hnone]
    rfl
  | some e =>
    obtain ⟨t, ht, hprices⟩ := exists_getElem?_right h hi
    rw [ht, Option.bind_some, Option.bind_some]
    exact hprices.operator

/-- The parser bounds an argument by the priority of its tree. -/
theorem argumentFits_iff (h : List.Forall₂ (StackEntry.Prices table) handle children) (i : Nat)
    (bound : Option Nat) :
    Parser.argumentFits handle i bound = true ↔
      ∀ operand, children[i]? = some operand → operand.Fits table bound := by
  unfold Parser.argumentFits
  cases hi : handle[i]? with
  | none =>
    have hnone : children[i]? = none := by
      rw [List.getElem?_eq_none_iff] at hi ⊢
      rwa [← h.length_eq]
    simp [hnone]
  | some e =>
    obtain ⟨t, ht, hprices⟩ := exists_getElem?_right h hi
    rw [ht]
    simp only [Option.some.injEq, forall_eq', hprices.isNode, hprices.priority]
    cases t with
    | leaf => simp [ParseTree.isNode, ParseTree.Fits, ParseTree.priority]
    | node r ts => cases bound <;> simp [ParseTree.isNode, ParseTree.Fits, withinBound]

/-- What the parser computes for a handle is the priority of its node, provided that the operands
fit. -/
theorem nodePriority?_eq_some_iff (h : List.Forall₂ (StackEntry.Prices table) handle children)
    {r : RuleId} {shape : RuleShape} (hrule : table.rule r = some shape) {priority : Nat} :
    Parser.nodePriority? shape handle = some priority ↔
      OperandsFit table r children ∧ priority = (ParseTree.node r children).priority table := by
  have hgovernor : (shape.operator.bind fun place =>
      ((handle[place]?).bind fun e => e.item.operator?).map fun op => (place, op)) =
        table.governor? r children := by
    rw [ParseTable.governor?, hrule, Option.bind_some]
    simp only [operatorAt_priced h]
  rw [Parser.nodePriority?, hgovernor, ParseTree.priority]
  cases hg : table.governor? r children with
  | none =>
    simp [OperandsFit.of_ungoverned hg, eq_comm]
  | some governor =>
    obtain ⟨place, op⟩ := governor
    have hfit : OperandsFit table r children ↔
        ((place == 0 || Parser.argumentFits handle (place - 1) op.leftLimit) &&
          Parser.argumentFits handle (place + 1) op.rightLimit) = true := by
      rw [Bool.and_eq_true, Bool.or_eq_true, argumentFits_iff h, argumentFits_iff h]
      constructor
      · intro hoperands
        refine ⟨?_, hoperands.right place op hg⟩
        cases place with
        | zero => exact .inl rfl
        | succ place => exact .inr (hoperands.left place op hg)
      · rintro ⟨hleft, hright⟩
        constructor
        · intro place' op' heq
          rw [hg] at heq
          obtain ⟨rfl, rfl⟩ := Prod.mk.inj (Option.some.inj heq)
          exact hleft.resolve_left (by simp)
        · intro place' op' heq
          rw [hg] at heq
          obtain ⟨rfl, rfl⟩ := Prod.mk.inj (Option.some.inj heq)
          exact hright
    dsimp only
    split
    · next hcheck => simp [hfit.mpr hcheck, eq_comm]
    · next hcheck => simp [mt hfit.mp hcheck]

/-- The node of trees that respect the operators respects them if the parser computes a priority. -/
theorem respects_of_nodePriority? (h : List.Forall₂ (StackEntry.Prices table) handle children)
    (hchildren : ∀ child ∈ children, child.Respects table) {r : RuleId} {shape : RuleShape}
    (hrule : table.rule r = some shape) {priority : Nat}
    (hpriority : Parser.nodePriority? shape handle = some priority) :
    (ParseTree.node r children).Respects table ∧
      priority = (ParseTree.node r children).priority table := by
  obtain ⟨hfit, heq⟩ := (nodePriority?_eq_some_iff h hrule).mp hpriority
  exact ⟨.node hchildren hfit, heq⟩

end Handles

/-- An entry bears a tree that respects the operators, and is priced as that tree. -/
def StackEntry.Bears (maker : NodeMaker τ ν β σ) (table : ParseTable) (e : StackEntry τ ν)
    (tree : ParseTree τ) : Prop :=
  Shows maker e.item tree ∧ e.Prices table tree ∧ tree.Respects table

/-- The node of a reduction bears the tree of the trees in its handle: the parser has checked the
operands of the operator that governs it. -/
theorem Parser.inherits_bears (p : Parser τ ν β σ) :
    p.Inherits fun e => ∃ tree, e.Bears p.maker p.table tree where
  token next view stamp :=
    ⟨.leaf view.token view.reading view.position, .token view, ⟨rfl, rfl, rfl⟩, .leaf⟩
  node := by
    intro r shape handle priority node memory memory' next stamp hrule hhandle hpriority hmake
    obtain ⟨children, hchildren⟩ := exists_forall₂_of_forall hhandle
    have hshows : List.Forall₂ (Shows p.maker) (handle.map StackEntry.item) children := by
      rw [List.forall₂_map_left_iff]
      exact hchildren.imp fun _ _ hbears => hbears.1
    have hprices : List.Forall₂ (StackEntry.Prices p.table) handle children :=
      hchildren.imp fun _ _ hbears => hbears.2.1
    have hrespects : ∀ child ∈ children, child.Respects p.table := by
      intro child hchild
      obtain ⟨i, hi⟩ := List.mem_iff_getElem?.mp hchild
      obtain ⟨e, -, hbears⟩ := exists_getElem?_left hchildren hi
      exact hbears.2.2
    obtain ⟨hnode, hpriority⟩ := respects_of_nodePriority? hprices hrespects hrule hpriority
    exact ⟨.node r children, .node hmake hshows, ⟨rfl, rfl, hpriority⟩, hnode⟩

/-- The tree of a part of a handle, where nodes can be read as trees. -/
def HandleItem.treeBy (view : ν → ParseTree τ) : HandleItem τ ν → ParseTree τ
  | .token t => .leaf t.token t.reading t.position
  | .node n => view n

/-- The nodes of a maker can be read as trees: each that it makes is the node of its rule over the
trees in the handle. -/
def NodeMaker.Keeps (maker : NodeMaker τ ν β σ) (view : ν → ParseTree τ) : Prop :=
  ∀ r items memory n memory', maker.reduce r items memory = (.ok n, memory') →
    view n = .node r (items.map (HandleItem.treeBy view))

/-- A maker of trees keeps them as they are. -/
theorem treeMaker_keeps : (treeMaker : NodeMaker τ (ParseTree τ) β σ).Keeps id := by
  intro r items memory n memory' hmake
  obtain ⟨hn, -⟩ := Prod.mk.inj hmake
  have htree : (HandleItem.treeBy id : HandleItem τ (ParseTree τ) → ParseTree τ) =
      HandleItem.tree := by
    ext item
    cases item <;> rfl
  rw [htree, ← Except.ok.inj hn]
  rfl

/-- What a node can be read as is the tree that it was made from. -/
theorem Shows.treeBy_eq {maker : NodeMaker τ ν β σ} {view : ν → ParseTree τ}
    (hview : maker.Keeps view) {item : HandleItem τ ν} {tree : ParseTree τ}
    (h : Shows maker item tree) : item.treeBy view = tree := by
  refine @Shows.rec τ ν β σ maker (fun item tree _ => item.treeBy view = tree)
    (fun items trees _ => items.map (HandleItem.treeBy view) = trees) ?_ ?_ ?_ ?_ item tree h
  · intro token
    rfl
  · intro r items children n memory memory' hmake _ ih
    rw [HandleItem.treeBy, hview r items memory n memory' hmake, ih]
  · rfl
  · intro item tree items trees _ _ hitem hitems
    rw [List.map_cons, hitem, hitems]

variable [Token τ]

omit [Token τ] in
/-- The entries of a branch are priced as the trees that they bear, and these respect the
operators. -/
def Branch.Respects (table : ParseTable) (b : Branch τ) : Prop :=
  ∀ e ∈ b.stack, e.Prices table e.item.tree ∧ e.item.tree.Respects table

/-- Every way on from a branch respects the operators. -/
theorem Branch.Respects.next {p : Parser τ (ParseTree τ) β σ} {tokens : List τ} {b : Branch τ}
    (h : b.Respects p.table) : ∀ b' ∈ b.next p tokens, b'.Respects p.table := by
  intro b' hb'
  cases step_of_mem_next hb' with
  | ended | read | force => exact h
  | shift => exact List.forall_mem_cons.mpr ⟨⟨⟨rfl, rfl, rfl⟩, .leaf⟩, h⟩
  | reduce _ _ hreduce =>
    obtain ⟨shape, priority, next, hrule, -, hpriority, -, rfl⟩ := reduce?_eq_some_iff.mp hreduce
    have hhandle : ∀ e ∈ (b.stack.take shape.length).reverse,
        e.Prices p.table e.item.tree ∧ e.item.tree.Respects p.table := fun e he =>
      h e (List.mem_of_mem_take (List.mem_reverse.mp he))
    have hprices : List.Forall₂ (StackEntry.Prices p.table) (b.stack.take shape.length).reverse
        ((b.stack.take shape.length).reverse.map fun e => e.item.tree) := by
      rw [List.forall₂_map_right_iff, List.forall₂_same]
      exact fun e he => (hhandle e he).1
    have hchildren : ∀ child ∈ (b.stack.take shape.length).reverse.map fun e => e.item.tree,
        child.Respects p.table := by
      intro child hchild
      obtain ⟨e, he, rfl⟩ := List.mem_map.mp hchild
      exact (hhandle e he).2
    obtain ⟨hnode, rfl⟩ := respects_of_nodePriority? hprices hchildren hrule hpriority
    refine List.forall_mem_cons.mpr ⟨⟨⟨rfl, rfl, rfl⟩, hnode⟩, fun e he => ?_⟩
    exact h e (List.mem_of_mem_drop he)

omit [Token τ] in
/-- The tree of a branch that accepts respects the operators. -/
theorem Branch.Respects.result {p : Parser τ (ParseTree τ) β σ} {b : Branch τ} {tree : ParseTree τ}
    (h : b.Respects p.table) (hresult : b.result? p = some tree) : tree.Respects p.table := by
  obtain ⟨lookahead, -, hresult⟩ := Option.bind_eq_some_iff.mp hresult
  split at hresult
  · next hstack =>
    obtain rfl := Option.some.inj hresult
    exact (h _ (hstack ▸ List.mem_cons_self)).2
  · cases hresult

/-- Whatever table, operators and tokens a parse has, and whatever it has tried and undone, the tree
of an accepted input respects the operators. It is the tree that the node was made from step by
step, and what the node is read as where nodes keep their trees. -/
theorem parse_respects {p : Parser τ ν β σ} {n : Nat} {source : List (Except ε τ)} {memory : σ}
    {node : ν} {last : Machine τ ν ε σ} (h : p.parse n source memory = some (.ok node, last)) :
    ∃ tree, Shows p.maker (.node node) tree ∧ tree.Respects p.table ∧
      ∀ view, p.maker.Keeps view → view node = tree := by
  obtain ⟨m, hreach, hstep⟩ := Parser.run_eq_some h
  obtain ⟨-, -, top, below, -, -, hstack, hitem⟩ := Parser.step_accepted hstep
  have hentries : m.AllEntries fun e => ∃ tree, e.Bears p.maker p.table tree :=
    .of_reaches p.inherits_bears hreach
  obtain ⟨tree, hshows, -, hrespects⟩ := hentries.stack top (hstack ▸ List.mem_cons_self)
  rw [hitem] at hshows
  exact ⟨tree, hshows, hrespects, fun _ hview => hshows.treeBy_eq hview⟩

/-- The tree of a sum of three words respects the operator, which is left-associative. -/
theorem parse_respects_sum :
    ∃ tree, ∃ last : Machine (TerminalId × String) (ParseTree (TerminalId × String)) Empty Unit,
      sumParser.parse 30 (sumTokens.map .ok) () = some (.ok tree, last) ∧
      tree.Respects sumParser.table := by
  have hends : ((sumParser.parse (ε := Empty) 30 (sumTokens.map .ok) ()).any
      fun result => result.1.isOk) = true := by
    decide +kernel
  obtain ⟨⟨outcome, last⟩, hparse, hok⟩ := (Option.any_eq_true _ _).mp hends
  cases outcome with
  | error e => cases hok
  | ok tree =>
    obtain ⟨tree', -, hrespects, hkeeps⟩ := parse_respects hparse
    have hmaker : sumParser.maker = treeMaker := by
      rw [sumParser, Parser.defineAll_eq]
      rfl
    obtain rfl : tree = tree' := hkeeps id (hmaker ▸ treeMaker_keeps)
    exact ⟨tree, last, hparse, hrespects⟩

end OperatorLALR
