import OperatorLALR.Proofs.ParseTable.Permits
import OperatorLALR.Proofs.Search.Branch

/-!
# Derivation trees and stack paths

A parse tree is a derivation tree for a symbol if the children of each node spell the body of its
rule, and if each token is read in one of its own ways (`Spells`). The stack of a parser is a path
of the automaton whose entries spell the symbols on its edges (`Path`). If the state on top has an
item with its dot in some place, then the topmost entries spell the symbols before the dot
(`Path.handle`).
-/

namespace OperatorLALR

variable {τ β σ : Type}

/-- The ways in which a token may be read: as its own terminal, or as that of an operator registered
under its operator name. -/
inductive Reads [Token τ] (operators : OperatorTable) (token : τ) : Reading → Prop
  | plain : Reads operators token ⟨Token.terminal token, none⟩
  | operator {name : String} {op : Operator} (hname : Token.operatorName token = some name)
      (hop : op ∈ operators.lookup name) : Reads operators token ⟨op.terminal, some op⟩

/-- A parse tree is a derivation tree for a symbol. -/
inductive Spells [Token τ] (g : Grammar) (operators : OperatorTable) : Symbol → ParseTree τ → Prop
  | leaf {token : τ} {reading : Reading} {position : Nat} (h : Reads operators token reading) :
      Spells g operators (.terminal reading.terminal) (.leaf token reading position)
  | node {r : RuleId} {rule : Rule} {children : List (ParseTree τ)} (hrule : g.rule? r = some rule)
      (hchildren : List.Forall₂ (Spells g operators) rule.body children) :
      Spells g operators (.nonterminal rule.left) (.node r children)

/-- A derivation tree of a nonterminal is a node. -/
theorem Spells.exists_node [Token τ] {g : Grammar} {operators : OperatorTable}
    {n : NonterminalId} {tree : ParseTree τ}
    (h : Spells g operators (.nonterminal n) tree) : ∃ r children, tree = .node r children := by
  cases h with
  | node => exact ⟨_, _, rfl⟩

mutual

/-- The tokens at the leaves of a tree with their places in the input, from left to right. -/
def ParseTree.leaves : ParseTree τ → List (τ × Nat)
  | .leaf token _ position => [(token, position)]
  | .node _ children => ParseTree.leavesOf children

/-- The tokens at the leaves of some trees. -/
def ParseTree.leavesOf : List (ParseTree τ) → List (τ × Nat)
  | [] => []
  | t :: ts => t.leaves ++ ParseTree.leavesOf ts

end

/-- The leaves of some trees are those of each of them in turn. -/
theorem ParseTree.leavesOf_eq (ts : List (ParseTree τ)) :
    ParseTree.leavesOf ts = ts.flatMap ParseTree.leaves := by
  induction ts with
  | nil => rfl
  | cons t ts ih => rw [leavesOf, ih, List.flatMap_cons]

/-- The trees on a stack, the lowest first. -/
def stackTrees (stack : List (StackEntry τ (ParseTree τ))) : List (ParseTree τ) :=
  stack.reverse.map fun e => e.item.tree

/-- An entry on top of a stack adds its tree at the end. -/
theorem stackTrees_cons (e : StackEntry τ (ParseTree τ))
    (stack : List (StackEntry τ (ParseTree τ))) :
    stackTrees (e :: stack) = stackTrees stack ++ [e.item.tree] := by
  rw [stackTrees, stackTrees, List.reverse_cons, List.map_append]
  rfl

/-- The trees on a stack are those below a number of entries, and those of the entries. -/
theorem stackTrees_take_drop (n : Nat) (stack : List (StackEntry τ (ParseTree τ))) :
    stackTrees stack = stackTrees (stack.drop n) ++ stackTrees (stack.take n) := by
  rw [stackTrees, stackTrees, stackTrees, ← List.map_append, ← List.reverse_append,
    List.take_append_drop]

/-- A stack is a path of the automaton, and its entries spell the symbols on the edges, the topmost
first. -/
inductive Path [Token τ] (g : Grammar) (a : Analysis) (p : Parser τ (ParseTree τ) β σ) :
    List (StackEntry τ (ParseTree τ)) → List Symbol → Prop
  | nil : Path g a p [] []
  | cons {e : StackEntry τ (ParseTree τ)} {below : List (StackEntry τ (ParseTree τ))}
      {symbol : Symbol} {symbols : List Symbol} (h : Path g a p below symbols)
      (hgoes : (g.automaton a).Goes (p.stateOn below) symbol e.state)
      (hspells : Spells g p.operators symbol e.item.tree) :
      Path g a p (e :: below) (symbol :: symbols)

namespace Path

variable [Token τ] {g : Grammar} {a : Analysis} {p : Parser τ (ParseTree τ) β σ}
  {stack : List (StackEntry τ (ParseTree τ))} {symbols : List Symbol}

/-- What is left of a path below some entries is a path. -/
theorem drop (h : Path g a p stack symbols) (n : Nat) :
    Path g a p (stack.drop n) (symbols.drop n) := by
  induction h generalizing n with
  | nil =>
    rw [List.drop_nil, List.drop_nil]
    exact .nil
  | cons h hgoes hspells ih =>
    cases n with
    | zero => exact .cons h hgoes hspells
    | succ n => exact ih n

/-- Only the empty path ends in the initial state. -/
theorem eq_nil_of_initial (h : Path g a p stack symbols) (hg : g.Built a)
    (hstate : p.stateOn stack = initialState) : stack = [] := by
  cases h with
  | nil => rfl
  | @cons e _ _ _ _ hgoes _ =>
    have htop : e.state = initialState := hstate
    rw [htop] at hgoes
    exact absurd hgoes hg.not_goes_initialState

/-- If the state on top has an item with the dot behind some symbols, the topmost entries spell
these symbols, and the state below them has the item with the dot in front. -/
theorem handle (h : Path g a p stack symbols) (hg : g.Built a)
    (hinitial : p.table.initial = initialState) {r : RuleId} {dot : Nat}
    (hitem : (g.automaton a).Has (p.stateOn stack) ⟨r, dot⟩) :
    dot ≤ stack.length ∧
      List.Forall₂ (Spells g p.operators) ((g.body r).take dot) (stackTrees (stack.take dot)) ∧
      (g.automaton a).Has (p.stateOn (stack.drop dot)) ⟨r, 0⟩ := by
  induction dot generalizing stack symbols with
  | zero =>
    rw [List.take_zero, List.take_zero]
    exact ⟨Nat.zero_le _, .nil, hitem⟩
  | succ dot ih =>
    cases h with
    | nil =>
      obtain ⟨q, symbol, hgoes⟩ := hg.exists_goes_before hitem
      have hstart : p.stateOn ([] : List (StackEntry τ (ParseTree τ))) = initialState := hinitial
      rw [hstart] at hgoes
      exact absurd hgoes hg.not_goes_initialState
    | @cons e below symbol symbols hbelow hgoes hspells =>
      obtain ⟨hold, hnext⟩ := hg.has_before hgoes hitem
      obtain ⟨hle, htrees, hfront⟩ := ih hbelow hold
      have hsymbol : (g.body r)[dot]? = some symbol := hnext
      refine ⟨Nat.succ_le_succ hle, ?_, hfront⟩
      rw [List.take_add_one, hsymbol, List.take_succ_cons, stackTrees_cons]
      exact List.rel_append htrees (.cons hspells .nil)

/-- The top of a path whose state has the rule of the augmented start symbol at its end is a
node. -/
theorem exists_node (hpath : Path g a p stack symbols) (hg : g.Built a)
    (hinitial : p.table.initial = initialState)
    (hhas : (g.automaton a).Has (p.stateOn stack) ⟨acceptRule, (g.body acceptRule).length⟩) :
    ∃ top below tree, stack = top :: below ∧ top.item = .node tree := by
  have hbody : g.body acceptRule = [.nonterminal g.start] := Grammar.body_eq hg.wellFormed.accept
  obtain ⟨-, hspells, -⟩ := hpath.handle hg hinitial hhas
  rw [hbody] at hspells
  cases hpath with
  | nil => cases hspells
  | @cons top below _ _ _ _ _ =>
    refine ⟨top, below, ?_⟩
    have htop : Spells g p.operators (.nonterminal g.start) top.item.tree := by
      cases hspells with
      | cons hspells _ => exact hspells
    cases hitem : top.item with
    | node tree => exact ⟨tree, rfl, rfl⟩
    | token view =>
      rw [hitem] at htop
      obtain ⟨r, children, hnode⟩ := htop.exists_node
      cases hnode

end Path

end OperatorLALR
