import OperatorLALR.Proofs.Completeness.Guides
import OperatorLALR.Proofs.Precedence.Cells

/-!
# Trees arranged by precedence

In a derivation tree over operators between operands each operator may stand in either operand of
another one. The tree is arranged by precedence if what stands there binds tighter on that side
(`ParseTree.Arranged`). Whether a tree may stand on a stack so that this comes about depends on the
two trees below it and on what comes next (`ParseTree.Seated`). The operands of an arranged node may
stand wherever the node may, because binding tighter goes on from operator to operator
(`Grammar.Infix.tighter_trans`).
-/

namespace OperatorLALR

variable {τ : Type}

/-- The operator between the operands of a node. -/
def ParseTree.infix? : ParseTree τ → Option TerminalId
  | .node _ [_, .leaf _ reading _, _] => some reading.terminal
  | _ => none

/-- Each operator of the tree has as operands only what binds tighter on that side. -/
inductive ParseTree.Arranged (g : Grammar) : ParseTree τ → Prop
  | atom {r : RuleId} {token : τ} {reading : Reading} {position : Nat} :
      Arranged g (.node r [.leaf token reading position])
  | binary {r : RuleId} {left right : ParseTree τ} {token : τ} {reading : Reading} {position : Nat}
      (hleft : left.Arranged g) (hright : right.Arranged g)
      (htighterLeft : ∀ op ∈ left.infix?, g.Tighter .left reading.terminal op)
      (htighterRight : ∀ op ∈ right.infix?, g.Tighter .right reading.terminal op) :
      Arranged g (.node r [left, .leaf token reading position, right])

/-- The terminal as which a leaf is read. -/
def ParseTree.terminal? : ParseTree τ → Option TerminalId
  | .leaf _ reading _ => some reading.terminal
  | .node _ _ => none

/-- The terminal of the leaf at a place among some trees. -/
def terminalAt (trees : List (ParseTree τ)) (i : Nat) : Option TerminalId :=
  (trees[i]?).bind ParseTree.terminal?

/-- A tree may stand on others, of which the topmost is the first, before what comes next: an
operator binds tighter than the one before its first operand, and a node is arranged, and binds
tighter than the operators on both sides of it. -/
inductive ParseTree.Seated (g : Grammar) (operators : List TerminalId)
    (below : List (ParseTree τ)) (next : Option TerminalId) : ParseTree τ → Prop
  | leaf {token : τ} {reading : Reading} {position : Nat}
      (hright : reading.terminal ∈ operators → ∀ before ∈ terminalAt below 1,
        g.Tighter .right before reading.terminal) :
      Seated g operators below next (.leaf token reading position)
  | node {r : RuleId} {children : List (ParseTree τ)}
      (harranged : (ParseTree.node r children).Arranged g)
      (hright : ∀ op ∈ (ParseTree.node r children).infix?, ∀ before ∈ terminalAt below 0,
        g.Tighter .right before op)
      (hleft : ∀ op ∈ (ParseTree.node r children).infix?, ∀ after ∈ next, after ∈ operators →
        g.Tighter .left after op) :
      Seated g operators below next (.node r children)

/-- An arranged tree may stand where it binds tighter than the operators on both sides. -/
theorem ParseTree.Arranged.seated {g : Grammar} {operators : List TerminalId}
    {below : List (ParseTree τ)} {next : Option TerminalId} {tree : ParseTree τ}
    (h : tree.Arranged g)
    (hright : ∀ op ∈ tree.infix?, ∀ before ∈ terminalAt below 0, g.Tighter .right before op)
    (hleft : ∀ op ∈ tree.infix?, ∀ after ∈ next, after ∈ operators → g.Tighter .left after op) :
    tree.Seated g operators below next := by
  cases h with
  | atom => exact .node .atom hright hleft
  | binary hl hr htighterLeft htighterRight =>
    exact .node (.binary hl hr htighterLeft htighterRight) hright hleft

/-- A leaf spells the terminal as which it is read. -/
theorem Spells.symbol_eq [Token τ] {g : Grammar} {operators : OperatorTable} {symbol : Symbol}
    {token : τ} {reading : Reading} {position : Nat}
    (h : Spells g operators symbol (.leaf token reading position)) :
    symbol = .terminal reading.terminal := by
  cases h
  rfl

/-- The children of a node spell what its rule derives. -/
theorem Spells.children [Token τ] {g : Grammar} {operators : OperatorTable} {symbol : Symbol}
    {r : RuleId} {children : List (ParseTree τ)}
    (h : Spells g operators symbol (.node r children)) :
    List.Forall₂ (Spells g operators) (g.body r) children := by
  cases h with
  | node hrule hchildren => exact Grammar.body_eq hrule ▸ hchildren

/-- What spells the rule of an operator: a leaf between two nodes. -/
theorem exists_operands [Token τ] {g : Grammar} {operators : OperatorTable} {op : TerminalId}
    {n n' : NonterminalId} {children : List (ParseTree τ)}
    (h : List.Forall₂ (Spells g operators) [.nonterminal n, .terminal op, .nonterminal n']
      children) :
    ∃ r firsts token reading position r' lasts, reading.terminal = op ∧
      children = [.node r firsts, .leaf token reading position, .node r' lasts] := by
  obtain ⟨left, rest, hleft, hrest, rfl⟩ := List.forall₂_cons_left_iff.mp h
  obtain ⟨leaf, last, hleaf, hlast, rfl⟩ := List.forall₂_cons_left_iff.mp hrest
  obtain ⟨right, none, hright, hnone, rfl⟩ := List.forall₂_cons_left_iff.mp hlast
  obtain rfl := List.forall₂_nil_left_iff.mp hnone
  obtain ⟨r, firsts, rfl⟩ := hleft.exists_node
  obtain ⟨r', lasts, rfl⟩ := hright.exists_node
  cases hleaf
  exact ⟨r, firsts, _, _, _, r', lasts, rfl, rfl⟩

namespace Grammar.Infix

variable {g : Grammar} {atom : TerminalId} {operators : List TerminalId} {r : RuleId}
  (h : g.Infix atom operators)

include h

/-- What binds tighter than something that itself binds tighter, on the other side, binds tighter
on both sides. -/
theorem tighter_trans {outer middle inner : TerminalId} {side side' : Assoc}
    (hmiddle : middle ∈ operators) (hinner : inner ∈ operators)
    (hfirst : g.Tighter side outer middle) (hsecond : g.Tighter side' middle inner)
    (hne : side ≠ side') (side'' : Assoc) : g.Tighter side'' outer inner := by
  obtain ⟨p, q, hp, hq, hfirst⟩ := hfirst
  obtain ⟨q', s, hq', hs, hsecond⟩ := hsecond
  obtain rfl := Option.some.inj (hq.symm.trans hq')
  refine ⟨p, s, hp, hs, .inl ?_⟩
  rcases hfirst with hlt | ⟨heq, hassoc⟩
  · rcases hsecond with hlt' | ⟨heq', -⟩
    · exact Nat.lt_trans hlt hlt'
    · exact heq' ▸ hlt
  · rcases hsecond with hlt' | ⟨heq', hassoc'⟩
    · exact heq ▸ hlt'
    · -- with equal priorities throughout both sides would be that of one associativity
      have hsame := h.consistent middle hmiddle inner hinner q s hq hs heq'
      exact absurd (hassoc.symm.trans (hsame.trans hassoc')) hne

/-- What the rules derive. -/
theorem body_cases (r : RuleId) : g.body r = [] ∨ g.body r = [.nonterminal g.start] ∨
    g.body r = [.terminal atom] ∨ ∃ op ∈ operators,
      g.body r = [.nonterminal g.start, .terminal op, .nonterminal g.start] := by
  cases hrule : g.rule? r with
  | none => exact .inl (by rw [body, hrule]; rfl)
  | some rule =>
    rw [body_eq hrule]
    rcases h.rule_cases hrule with ⟨-, rfl⟩ | ⟨-, rfl⟩ | ⟨op, hop, -, rfl⟩
    · exact .inr (.inl rfl)
    · exact .inr (.inr (.inl rfl))
    · exact .inr (.inr (.inr ⟨op, hop, rfl⟩))

variable [Token τ] {defined : OperatorTable} {token : τ} {reading : Reading} {position : Nat}

/-- The only child of a node is read as the atom if it is a leaf. -/
theorem eq_atom_of_spells (hspells : List.Forall₂ (Spells g defined) (g.body r)
    [.leaf token reading position]) : reading.terminal = atom := by
  obtain ⟨symbol, rest, hleaf, hrest, hbody⟩ := List.forall₂_cons_right_iff.mp hspells
  obtain rfl := hleaf.symbol_eq
  obtain rfl := List.forall₂_nil_right_iff.mp hrest
  rcases h.body_cases r with hcase | hcase | hcase | ⟨op, -, hcase⟩ <;>
    rw [hcase] at hbody
  · cases hbody
  · cases hbody
  · cases hbody
    rfl
  · cases hbody

/-- A leaf between two other children of a node is read as an operator. -/
theorem mem_operators_of_spells {left right : ParseTree τ}
    (hspells : List.Forall₂ (Spells g defined) (g.body r)
      [left, .leaf token reading position, right]) : reading.terminal ∈ operators := by
  obtain ⟨first, rest, -, hrest, hbody⟩ := List.forall₂_cons_right_iff.mp hspells
  obtain ⟨symbol, last, hleaf, -, rfl⟩ := List.forall₂_cons_right_iff.mp hrest
  obtain rfl := hleaf.symbol_eq
  rcases h.body_cases r with hcase | hcase | hcase | ⟨op, hop, hcase⟩ <;>
    rw [hcase] at hbody
  · cases hbody
  · cases hbody
  · cases hbody
  · cases hbody
    exact hop

/-- The operator of a node is one of the grammar. -/
theorem mem_of_infix? {symbol : Symbol} {tree : ParseTree τ} {op : TerminalId}
    (hspells : Spells g defined symbol tree) (hop : op ∈ tree.infix?) : op ∈ operators := by
  unfold ParseTree.infix? at hop
  split at hop
  · obtain rfl := Option.some.inj hop
    exact h.mem_operators_of_spells hspells.children
  · cases hop

/-- The operator of a node by the rule of an operator is this one. -/
theorem infix?_of_spells {symbol : Symbol} {children : List (ParseTree τ)} {op : TerminalId}
    (hop : op ∈ operators)
    (hspells : Spells g defined symbol (.node (g.number (g.binary op)) children)) :
    (ParseTree.node (g.number (g.binary op)) children).infix? = some op := by
  have hchildren := hspells.children
  rw [h.body_binary hop] at hchildren
  obtain ⟨_, _, _, _, _, _, _, rfl, rfl⟩ := exists_operands hchildren
  rfl

/-- The children of a seated node may stand behind one another. -/
theorem seated_child {below done rest : List (ParseTree τ)} {child : ParseTree τ}
    {lookahead : Lookahead τ}
    (hspells : List.Forall₂ (Spells g defined) (g.body r) (done ++ child :: rest))
    (hseated : (ParseTree.node r (done ++ child :: rest)).Seated g operators below
      (some lookahead.terminal)) :
    child.Seated g operators (done.reverse ++ below)
      (some (lookaheadBefore rest lookahead).terminal) := by
  have hchild : (done ++ child :: rest)[done.length]? = some child := by simp
  obtain ⟨symbol, -, hsymbol⟩ := exists_getElem?_left hspells hchild
  have hmem : ∀ op ∈ child.infix?, op ∈ operators := fun _ hop => h.mem_of_infix? hsymbol hop
  obtain _ | ⟨harranged, hright, hleft⟩ := hseated
  generalize hchildren : done ++ child :: rest = children at hspells harranged hright hleft
  cases harranged with
  | @atom _ token reading position =>
    rcases append_cons_eq_cons_iff.mp hchildren with ⟨rfl, rfl, -⟩ | ⟨_, -, hnil⟩
    · refine .leaf fun hop => absurd hop ?_
      rw [h.eq_atom_of_spells hspells]
      exact (List.nodup_cons.mp h.distinct).1
    · cases (List.append_eq_nil_iff.mp hnil).2
  | @binary _ left right token reading position hl hr htighterLeft htighterRight =>
    have hop := h.mem_operators_of_spells hspells
    have hbefore := hright reading.terminal rfl
    have hafter := hleft reading.terminal rfl
    rcases append_cons_eq_cons_iff.mp hchildren with ⟨rfl, rfl, rfl⟩ | ⟨done, rfl, hrest⟩
    · refine hl.seated (fun op hinner before hat => ?_) fun op hinner after hnext _ => ?_
      · exact h.tighter_trans hop (hmem op hinner) (hbefore before hat) (htighterLeft op hinner)
          (by simp) .right
      · obtain rfl := Option.some.inj hnext
        exact htighterLeft op hinner
    · rcases append_cons_eq_cons_iff.mp hrest with ⟨rfl, rfl, rfl⟩ | ⟨done, rfl, hlast⟩
      · exact .leaf fun _ => hbefore
      · rcases append_cons_eq_cons_iff.mp hlast with ⟨rfl, rfl, rfl⟩ | ⟨_, -, hnil⟩
        · refine hr.seated (fun op hinner before hat => ?_) fun op hinner after hnext hnextop => ?_
          · obtain rfl := Option.some.inj hat
            exact htighterRight op hinner
          · exact h.tighter_trans hop (hmem op hinner) (hafter after hnext hnextop)
              (htighterRight op hinner) (by simp) .left
        · cases (List.append_eq_nil_iff.mp hnil).2

end Grammar.Infix

end OperatorLALR
