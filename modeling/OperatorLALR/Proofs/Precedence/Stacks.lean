import OperatorLALR.Proofs.ConflictFree.Determinism
import OperatorLALR.Proofs.Precedence.Trees

/-!
# Stacks of operators and operands

A table that has what precedences decide leads a parser along every arranged tree
(`Infix.guide`): the tree may stand wherever it comes to stand, and so the decisions are those that
it calls for. Conversely every tree that comes to stand on the stack may stand there (`Stacked`,
`Branch.Keeps.next`), because the table shifts and reduces only if the operators involved bind
accordingly. So what is accepted is arranged (`Branch.Keeps.arranged`).
-/

namespace OperatorLALR

variable {τ β σ : Type}

/-- The trees on a stack, the topmost first. -/
def treesOn (stack : List (StackEntry τ (ParseTree τ))) : List (ParseTree τ) :=
  stack.map fun e => e.item.tree

/-- The trees on a stack are those on some topmost entries, and those below. -/
theorem treesOn_eq_append (n : Nat) (stack : List (StackEntry τ (ParseTree τ))) :
    treesOn stack = (stackTrees (stack.take n)).reverse ++ treesOn (stack.drop n) := by
  rw [treesOn, treesOn, stackTrees, ← List.map_reverse, List.reverse_reverse, ← List.map_append,
    List.take_append_drop]

/-- Each of some trees may stand on those that follow, before what comes next. -/
inductive Stacked (g : Grammar) (operators : List TerminalId) :
    List (ParseTree τ) → Option TerminalId → Prop
  | nil {next : Option TerminalId} : Stacked g operators [] next
  | cons {tree : ParseTree τ} {below : List (ParseTree τ)} {next : Option TerminalId}
      (htree : tree.Seated g operators below next)
      (hbelow : Stacked g operators below tree.terminal?) :
      Stacked g operators (tree :: below) next

namespace Stacked

variable {g : Grammar} {operators : List TerminalId} {trees : List (ParseTree τ)}
  {next : Option TerminalId}

/-- It does not matter what comes next behind a tree that is not of an operator. -/
theorem of_top (h : Stacked g operators trees none)
    (htop : ∀ top ∈ trees.head?, top.infix? = none) : Stacked g operators trees next := by
  cases h with
  | nil => exact .nil
  | @cons tree below _ htree hbelow =>
    have hnone : tree.infix? = none := htop tree rfl
    refine .cons ?_ hbelow
    cases htree with
    | leaf hright => exact .leaf hright
    | node harranged hright hleft =>
      exact .node harranged hright fun op hop => by cases hnone.symm.trans hop

/-- It may be left open what comes next. -/
theorem unknown (h : Stacked g operators trees next) : Stacked g operators trees none := by
  cases h with
  | nil => exact .nil
  | cons htree hbelow =>
    refine .cons ?_ hbelow
    cases htree with
    | leaf hright => exact .leaf hright
    | node harranged hright hleft => exact .node harranged hright (by simp)

end Stacked

variable [Token τ] {g : Grammar} {a : Analysis} {atom : TerminalId} {operators : List TerminalId}
  {p : Parser τ (ParseTree τ) β σ} {tokens : List τ} {b : Branch τ}

namespace Path

variable {stack : List (StackEntry τ (ParseTree τ))} {symbols : List Symbol}

/-- Where the rule of an operator is complete, the operator stands below its second operand. -/
theorem terminalAt_eq (hpath : Path g a p stack symbols) (h : g.Infix atom operators)
    (hg : g.Built a) (hp : Serves g a p) {op : TerminalId} (hop : op ∈ operators)
    (hitem : (g.automaton a).Has (p.stateOn stack) ⟨g.number (g.binary op), 3⟩) :
    terminalAt (treesOn stack) 1 = some op := by
  obtain ⟨-, hspells, -⟩ := hpath.handle hg hp.table.initial hitem
  rw [h.body_binary hop] at hspells
  obtain ⟨_, _, _, _, _, _, _, rfl, hhandle⟩ := exists_operands hspells
  rw [treesOn_eq_append 3, hhandle]
  rfl

/-- Before an operator, the rule of a leaf below the topmost entry is complete. -/
theorem has_of_terminalAt (hpath : Path g a p stack symbols) (h : g.Infix atom operators)
    (hg : g.Built a) {t before : TerminalId} {next : StateId} (ht : t ∈ operators)
    (hgoes : (g.automaton a).Goes (p.stateOn stack) (.terminal t) next)
    (hbefore : before ∈ terminalAt (treesOn stack) 1) :
    before ∈ operators ∧
      (g.automaton a).Has (p.stateOn stack) ⟨g.number (g.binary before), 3⟩ := by
  cases hpath with
  | nil => cases hbefore
  | @cons top _ _ _ hpath htop _ =>
    cases hpath with
    | nil => cases hbefore
    | @cons e below symbol _ _ hgoes' hspells =>
      have hleaf : before ∈ e.item.tree.terminal? := hbefore
      generalize e.item.tree = tree at hspells hleaf
      cases tree with
      | node => cases hleaf
      | leaf token reading position =>
        obtain rfl := Option.some.inj hleaf
        obtain rfl := hspells.symbol_eq
        exact h.has_second_operand hg hgoes' htop ht hgoes

end Path

/-- A table that has what precedences decide leads a parser along all arranged trees. -/
theorem Grammar.Infix.guide (h : g.Infix atom operators) (hg : g.Built a) (hp : Serves g a p)
    (hchosen : ∀ q t, g.Chosen a q t (p.table.action q t))
    (haccept : ∀ q, (g.automaton a).Has q ⟨acceptRule, (g.body acceptRule).length⟩ →
      p.table.action q endOfInput = .accept) :
    Guide g a p fun stack tree lookahead => tree.Plain ∧
      (∃ symbol, Spells g p.operators symbol tree) ∧
        tree.Seated g operators (treesOn stack) (some lookahead.terminal) where
  shift := by
    rintro stack symbols token reading position lookahead next hpath ⟨-, -, hseated⟩ hgoes
    refine .inl (h.eq_shift hg (hchosen _ _) hgoes fun op hop hitem ht => ?_)
    cases hseated with
    | leaf hright => exact hright ht op (hpath.terminalAt_eq h hg hp hop hitem)
  reduce := by
    rintro below entries symbols r children lookahead - - ⟨-, ⟨symbol, hspells⟩, hseated⟩ hr hlook
    refine .inl (h.eq_reduce hg (hchosen _ _) ⟨hr, hlook⟩ fun op hop heq ht => ?_)
    subst heq
    cases hseated with
    | node _ _ hleft => exact hleft op (h.infix?_of_spells hop hspells) _ rfl ht
  operands hfit := hfit.1.operandsFit
  child := by
    rintro below entries symbols r done child rest lookahead - - hbears hspells
      ⟨hplain, -, hseated⟩
    have hchild : (done ++ child :: rest)[done.length]? = some child := by simp
    obtain ⟨symbol, -, hsymbol⟩ := exists_getElem?_left hspells hchild
    refine ⟨hplain.child (List.mem_append_right _ List.mem_cons_self), ⟨symbol, hsymbol⟩, ?_⟩
    have htrees : treesOn (entries ++ below) = done.reverse ++ treesOn below := by
      rw [← hbears, ← List.map_reverse, List.reverse_reverse]
      exact List.map_append
    rw [htrees]
    exact h.seated_child hspells hseated
  accept _ hhas := haccept _ hhas

/-- The node of a reduction may stand where the first of its children stood, if its operator binds
tighter on the left of the next one. -/
theorem Stacked.reduce {defined : OperatorTable} {children below : List (ParseTree τ)} {r : RuleId}
    {t : TerminalId} (hstacked : Stacked g operators (children.reverse ++ below) (some t))
    (h : g.Infix atom operators) {rule : Rule} (hrule : g.rule? r = some rule) (hr : r ≠ acceptRule)
    (hspells : List.Forall₂ (Spells g defined) (g.body r) children)
    (hleft : ∀ op ∈ operators, r = g.number (g.binary op) → t ∈ operators →
      g.Tighter .left t op) : Stacked g operators (.node r children :: below) (some t) := by
  rcases h.rule_cases hrule with ⟨haccept, -⟩ | ⟨rfl, -⟩ | ⟨op, hop, rfl, -⟩
  · exact absurd haccept hr
  · rw [h.body_lone] at hspells
    obtain ⟨leaf, none, hleaf, hnone, rfl⟩ := List.forall₂_cons_left_iff.mp hspells
    obtain rfl := List.forall₂_nil_left_iff.mp hnone
    cases hleaf
    obtain _ | ⟨-, hbelow⟩ := hstacked
    refine .cons (ParseTree.Arranged.atom.seated ?_ ?_) hbelow.unknown <;>
    · intro op hop
      cases hop
  · rw [h.body_binary hop] at hspells
    obtain ⟨_, _, token, reading, position, _, _, rfl, rfl⟩ := exists_operands hspells
    obtain _ | ⟨hsecond, hrest⟩ := hstacked
    obtain _ | ⟨hoperator, hrest⟩ := hrest
    obtain _ | ⟨hfirst, hbelow⟩ := hrest
    obtain _ | ⟨harranged, -, htighterLeft⟩ := hfirst
    obtain _ | ⟨harranged', htighterRight, -⟩ := hsecond
    obtain ⟨hbefore⟩ | _ := hoperator
    have hnode : (ParseTree.node (g.number (g.binary reading.terminal))
        [_, .leaf token reading position, _]).Arranged g :=
      .binary harranged harranged' (fun op hinner => htighterLeft op hinner _ rfl hop)
        fun op hinner => htighterRight op hinner _ rfl
    refine .cons (hnode.seated (fun op hop' before hat => ?_) fun op hop' after hnext ht => ?_)
      hbelow.unknown
    · obtain rfl := Option.some.inj hop'
      exact hbefore hop before hat
    · obtain rfl := Option.some.inj hop'
      obtain rfl := Option.some.inj hnext
      exact hleft _ hop rfl ht

namespace Branch

/-- Every tree on the stack may stand there, and no operand has been made before it is known what
comes next. -/
structure Keeps (g : Grammar) (operators : List TerminalId) (b : Branch τ) : Prop where
  stacked : Stacked g operators (treesOn b.stack) (b.lookahead.map Lookahead.terminal)
  fresh : b.lookahead = none → ∀ top ∈ (treesOn b.stack).head?, top.infix? = none

namespace Keeps

omit [Token τ] in
/-- Nothing stands on the stack at first. -/
theorem start (g : Grammar) (operators : List TerminalId) :
    Keeps g operators (.start : Branch τ) :=
  ⟨.nil, fun _ _ htop => by cases htop⟩

omit [Token τ] in
/-- It may become known what comes next. -/
theorem decide (h : b.Keeps g operators) (hnone : b.lookahead = none) (lookahead : Lookahead τ) :
    Keeps g operators { b with lookahead := some lookahead } := by
  have hstacked := h.stacked
  rw [hnone] at hstacked
  exact ⟨hstacked.of_top (h.fresh hnone), nofun⟩

/-- Every way on from a branch leaves only trees on the stack that may stand there. -/
theorem next (hkeeps : b.Keeps g operators) (hsteady : Steady g a p tokens b)
    (h : g.Infix atom operators) (hg : g.Built a) (hp : Serves g a p) (hheeds : g.Heeds a p.table)
    (hchosen : ∀ q t, g.Chosen a q t (p.table.action q t)) :
    ∀ b' ∈ b.next p tokens, b'.Keeps g operators := by
  intro b' hb'
  obtain ⟨symbols, hpath⟩ := hsteady.sound.path
  have hstacked := hkeeps.stacked
  cases step_of_mem_next hb' with
  | ended hl => exact hkeeps.decide hl .inputEnd
  | read hl => exact hkeeps.decide hl _
  | @shift view next hl haction =>
    rw [hsteady.action_eq, Lookahead.terminal] at haction
    have hchoice := hchosen (p.stateOn b.stack) view.reading.terminal
    rw [haction] at hchoice
    rw [hl] at hstacked
    refine ⟨.cons (.leaf fun ht before hbefore => ?_) hstacked, fun _ top htop => ?_⟩
    · rcases hchoice.eq_error_or_acts with herror | hgoes
      · cases herror
      · obtain ⟨hop, hitem⟩ := hpath.has_of_terminalAt h hg ht hgoes hbefore
        exact h.tighter_of_shift hg hchoice hop ht hitem
    · obtain rfl := Option.some.inj htop
      rfl
  | @reduce lookahead r b' hl haction hreduce =>
    rw [hsteady.action_eq] at haction
    have hchoice := hchosen (p.stateOn b.stack) lookahead.terminal
    rw [haction] at hchoice
    obtain ⟨shape, priority, next, hshape, -, -, -, rfl⟩ := reduce?_eq_some_iff.mp hreduce
    obtain ⟨rule, hrule, -, hlength⟩ := hp.table.rule r shape hshape
    rcases hchoice.eq_error_or_acts with herror | hacts
    · cases herror
    · obtain ⟨hitem, -⟩ := hg.has_of_acts_reduce hacts
      obtain ⟨-, hspells, -⟩ := hpath.handle hg hp.table.initial hitem
      rw [List.take_length, Grammar.body_eq hrule, ← hlength] at hspells
      rw [hl, treesOn_eq_append shape.length] at hstacked
      refine ⟨?_, fun hnone => by cases hl.symm.trans hnone⟩
      change Stacked g operators (_ :: treesOn (b.stack.drop shape.length))
        (b.lookahead.map Lookahead.terminal)
      rw [hl]
      refine hstacked.reduce h hrule hacts.1 (Grammar.body_eq hrule ▸ hspells) ?_
      rintro op hop rfl ht
      exact h.tighter_of_reduce hg hchoice hop ht
  | force _ hopen =>
    rw [hsteady.openActions_eq_none hheeds] at hopen
    cases hopen

/-- What is accepted is arranged. -/
theorem arranged (hkeeps : b.Keeps g operators) (hsteady : Steady g a p tokens b) (hg : g.Built a)
    (hp : Serves g a p) (htokens : ∀ token ∈ tokens, Token.terminal token ≠ endOfInput)
    {tree : ParseTree τ} (hresult : b.result? p = some tree) : tree.Arranged g := by
  obtain ⟨hspells, -, e, hstack, hitem⟩ := hsteady.sound.accept hg hp htokens hresult
  obtain ⟨r, children, rfl⟩ := hspells.exists_node
  have hstacked := hkeeps.stacked
  rw [treesOn, hstack, List.map_singleton, hitem] at hstacked
  obtain _ | ⟨_ | ⟨harranged, -, -⟩, -⟩ := hstacked
  exact harranged

end Keeps

end Branch

end OperatorLALR
