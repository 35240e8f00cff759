import OperatorLALR.Proofs.Parser.Moves
import OperatorLALR.Proofs.Search.Exploration

/-!
# The nondeterministic parser

Instead of keeping choice points, a nondeterministic parser may go on in any of several ways. A
branch is a state of such a parser: it has no clock, no trail and no buffer, and parse trees in
place of nodes. `Branch.next` lists the ways on in the order in which they count as earlier or
later; a branch without a way on and without a result is stuck. The readings of a token are put in
order here (`Branch.alternatives`), apart from any parser that tries them.
-/

namespace OperatorLALR

/-- A parse tree: a token in its reading, or a rule with a tree for each part of its handle. -/
inductive ParseTree (τ : Type) where
  | leaf (token : τ) (reading : Reading) (position : Nat)
  | node (rule : RuleId) (children : List (ParseTree τ))

variable {τ ν β ε σ : Type}

/-- A token in its reading, whenever that was chosen. -/
def TokenView.timeless (view : TokenView τ) : TokenView τ := { view with stamp := 0 }

/-- A part of a handle, whenever it was read. -/
def HandleItem.timeless : HandleItem τ ν → HandleItem τ ν
  | .token view => .token view.timeless
  | .node n => .node n

/-- A lookahead in its reading, whenever that was chosen. -/
def Lookahead.timeless : Lookahead τ → Lookahead τ
  | .token view => .token view.timeless
  | .inputEnd => .inputEnd

/-- Time has no influence on the terminal. -/
@[simp] theorem Lookahead.terminal_timeless (lookahead : Lookahead τ) :
    lookahead.timeless.terminal = lookahead.terminal := by
  cases lookahead <;> rfl

/-- Time has no influence on the operator. -/
@[simp] theorem Lookahead.operator?_timeless (lookahead : Lookahead τ) :
    lookahead.timeless.operator? = lookahead.operator? := by
  cases lookahead <;> rfl

/-- The tree of a part of a handle. -/
def HandleItem.tree : HandleItem τ (ParseTree τ) → ParseTree τ
  | .token view => .leaf view.token view.reading view.position
  | .node t => t

/-- The maker of nodes that returns the tree of rules and children. -/
def treeMaker : NodeMaker τ (ParseTree τ) β σ :=
  ⟨fun r items memory => (.ok (.node r (items.map HandleItem.tree)), memory)⟩

mutual

/-- The value of a tree under a function from rules and handles to nodes. -/
def ParseTree.item (build : RuleId → List (HandleItem τ ν) → ν) : ParseTree τ → HandleItem τ ν
  | .leaf token reading position => .token ⟨token, reading, position, 0⟩
  | .node r children => .node (build r (ParseTree.items build children))

/-- The values of some trees. -/
def ParseTree.items (build : RuleId → List (HandleItem τ ν) → ν) :
    List (ParseTree τ) → List (HandleItem τ ν)
  | [] => []
  | t :: ts => t.item build :: ParseTree.items build ts

end

/-- A maker of nodes computes them from rules and handles alone: it never fails, and neither its
memory nor times matter. -/
def NodeMaker.Computes (maker : NodeMaker τ ν β σ)
    (build : RuleId → List (HandleItem τ ν) → ν) : Prop :=
  ∀ r items memory, (maker.reduce r items memory).1 = .ok (build r (items.map HandleItem.timeless))

/-- What a maker of nodes makes of a parse tree: the leaves are the tokens, and each node comes from
the items that it makes of the children. -/
inductive Shows (maker : NodeMaker τ ν β σ) : HandleItem τ ν → ParseTree τ → Prop
  | token (view : TokenView τ) :
      Shows maker (.token view) (.leaf view.token view.reading view.position)
  | node {r : RuleId} {items : List (HandleItem τ ν)} {children : List (ParseTree τ)} {n : ν}
      {memory memory' : σ} (h : maker.reduce r items memory = (.ok n, memory'))
      (hitems : List.Forall₂ (Shows maker) items children) :
      Shows maker (.node n) (.node r children)

/-- The parser with the same table and operators that makes parse trees. -/
def Parser.overTrees (p : Parser τ ν β σ) : Parser τ (ParseTree τ) Empty Unit :=
  ⟨p.table, treeMaker, none, p.operators⟩

/-- A state of the nondeterministic parser. -/
structure Branch (τ : Type) where
  stack : List (StackEntry τ (ParseTree τ))
  position : Nat
  lookahead : Option (Lookahead τ)
  forced : Option Action

namespace Branch

/-- The branch before the first token. -/
def start : Branch τ := ⟨[], 0, none, none⟩

/-- The branch after a shift. -/
def shift (b : Branch τ) (next : StateId) (view : TokenView τ) : Branch τ :=
  ⟨⟨next, .token view, 0, 0⟩ :: b.stack, b.position + 1, none, none⟩

/-- The branch after a reduction, if the operator in the handle accepts its arguments. -/
def reduce? (p : Parser τ (ParseTree τ) β σ) (b : Branch τ) (r : RuleId) : Option (Branch τ) :=
  (p.table.rule r).bind fun shape =>
    if b.stack.length < shape.length then none
    else
      let handle := (b.stack.take shape.length).reverse
      let below := b.stack.drop shape.length
      (Parser.nodePriority? shape handle).bind fun priority =>
        (p.table.goto (p.stateOn below) shape.left).map fun next =>
          let node := ParseTree.node r (handle.map fun e => e.item.tree)
          { b with stack := ⟨next, .node node, priority, 0⟩ :: below, forced := none }

/-- The action of a branch on a lookahead. -/
def action (p : Parser τ (ParseTree τ) β σ) (b : Branch τ) (lookahead : Lookahead τ) : Action :=
  b.forced.getD (p.table.action (p.stateOn b.stack) lookahead.terminal)

/-- The readings of a token on which a state has an action, in order: the token as its own terminal,
then as each operator that its name denotes, the operators in the order of the table. -/
def alternatives [Token τ] (p : Parser τ ν β σ) (q : StateId) (token : τ) : List Reading :=
  let plain : List Reading :=
    if p.table.action q (Token.terminal token) = .error then []
    else [⟨Token.terminal token, none⟩]
  let named := (Token.operatorName token).elim [] p.operators.lookup
  let usable := named.filter fun op => p.table.action q op.terminal ≠ .error
  plain ++ usable.map fun op => ⟨op.terminal, some op⟩

/-- The ways on from a branch over some tokens: the readings of the next token, or else what the
action on it leaves open. -/
def next [Token τ] (p : Parser τ (ParseTree τ) β σ) (tokens : List τ) (b : Branch τ) :
    List (Branch τ) :=
  match b.lookahead with
  | none =>
    match tokens[b.position]? with
    | none => [{ b with lookahead := some .inputEnd }]
    | some token => (alternatives p (p.stateOn b.stack) token).map fun reading =>
        { b with lookahead := some (.token ⟨token, reading, b.position, 0⟩) }
  | some lookahead =>
    match b.action p lookahead, lookahead with
    | .shift q, .token view => [b.shift q view]
    | .shift _, .inputEnd => []
    | .reduce r, _ => (b.reduce? p r).toList
    | .accept, _ => []
    | .error, _ => []
    | a, _ => ((p.openActions b.stack lookahead a).getD []).map fun a => { b with forced := some a }

/-- The tree of a branch that accepts. -/
def result? (p : Parser τ (ParseTree τ) β σ) (b : Branch τ) : Option (ParseTree τ) :=
  b.lookahead.bind fun lookahead =>
    match b.action p lookahead, b.stack with
    | .accept, ⟨_, .node t, _, _⟩ :: _ => some t
    | _, _ => none

variable {p : Parser τ (ParseTree τ) β σ} {b : Branch τ} {lookahead : Lookahead τ}

/-- A branch that does not know its lookahead has no result. -/
theorem result?_eq_none (h : b.lookahead = none) : b.result? p = none := by
  rw [result?, h]
  rfl

/-- Only a branch that accepts has a result. -/
theorem result?_of_ne_accept (h : b.lookahead = some lookahead)
    (haction : b.action p lookahead ≠ .accept) : b.result? p = none := by
  rw [result?, h, Option.bind_some]
  split
  · next hacc _ => exact absurd hacc haction
  · rfl

/-- A branch that accepts has the tree on top of its stack for a result. -/
theorem result?_of_accept {top : StackEntry τ (ParseTree τ)}
    {below : List (StackEntry τ (ParseTree τ))} {t : ParseTree τ}
    (h : b.lookahead = some lookahead) (haction : b.action p lookahead = .accept)
    (hstack : b.stack = top :: below) (hitem : top.item = .node t) : b.result? p = some t := by
  obtain ⟨state, item, priority, stamp⟩ := top
  obtain rfl : item = .node t := hitem
  rw [result?, h, Option.bind_some, haction, hstack]

/-- A reduction finds its rule, its handle and its transition, and the operator in the handle
accepts its arguments. -/
theorem reduce?_eq_some_iff {r : RuleId} {b' : Branch τ} :
    b.reduce? p r = some b' ↔ ∃ shape priority next, p.table.rule r = some shape ∧
      shape.length ≤ b.stack.length ∧
      Parser.nodePriority? shape (b.stack.take shape.length).reverse = some priority ∧
      p.table.goto (p.stateOn (b.stack.drop shape.length)) shape.left = some next ∧
      b' = { b with
        stack := ⟨next,
          .node (.node r ((b.stack.take shape.length).reverse.map fun e => e.item.tree)),
          priority, 0⟩ :: b.stack.drop shape.length
        forced := none } := by
  simp only [reduce?, Option.bind_eq_some_iff, Option.map_eq_some_iff, Option.ite_none_left_eq_some,
    Nat.not_lt]
  constructor
  · rintro ⟨shape, hshape, hlength, priority, hpriority, next, hnext, rfl⟩
    exact ⟨shape, priority, next, hshape, hlength, hpriority, hnext, rfl⟩
  · rintro ⟨shape, priority, next, hshape, hlength, hpriority, hnext, rfl⟩
    exact ⟨shape, hshape, hlength, priority, hpriority, next, hnext, rfl⟩

section Tokens

variable [Token τ] {tokens : List τ}

/-- The actions left open are the ways on. -/
theorem next_of_open {as : List Action} (h : b.lookahead = some lookahead)
    (hopen : p.openActions b.stack lookahead (b.action p lookahead) = some as) :
    b.next p tokens = as.map fun a => { b with forced := some a } := by
  unfold next
  rw [h]
  dsimp only
  cases haction : b.action p lookahead with
  | dynamic d =>
    rw [haction] at hopen
    dsimp only
    rw [hopen, Option.getD_some]
  | choice d =>
    rw [haction] at hopen
    dsimp only
    rw [hopen, Option.getD_some]
  | _ =>
    rw [haction] at hopen
    cases hopen

/-- A reduction is the only way on, if it is one. -/
theorem next_of_reduce {r : RuleId} (h : b.lookahead = some lookahead)
    (haction : b.action p lookahead = .reduce r) :
    b.next p tokens = (b.reduce? p r).toList := by
  unfold next
  rw [h]
  dsimp only
  rw [haction]

/-- A shift is the only way on. -/
theorem next_of_shift {q : StateId} {view : TokenView τ} (h : b.lookahead = some (.token view))
    (haction : b.action p (.token view) = .shift q) : b.next p tokens = [b.shift q view] := by
  unfold next
  rw [h]
  dsimp only
  rw [haction]

/-- At the end of the tokens, the way on is to know that. -/
theorem next_of_ended (h : b.lookahead = none) (hend : tokens[b.position]? = none) :
    b.next p tokens = [{ b with lookahead := some .inputEnd }] := by
  unfold next
  rw [h]
  dsimp only
  rw [hend]

/-- The ways on before a token are its readings. -/
theorem next_of_token {token : τ} (h : b.lookahead = none)
    (htoken : tokens[b.position]? = some token) :
    b.next p tokens = (alternatives p (p.stateOn b.stack) token).map fun reading =>
      { b with lookahead := some (.token ⟨token, reading, b.position, 0⟩) } := by
  unfold next
  rw [h]
  dsimp only
  rw [htoken]

/-- One step of the nondeterministic parser. -/
inductive Step (p : Parser τ (ParseTree τ) β σ) (tokens : List τ) (b : Branch τ) : Branch τ → Prop
  /-- It finds the end of the input. -/
  | ended (hl : b.lookahead = none) (hend : tokens[b.position]? = none) :
      Step p tokens b { b with lookahead := some .inputEnd }
  /-- It decides on a reading of the next token. -/
  | read {token : τ} {reading : Reading} (hl : b.lookahead = none)
      (htoken : tokens[b.position]? = some token)
      (hreading : reading ∈ alternatives p (p.stateOn b.stack) token) :
      Step p tokens b { b with lookahead := some (.token ⟨token, reading, b.position, 0⟩) }
  /-- It shifts. -/
  | shift {view : TokenView τ} {next : StateId} (hl : b.lookahead = some (.token view))
      (haction : b.action p (.token view) = .shift next) : Step p tokens b (b.shift next view)
  /-- It reduces. -/
  | reduce {lookahead : Lookahead τ} {r : RuleId} {b' : Branch τ}
      (hl : b.lookahead = some lookahead) (haction : b.action p lookahead = .reduce r)
      (hreduce : b.reduce? p r = some b') : Step p tokens b b'
  /-- It decides on one of the actions left open. -/
  | force {lookahead : Lookahead τ} {as : List Action} {action : Action}
      (hl : b.lookahead = some lookahead)
      (hopen : p.openActions b.stack lookahead (b.action p lookahead) = some as)
      (hmem : action ∈ as) : Step p tokens b { b with forced := some action }

/-- The ways on from a branch are steps of it. -/
theorem step_of_mem_next {b' : Branch τ} (h : b' ∈ b.next p tokens) : b.Step p tokens b' := by
  cases hl : b.lookahead with
  | none =>
    cases htoken : tokens[b.position]? with
    | none =>
      rw [next_of_ended hl htoken, List.mem_singleton] at h
      exact h ▸ .ended hl htoken
    | some token =>
      rw [next_of_token hl htoken] at h
      obtain ⟨reading, hreading, rfl⟩ := List.mem_map.mp h
      exact .read hl htoken hreading
  | some lookahead =>
    cases hopen : p.openActions b.stack lookahead (b.action p lookahead) with
    | some as =>
      rw [next_of_open hl hopen] at h
      obtain ⟨action, haction, rfl⟩ := List.mem_map.mp h
      exact .force hl hopen haction
    | none =>
      unfold next at h
      rw [hl] at h
      dsimp only at h
      cases haction : b.action p lookahead with
      | shift next =>
        rw [haction] at h
        cases lookahead with
        | token view =>
          rw [List.mem_singleton.mp h]
          exact .shift hl haction
        | inputEnd => cases h
      | reduce r =>
        rw [haction] at h
        exact .reduce hl haction (Option.mem_toList.mp h)
      | accept | error =>
        rw [haction] at h
        cases h
      | dynamic | choice =>
        rw [haction] at h hopen
        dsimp only at h
        rw [hopen] at h
        cases h

end Tokens

end Branch

end OperatorLALR
