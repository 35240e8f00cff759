import OperatorLALR.Proofs.Search.Exhaustive
import OperatorLALR.Proofs.Soundness.Branches

/-!
# Parses are sound

A parse over the table of a grammar, after any definitions of operators, ends with a derivation tree
of the start symbol only, whose leaves are the tokens of the input (`parse_sound`). A machine that
accepts stands at a branch that the nondeterministic parser comes upon, and all of these keep to the
automaton.
-/

namespace OperatorLALR

variable {τ ν β ε σ : Type}

/-- What is asked of a parser to define an operator. -/
structure OperatorCall where
  name : String
  specifier : String
  priority : Nat
  category : NonterminalId

namespace Parser

/-- The parser after some definitions of operators. Those that fail change nothing. -/
def defineAll (p : Parser τ ν β σ) (calls : List OperatorCall) : Parser τ ν β σ :=
  calls.foldl (fun p c =>
    match p.define c.name c.specifier c.priority c.category with
    | .ok (_, p) => p
    | .error _ => p) p

/-- A definition adds an operator that is read as the terminal which the table has for it. -/
theorem define_eq_ok {p p' : Parser τ ν β σ} {c : OperatorCall} {old : Option Operator}
    (h : p.define c.name c.specifier c.priority c.category = .ok (old, p')) :
    ∃ op, p.table.operatorTerminal op.category op.fixity = some op.terminal ∧
      p' = { p with operators := p.operators.define op } := by
  unfold define at h
  cases hop : p.operatorFor c.name c.specifier c.priority c.category with
  | error e =>
    rw [hop] at h
    cases h
  | ok op =>
    rw [hop] at h
    obtain ⟨-, rfl⟩ := Prod.mk.inj (Except.ok.inj h)
    unfold operatorFor at hop
    split at hop
    · cases hop
    · next spec _ =>
      split at hop
      · cases hop
      · next t ht =>
        rw [Operator.checked_eq hop]
        exact ⟨_, ht, rfl⟩

/-- Definitions of operators change nothing but the operators. -/
theorem defineAll_eq (p : Parser τ ν β σ) (calls : List OperatorCall) :
    p.defineAll calls = { p with operators := (p.defineAll calls).operators } := by
  refine List.foldlRecOn (motive := fun p' : Parser τ ν β σ =>
    p' = { p with operators := p'.operators }) calls _ rfl ?_
  rintro p' hp' c -
  cases hdefine : p'.define c.name c.specifier c.priority c.category with
  | error e => exact hp'
  | ok result =>
    obtain ⟨old, next⟩ := result
    obtain ⟨op, -, rfl⟩ := define_eq_ok hdefine
    dsimp only
    rw [hp']

/-- Definitions keep what holds of all operators that are read as the terminals which the table has
for them. -/
theorem defineAll_forall {P : Operator → Prop} {p : Parser τ ν β σ} (calls : List OperatorCall)
    (htable : ∀ op, p.table.operatorTerminal op.category op.fixity = some op.terminal → P op)
    (hoperators : ∀ op ∈ p.operators.toList, P op) :
    ∀ op ∈ (p.defineAll calls).operators.toList, P op := by
  have hkeep : (p.defineAll calls).table = p.table ∧
      ∀ op ∈ (p.defineAll calls).operators.toList, P op := by
    refine List.foldlRecOn (motive := fun p' : Parser τ ν β σ => p'.table = p.table ∧
      ∀ op ∈ p'.operators.toList, P op) calls _ ⟨rfl, hoperators⟩ ?_
    rintro p' ⟨htable', hall⟩ c -
    cases hdefine : p'.define c.name c.specifier c.priority c.category with
    | error e => exact ⟨htable', hall⟩
    | ok result =>
      obtain ⟨old, next⟩ := result
      obtain ⟨op, hterminal, rfl⟩ := define_eq_ok hdefine
      refine ⟨htable', fun other hother => ?_⟩
      rcases OperatorTable.eq_or_mem_of_mem_define hother with rfl | hold
      · rw [htable'] at hterminal
        exact htable other hterminal
      · exact hall other hold
  exact hkeep.2

/-- Definitions of operators leave table and maker as they are, and keep what holds of all terminals
that operators are read as. -/
theorem defineAll_spec {P : TerminalId → Prop} {p : Parser τ ν β σ} (calls : List OperatorCall)
    (htable : ∀ category fixity t, p.table.operatorTerminal category fixity = some t → P t)
    (hoperators : ∀ op ∈ p.operators.toList, P op.terminal) :
    (p.defineAll calls).table = p.table ∧ (p.defineAll calls).maker = p.maker ∧
      ∀ op ∈ (p.defineAll calls).operators.toList, P op.terminal := by
  refine ⟨?_, ?_, defineAll_forall calls (fun op => htable op.category op.fixity op.terminal)
    hoperators⟩
  · rw [defineAll_eq]
  · rw [defineAll_eq]

end Parser

variable [Token τ] {g : Grammar} {a : Analysis} {options : BuildOptions} {table : GeneratedTable}
  {tokens : List τ}

omit [Token τ] in
/-- A parser over the table of a grammar serves the grammar, whatever operators are defined. -/
theorem serves_defineAll {maker : NodeMaker τ ν β σ} (h : g.Built a)
    (hbuild : (g.build options).2 = .ok table) (calls : List OperatorCall) (limit : Option Nat) :
    Serves g a ((Parser.ofTable table.toParseTable maker limit).defineAll calls).overTrees := by
  have htable := h.tabulates hbuild
  obtain ⟨hsame, -, hoperators⟩ := Parser.defineAll_spec (P := fun t => t ≠ endOfInput)
    (p := Parser.ofTable table.toParseTable maker limit) calls htable.operatorTerminal
    htable.operators
  refine ⟨?_, hoperators⟩
  rw [Parser.overTrees]
  dsimp only
  rw [hsame]
  exact htable

omit [Token τ] in
/-- A stack that is like one with a tree as its only entry has the node as its only item. -/
theorem items_of_alike_singleton {maker : NodeMaker τ ν β σ} {stack : List (StackEntry τ ν)}
    {e : StackEntry τ (ParseTree τ)} {tree : ParseTree τ}
    (h : List.Forall₂ (StackEntry.Alike maker) stack [e]) (hitem : e.item = .node tree) :
    ∃ node, stack.map StackEntry.item = [.node node] ∧ Shows maker (.node node) tree := by
  obtain ⟨e', below, halike, hbelow, rfl⟩ := List.forall₂_cons_right_iff.mp h
  obtain rfl : below = [] := List.forall₂_nil_right_iff.mp hbelow
  obtain ⟨node, hnode, hshows⟩ := HandleItem.Alike.exists_node (hitem ▸ halike.item)
  exact ⟨node, congrArg (fun item => [item]) hnode, hshows⟩

/-- A parse over the table of a grammar ends with a derivation tree of the start symbol only. Its
leaves are the tokens, each once and in order, and the machine that accepts has the node of the tree
on its stack and nothing else. -/
theorem parse_sound (hg : g.IsDefined) (ha : g.analyse = .ok a)
    (hstates : (g.kernels a).items.size < stateNumbers) (hbuild : (g.build options).2 = .ok table)
    (calls : List OperatorCall) (limit : Option Nat)
    (htokens : ∀ token ∈ tokens, Token.terminal token ≠ endOfInput) {p : Parser τ (ParseTree τ) β σ}
    (hp : p = (Parser.ofTable table.toParseTable treeMaker limit).defineAll calls) {n : Nat}
    {memory : σ} {tree : ParseTree τ} {last : Machine τ (ParseTree τ) ε σ}
    (hparse : p.parse n (tokens.map .ok) memory = some (.ok tree, last)) :
    Spells g p.operators (.nonterminal g.start) tree ∧ tree.leaves = tokens.zipIdx ∧
      ∃ m, p.Reaches (.start (tokens.map .ok) memory) m ∧ p.step m = .halt (.ok tree) last ∧
        m.stack.map StackEntry.item = [.node tree] := by
  have h : g.Built a := ⟨hg.wellFormed, ha, hstates⟩
  have hserves : Serves g a p.overTrees := hp ▸ serves_defineAll h hbuild calls limit
  have hmaker : p.maker = treeMaker := by
    rw [hp]
    exact (Parser.defineAll_spec (P := fun _ => True) calls (fun _ _ _ _ => trivial)
      fun _ _ => trivial).2.1
  obtain ⟨m, b, rest, tree', hreach, hstep, hsearch, hstacks, hresult, hshows⟩ :=
    exists_of_parse_eq_ok hparse
  rw [hmaker] at hshows hstacks
  obtain rfl : tree = tree' := hshows.tree_eq
  have hsound : ∀ b' ∈ b :: rest, Branch.Sound g a p.overTrees tokens b' := by
    refine Search.Explores.forall (P := Branch.Sound g a p.overTrees tokens) hsearch
      (fun _ hb => hb.next h hserves) ?_
    intro b' hb'
    rw [List.mem_singleton.mp hb']
    exact .start g a p.overTrees tokens
  obtain ⟨hspells, hleaves, e, hstack, hitem⟩ :=
    (hsound b List.mem_cons_self).accept h hserves htokens hresult
  refine ⟨hspells, hleaves, m, hreach, hstep, ?_⟩
  rw [hstack] at hstacks
  obtain ⟨node, hitems, hnode⟩ := items_of_alike_singleton hstacks hitem
  obtain rfl : node = tree := hnode.tree_eq
  exact hitems

/-- The grammar `E := word; E := E infix E` (as rules 1 and 2) with a terminal for the operators
between two operands. -/
def infixOperators : Grammar where
  terminals := [.endOfInput, ⟨"word", none, .plain⟩, ⟨"E$infix", none, .operator ⟨1⟩ .infixOp⟩]
  nonterminals := [augmentedStartName, "E"]
  rules := [⟨augmentedStart, [.nonterminal ⟨1⟩], none⟩, ⟨⟨1⟩, [.terminal ⟨1⟩], none⟩,
    ⟨⟨1⟩, [.nonterminal ⟨1⟩, .terminal ⟨2⟩, .nonterminal ⟨1⟩], none⟩]
  start := ⟨1⟩
  operators := ∅
  operatorTerminals := ⟨[((⟨1⟩, .infixOp), ⟨2⟩)]⟩

/-- The grammar is defined by declarations. -/
theorem infixOperators_isDefined : infixOperators.IsDefined :=
  ⟨[.terminal "word" none, .nonterminal "E", .operatorTerminal ⟨1⟩ .infixOp,
    .rule ⟨1⟩ [.terminal ⟨1⟩] none,
    .rule ⟨1⟩ [.nonterminal ⟨1⟩, .terminal ⟨2⟩, .nonterminal ⟨1⟩] none], .inl (by decide)⟩

/-- The analysis of the grammar. -/
def infixOperatorsAnalysis : Analysis := infixOperators.analyse.toOption.getD ⟨∅, [], []⟩

/-- The table of the grammar, by the default policies. -/
def infixOperatorsTable : GeneratedTable :=
  (infixOperators.build ⟨.preferShift, .earliestRule, none⟩).2.toOption.getD
    ⟨#[], [], [], [], ∅, ∅, []⟩

/-- The table is built. -/
theorem infixOperators_build :
    (infixOperators.build ⟨.preferShift, .earliestRule, none⟩).2 = .ok infixOperatorsTable := by
  decide +kernel

/-- A parser over the table, with a left-associative operator. -/
def sumParser : Parser (TerminalId × String) (ParseTree (TerminalId × String)) Empty Unit :=
  (Parser.ofTable infixOperatorsTable.toParseTable treeMaker none).defineAll
    [⟨"+", "yfx", 500, ⟨1⟩⟩]

/-- A sum of three words. -/
def sumTokens : List (TerminalId × String) :=
  [(⟨1⟩, "x"), (⟨1⟩, "+"), (⟨1⟩, "y"), (⟨1⟩, "+"), (⟨1⟩, "z")]

/-- The sum is parsed, and its tree is a derivation tree. -/
theorem parse_sound_sum :
    ∃ tree, ∃ last : Machine (TerminalId × String) (ParseTree (TerminalId × String)) Empty Unit,
      sumParser.parse 30 (sumTokens.map .ok) () = some (.ok tree, last) ∧
      Spells infixOperators sumParser.operators (.nonterminal infixOperators.start) tree ∧
      tree.leaves = sumTokens.zipIdx ∧
      ∃ m, sumParser.Reaches (.start (sumTokens.map .ok) ()) m ∧
        sumParser.step m = .halt (.ok tree) last ∧ m.stack.map StackEntry.item = [.node tree] := by
  have hends : ((sumParser.parse (ε := Empty) 30 (sumTokens.map .ok) ()).any
      fun result => result.1.isOk) = true := by
    decide +kernel
  obtain ⟨⟨outcome, last⟩, hparse, hok⟩ := (Option.any_eq_true _ _).mp hends
  cases outcome with
  | error e => cases hok
  | ok tree =>
    exact ⟨tree, last, hparse, parse_sound (a := infixOperatorsAnalysis)
      infixOperators_isDefined (by decide +kernel) (by decide +kernel) infixOperators_build
      [⟨"+", "yfx", 500, ⟨1⟩⟩] none (by decide) rfl hparse⟩

end OperatorLALR
