import OperatorLALR.Proofs.Parser.Restoring
import OperatorLALR.Proofs.Search.Simulation

/-!
# The search of a parser is exhaustive

A parser tries the readings of a token in the order of the alternatives of the nondeterministic
parser (`Branch.alternatives_eq_readings`), and every step of a parse that goes on explores some
branches (`Follows.step`); one that accepts has come upon a branch with a result, and one that
rejects the input has no branch left. So the result of a parse is that of the first accepting run in
the order of alternatives, and an input is rejected only if no run accepts it (`parse_exhaustive`).
-/

namespace OperatorLALR

variable {τ ν β ε σ : Type} [Token τ] {p : Parser τ ν β σ} {tokens : List τ}
  {m m₁ m' last : Machine τ ν ε σ} {saved : List (Machine τ ν ε σ)} {b : Branch τ}
  {rest : List (Branch τ)} {lookahead : Lookahead τ}

/-- A parser tries the readings of a token in the order of the alternatives. -/
theorem Branch.alternatives_eq_readings (p : Parser τ ν β σ) (q : StateId) (token : τ) :
    Branch.alternatives p q token = p.readings q token := by
  have hopen : ∀ t, (!(p.table.action q t).isError) = decide (p.table.action q t ≠ .error) :=
    fun t => by cases p.table.action q t <;> rfl
  have hnamed : ∀ named : List Operator,
      ((named.map fun op => (⟨op.terminal, some op⟩ : Reading)).filter fun r =>
        !(p.table.action q r.terminal).isError) =
      (named.filter fun op => p.table.action q op.terminal ≠ .error).map fun op =>
        ⟨op.terminal, some op⟩ := by
    intro named
    simp only [List.filter_map, Function.comp_def, hopen]
  rw [alternatives, Parser.readings, List.filter_cons, hopen]
  cases Token.operatorName token with
  | none => by_cases herror : p.table.action q (Token.terminal token) = .error <;> simp [herror]
  | some name =>
    dsimp only
    rw [hnamed]
    by_cases herror : p.table.action q (Token.terminal token) = .error <;> simp [herror]

namespace Follows

/-- The readings of a token that the machine is to decide on. -/
theorem next_eq {token : τ} (h : Follows p tokens m saved b rest) (hnone : m.lookahead = none)
    (hread : Parser.readToken m = (.ok (some token), m')) :
    b.lookahead = none ∧ b.next p.overTrees tokens =
      (p.readings (p.stateOn m.stack) token).map fun reading =>
        { b with lookahead := some (.token ⟨token, reading, b.position, 0⟩) } := by
  obtain ⟨-, htoken, -, -⟩ := h.readToken hread
  have hb : b.lookahead = none := by
    rw [h.mirrors.lookahead, hnone]
    rfl
  refine ⟨hb, ?_⟩
  rw [Branch.next_of_token hb htoken, Branch.alternatives_eq_readings,
    stateOn_alike h.mirrors.stack]
  rfl

/-- A look explores the readings of the next token. -/
theorem looked (h : Follows p tokens m saved b rest) (hl : Parser.Looked p m lookahead m₁) :
    ∃ saved₁ b₁ rest₁, p.Searches tokens (b :: rest) (b₁ :: rest₁) ∧
      Follows p tokens m₁ saved₁ b₁ rest₁ := by
  cases hl with
  | known => exact ⟨saved, b, rest, .refl, h⟩
  | @ended m₂ hnone hread =>
    obtain ⟨h₂, hend, hposition, -⟩ := h.readToken hread
    have hb : b.lookahead = none := by
      rw [h.mirrors.lookahead, hnone]
      rfl
    exact ⟨saved, _, rest, .next rest (Branch.result?_eq_none hb) (Branch.next_of_ended hb hend),
      h₂.decide .inputEnd hposition⟩
  | @single m₂ token reading hnone hread hways =>
    obtain ⟨h₂, -, hposition, -⟩ := h.readToken hread
    obtain ⟨hb, hnext⟩ := h.next_eq hnone hread
    rw [hways] at hnext
    have hdecided := h₂.decide (.token ⟨token, reading, m₂.position, m₂.clock⟩) hposition
    rw [← h₂.mirrors.position] at hdecided ⊢
    exact ⟨saved, _, rest, .next rest (Branch.result?_eq_none hb) hnext, hdecided⟩
  | @several m₂ m₃ token reading other others hnone hread hways hleave =>
    obtain ⟨h₂, -, hposition, hnone₂⟩ := h.readToken hread
    obtain ⟨hb, hnext⟩ := h.next_eq hnone hread
    rw [hways] at hnext
    have hforced : m₂.forced = none := h₂.unforced (hnone₂.trans hnone)
    have h₃ := h₂.leave rfl hleave hposition (offers_readings (other :: others) h₂.mirrors hforced)
    have hwidth : m₃.position + 1 ≤ m₃.pulled.length := by
      obtain ⟨depth, rfl⟩ := Parser.leaveChoice_ok hleave
      exact hposition
    have hdecided := h₃.decide (.token ⟨token, reading, m₂.position, m₃.clock⟩) hwidth
    rw [← h₂.mirrors.position] at hdecided ⊢
    exact ⟨_, _, _, .next rest (Branch.result?_eq_none hb) hnext, hdecided⟩

/-- What the action of a machine leaves open is what the branch goes on to. -/
theorem next_of_open {as : List Action} (h : Follows p tokens m saved b rest)
    (hl : m.lookahead = some lookahead)
    (hopen : p.openActions m.stack lookahead (p.nextAction m lookahead) = some as) :
    b.result? p.overTrees = none ∧
      b.next p.overTrees tokens = as.map fun a => { b with forced := some a } := by
  have haction : b.action p.overTrees lookahead.timeless = p.nextAction m lookahead :=
    h.mirrors.action_eq
  have hne : b.action p.overTrees lookahead.timeless ≠ .accept := by
    intro hacc
    rw [← haction, hacc] at hopen
    cases hopen
  have hopen' : p.overTrees.openActions b.stack lookahead.timeless
      (b.action p.overTrees lookahead.timeless) = some as := by
    rw [haction, openActions_alike h.mirrors.stack]
    exact hopen
  exact ⟨Branch.result?_of_ne_accept (h.lookahead_eq hl) hne,
    Branch.next_of_open (h.lookahead_eq hl) hopen'⟩

/-- A move explores what the action leaves open, with at least one step of the search. -/
theorem moved (h : Follows p tokens m saved b rest) (hl : m.lookahead = some lookahead)
    (hmoved : Parser.Moved p lookahead { m with forced := none } (p.nextAction m lookahead) m') :
    ∃ saved' b' rest', p.Advances tokens (b :: rest) (b' :: rest') ∧
      Follows p tokens m' saved' b' rest' := by
  have hb := h.lookahead_eq hl
  have haction : b.action p.overTrees lookahead.timeless = p.nextAction m lookahead :=
    h.mirrors.action_eq
  have hknown : m.lookahead ≠ none := by
    rw [hl]
    nofun
  have hunforced := h.force none hknown
  have hopens : ∀ as, p.openActions m.stack lookahead (p.nextAction m lookahead) = some as →
      b.result? p.overTrees = none ∧
        b.next p.overTrees tokens = as.map fun a => { b with forced := some a } :=
    fun as hopen => h.next_of_open hl hopen
  have hstuck := fun hno => h.mirrors.stuck tokens hl hno
  generalize p.nextAction m lookahead = a at hmoved haction hopens hstuck
  cases hmoved with
  | @shift q view hview =>
    subst hview
    have hne : b.action p.overTrees (Lookahead.token view).timeless ≠ .accept := by
      rw [haction]
      nofun
    exact ⟨saved, _, rest, .next rest (Branch.result?_of_ne_accept hb hne)
      (Branch.next_of_shift hb haction), h.shift hl q⟩
  | @reduce r _ hr =>
    have hne : b.action p.overTrees lookahead.timeless ≠ .accept := by
      rw [haction]
      nofun
    obtain ⟨b', hb', hmirrors⟩ := h.mirrors.reduce hr
    have hnext : b.next p.overTrees tokens = [b'] := by
      rw [Branch.next_of_reduce hb haction, hb']
      rfl
    exact ⟨saved, b', rest, .next rest (Branch.result?_of_ne_accept hb hne) hnext,
      hunforced.reduce hr hmirrors⟩
  | @only _ first hopen =>
    obtain ⟨hresult, hnext⟩ := hopens _ hopen
    exact ⟨saved, _, rest, .next rest hresult hnext, hunforced.force (some first) hknown⟩
  | @branch _ first other others m₂ hopen hleave =>
    obtain ⟨hresult, hnext⟩ := hopens _ hopen
    exact ⟨_, _, _, .next rest hresult hnext, hunforced.branch hl hleave⟩
  | @back _ _ deadEnd hno hback =>
    obtain ⟨hresult, hnext⟩ := hstuck hno
    obtain ⟨saved', b', rest', rfl, h'⟩ := hunforced.back hback
    exact ⟨saved', b', rest', .next _ hresult hnext, h'⟩

/-- A step that goes on explores some branches, one at least. -/
theorem step (h : Follows p tokens m saved b rest) (hstep : p.step m = .next m') :
    ∃ saved' b' rest', p.Advances tokens (b :: rest) (b' :: rest') ∧
      Follows p tokens m' saved' b' rest' := by
  rcases Parser.step_next hstep with
    ⟨lookahead, m₁, hl, hlooked, hmoved⟩ | ⟨m₁, deadEnd, hrefused, hback⟩
  · obtain ⟨saved₁, b₁, rest₁, hsearch₁, h₁⟩ := h.looked hlooked
    obtain ⟨saved', b', rest', hsearch', h'⟩ := h₁.moved hl hmoved
    exact ⟨saved', b', rest', hsearch₁.advances hsearch', h'⟩
  · obtain ⟨hnone, token, hread, hways⟩ := Parser.look_refused hrefused
    obtain ⟨hb, hnext⟩ := h.next_eq hnone hread
    rw [hways] at hnext
    obtain ⟨h₁, -, -, -⟩ := h.readToken hread
    obtain ⟨saved', b', rest', rfl, h'⟩ := h₁.back hback
    exact ⟨saved', b', rest', .next _ (Branch.result?_eq_none hb) hnext, h'⟩

/-- A machine that a parse reaches is at a branch that the search comes upon, over the tokens that
the source gives. -/
theorem of_source {source : List (Except ε τ)} {memory : σ}
    (h : p.Reaches (.start source memory) m) :
    ∃ saved b rest, p.Searches (given source) [.start] (b :: rest) ∧
      Follows p (given source) m saved b rest := by
  induction h with
  | refl => exact ⟨[], .start, [], .refl, .start p source memory⟩
  | tail _ hstep ih =>
    obtain ⟨saved, b, rest, hsearch, h⟩ := ih
    obtain ⟨saved', b', rest', hsearch', h'⟩ := h.step hstep
    exact ⟨saved', b', rest', hsearch.trans hsearch'.searches, h'⟩

/-- A machine that a parse reaches is at a branch that the search comes upon. -/
theorem of_reaches {memory : σ} (h : p.Reaches (.start (tokens.map .ok) memory) m) :
    ∃ saved b rest, p.Searches tokens [.start] (b :: rest) ∧ Follows p tokens m saved b rest := by
  have hsource := of_source h
  rwa [given_map_ok] at hsource

/-- A step that accepts has come upon a branch with the tree of the node. -/
theorem accepted {node : ν} (h : Follows p tokens m saved b rest)
    (hstep : p.step m = .halt (.ok node) last) :
    ∃ b₁ rest₁ tree, p.Searches tokens (b :: rest) (b₁ :: rest₁) ∧
      List.Forall₂ (StackEntry.Alike p.maker) m.stack b₁.stack ∧
      b₁.result? p.overTrees = some tree ∧ Shows p.maker (.node node) tree := by
  obtain ⟨lookahead, m₁, top, below, hlooked, hacc, hstack, hitem⟩ := Parser.step_accepted hstep
  obtain ⟨saved₁, b₁, rest₁, hsearch, h₁⟩ := h.looked hlooked
  have hstacks := h₁.mirrors.stack
  rw [hlooked.frame.1] at hstacks
  have halikes := hstacks
  rw [hstack, List.forall₂_cons_left_iff] at hstacks
  obtain ⟨top', below', htop, -, hstack'⟩ := hstacks
  obtain ⟨tree, hitem', hshows⟩ := HandleItem.Alike.exists_tree (hitem ▸ htop.item)
  have haction : b₁.action p.overTrees lookahead.timeless = .accept :=
    h₁.mirrors.action_eq.trans hacc
  exact ⟨b₁, rest₁, tree, hsearch, halikes, Branch.result?_of_accept
    (h₁.lookahead_eq hlooked.lookahead_eq) haction hstack' hitem', hshows⟩

/-- A step that rejects the input has no branch left. -/
theorem rejected {e : ParseError ε β} (h : Follows p tokens m saved b rest)
    (he : e.isRejection = true) (hstep : p.step m = .halt (.error e) last) :
    p.Searches tokens (b :: rest) [] := by
  rcases Parser.step_rejected he hstep with
    ⟨lookahead, m₁, hl, hlooked, hstuck, hnone⟩ | ⟨m₁, hrefused, hnone⟩
  · obtain ⟨saved₁, b₁, rest₁, hsearch, h₁⟩ := h.looked hlooked
    obtain ⟨hresult, hnext⟩ := h₁.mirrors.stuck tokens hl hstuck
    obtain rfl : rest₁ = [] := h₁.rest_eq_nil hnone
    exact hsearch.trans (.next [] hresult hnext)
  · obtain ⟨hnone', token, hread, hways⟩ := Parser.look_refused hrefused
    obtain ⟨hb, hnext⟩ := h.next_eq hnone' hread
    rw [hways] at hnext
    obtain ⟨h₁, -, -, -⟩ := h.readToken hread
    obtain rfl : rest = [] := h₁.rest_eq_nil hnone
    exact .next [] (Branch.result?_eq_none hb) hnext

end Follows

/-- If a parse ends with a node: the machine that accepts, and the branch that the search has come
upon. -/
theorem exists_of_parse_eq_ok {n : Nat} {memory : σ} {node : ν}
    (h : p.parse n (tokens.map .ok : List (Except ε τ)) memory = some (.ok node, last)) :
    ∃ m b rest tree, p.Reaches (.start (tokens.map .ok) memory) m ∧
      p.step m = .halt (.ok node) last ∧ p.Searches tokens [.start] (b :: rest) ∧
      List.Forall₂ (StackEntry.Alike p.maker) m.stack b.stack ∧
      b.result? p.overTrees = some tree ∧ Shows p.maker (.node node) tree := by
  obtain ⟨m, hreach, hstep⟩ := Parser.run_eq_some h
  obtain ⟨saved, b, rest, hsearch, hfollows⟩ := Follows.of_reaches hreach
  obtain ⟨b₁, rest₁, tree, hsearch₁, hstacks, hresult, hshows⟩ := hfollows.accepted hstep
  exact ⟨m, b₁, rest₁, tree, hreach, hstep, hsearch.trans hsearch₁, hstacks, hresult, hshows⟩

/-- The parser is an exhaustive search in order. Consider the runs of the nondeterministic parser
over the same tokens, each given by the places of the alternatives it takes. If a parse ends with a
node, then that is the node of a run that accepts, and all earlier runs in the order of alternatives
get stuck; if nodes are computed from rules and handles alone, the node is the value of the tree of
that run. If a parse rejects the input, then all runs get stuck. -/
theorem parse_exhaustive {n : Nat} {memory : σ} {r : Except (ParseError ε β) ν}
    (h : p.parse n (tokens.map .ok : List (Except ε τ)) memory = some (r, last)) :
    (∀ node, r = .ok node → ∃ path b tree,
      Search.follow (Branch.next p.overTrees tokens) .start path = some b ∧
      b.result? p.overTrees = some tree ∧ Shows p.maker (.node node) tree ∧
      (∀ build, p.maker.Computes build → tree.item build = .node node) ∧
      Search.Fails (Branch.next p.overTrees tokens) (Branch.result? p.overTrees) .start
        (· < path)) ∧
    (∀ e, r = .error e → e.isRejection = true →
      Search.Fails (Branch.next p.overTrees tokens) (Branch.result? p.overTrees) .start
        fun _ => True) := by
  constructor
  · rintro node rfl
    obtain ⟨_, b, rest, tree, -, -, hsearch, -, hresult, hshows⟩ := exists_of_parse_eq_ok h
    obtain ⟨path, hpath, hfails⟩ := Search.Explores.found hsearch
    exact ⟨path, b, tree, hpath, hresult, hshows, fun _ hbuild => (hshows.timeless_eq hbuild).symm,
      hfails⟩
  · rintro e rfl he
    obtain ⟨m, hreach, hstep⟩ := Parser.run_eq_some h
    obtain ⟨saved, b, rest, hsearch, hfollows⟩ := Follows.of_reaches hreach
    exact Search.Explores.exhausted (hsearch.trans (hfollows.rejected he hstep))

/-- A token may denote an operator by its text. -/
instance : Token (TerminalId × String) := ⟨Prod.fst, fun token => some token.2⟩

/-- A minus before a sentence. -/
def sign : Operator := ⟨"-", ⟨1⟩, "S", .fy, 200, ⟨2⟩⟩

/-- The table of `S := word; S := prefix S` (as rules 1 and 2), with a minus that may be a
prefix. -/
def signTable : ParseTable where
  initial := ⟨0⟩
  action q t := match q.val, t.val with
    | 0, 1 | 2, 1 => .shift ⟨1⟩
    | 0, 2 | 2, 2 => .shift ⟨2⟩
    | 1, 0 => .reduce ⟨1⟩
    | 3, 0 => .accept
    | 4, 0 => .reduce ⟨2⟩
    | _, _ => .error
  goto q n := match q.val, n.val with
    | 0, 1 => some ⟨3⟩
    | 2, 1 => some ⟨4⟩
    | _, _ => none
  rule r := [⟨⟨0⟩, 1, none⟩, ⟨⟨1⟩, 1, none⟩, ⟨⟨1⟩, 2, some 0⟩][r.val]?
  candidates _ := none
  expected q := if q.val = 0 ∨ q.val = 2 then [⟨1⟩, ⟨2⟩] else [⟨0⟩]
  operators := OperatorTable.define ∅ sign
  operatorTerminal n fixity := if n.val = 1 ∧ fixity = .prefixOp then some ⟨2⟩ else none
  nonterminalName n := if n.val = 1 then some "S" else none

/-- A parser over the table. -/
def signParser : Parser (TerminalId × String) (ParseTree (TerminalId × String)) Empty Unit :=
  Parser.ofTable signTable treeMaker none

/-- The tree of a sentence behind its sign. -/
def signedTree : ParseTree (TerminalId × String) :=
  .node ⟨2⟩ [.leaf (⟨1⟩, "-") ⟨⟨2⟩, some sign⟩ 0,
    .node ⟨1⟩ [.leaf (⟨1⟩, "x") ⟨⟨1⟩, none⟩ 1]]

/-- The minus of `- x` may be a word or a sign. As a word it is tried first, and gets stuck; the
parser accepts it as the sign that it is in the first run that does not get stuck. -/
theorem parse_exhaustive_sign :
    Branch.alternatives signParser ⟨0⟩ (⟨1⟩, "-") = [⟨⟨1⟩, none⟩, ⟨⟨2⟩, some sign⟩] ∧
    ∃ last : Machine (TerminalId × String) (ParseTree (TerminalId × String)) Empty Unit,
      signParser.parse 9 ([(⟨1⟩, "-"), (⟨1⟩, "x")].map .ok) () = some (.ok signedTree, last) ∧
      ∃ path b,
        Search.follow (Branch.next signParser.overTrees [(⟨1⟩, "-"), (⟨1⟩, "x")]) .start path =
          some b ∧
        b.result? signParser.overTrees = some signedTree ∧
        Search.Fails (Branch.next signParser.overTrees [(⟨1⟩, "-"), (⟨1⟩, "x")])
          (Branch.result? signParser.overTrees) .start (· < path) := by
  have hparse : signParser.parse 9 ([(⟨1⟩, "-"), (⟨1⟩, "x")].map .ok :
      List (Except Empty (TerminalId × String))) () = some (.ok signedTree, _) := rfl
  obtain ⟨path, b, tree, hpath, hresult, hshows, -, hfails⟩ :=
    (parse_exhaustive hparse).1 signedTree rfl
  obtain rfl : signedTree = tree := hshows.tree_eq
  exact ⟨rfl, _, hparse, path, b, hpath, hresult, hfails⟩

end OperatorLALR
