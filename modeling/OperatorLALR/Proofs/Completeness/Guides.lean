import OperatorLALR.Proofs.Automaton.Lookaheads
import OperatorLALR.Proofs.Completeness.Runs
import OperatorLALR.Proofs.ParseTable.Covers
import OperatorLALR.Proofs.Soundness.Branches

/-!
# Runs along derivation trees

A parser can be led along a derivation tree if the table offers every shift and every reduction that
the tree calls for. Whether it does may depend on what stands on the stack, on the tree that is to
be read next and on the lookahead behind it: a `Guide` is a condition on these three that each node
hands on to its children and that makes the table offer what is called for. Under a guide some run
turns a ready branch into one with the tree on top of its stack (`Guide.tree_runs`), and some run
accepts the whole input with the tree (`Guide.accepts`).
-/

namespace OperatorLALR

variable {τ β σ : Type}

/-- What comes next in a list comes part by part. -/
theorem prefix_drop_of_append {α : Type} {xs ys zs : List α} {i : Nat}
    (h : xs ++ ys <+: zs.drop i) : xs <+: zs.drop i ∧ ys <+: zs.drop (i + xs.length) := by
  obtain ⟨more, hmore⟩ := h
  refine ⟨⟨ys ++ more, ?_⟩, more, ?_⟩
  · rw [← hmore, List.append_assoc]
  · rw [← List.drop_drop, ← hmore, List.append_assoc, List.drop_left]

/-- A part of a list that is not empty starts it, or is a part of what is behind its head. -/
theorem append_cons_eq_cons_iff {α : Type} {done rest xs : List α} {child x : α} :
    done ++ child :: rest = x :: xs ↔
      (done = [] ∧ child = x ∧ rest = xs) ∨
        ∃ done', done = x :: done' ∧ done' ++ child :: rest = xs := by
  rw [List.append_eq_cons_iff, List.cons.injEq]
  exact or_congr_right (exists_congr fun done' => and_congr_right fun _ => eq_comm)

/-- The lookahead in front of some trees, given the one behind them. -/
def lookaheadBefore (trees : List (ParseTree τ)) (lookahead : Lookahead τ) : Lookahead τ :=
  match ParseTree.viewsOf trees with
  | [] => lookahead
  | view :: _ => .token view

/-- In front of trees whose leaves come next stands the lookahead at their position. -/
theorem lookaheadBefore_eq {trees : List (ParseTree τ)} {views : List (TokenView τ)} {i : Nat}
    (h : ParseTree.viewsOf trees <+: views.drop i) :
    lookaheadBefore trees (lookaheadAt views (i + (ParseTree.viewsOf trees).length)) =
      lookaheadAt views i := by
  rw [lookaheadBefore]
  cases hviews : ParseTree.viewsOf trees with
  | nil => rfl
  | cons view rest =>
    rw [hviews] at h
    obtain ⟨more, hmore⟩ := h
    have hview : views[i]? = some view := by
      rw [← List.head?_drop, ← hmore]
      rfl
    have hat : lookaheadAt views i = .token view := by rw [lookaheadAt, hview]
    exact hat.symm

variable [Token τ]

/-- A condition on a stack, the tree to be read onto it and the lookahead behind the tree, under
which the table offers what the tree calls for. -/
structure Guide (g : Grammar) (a : Analysis) (p : Parser τ (ParseTree τ) β σ)
    (fit : List (StackEntry τ (ParseTree τ)) → ParseTree τ → Lookahead τ → Prop) : Prop where
  /-- A leaf is shifted. -/
  shift : ∀ {stack symbols token reading position lookahead next}, Path g a p stack symbols →
    fit stack (.leaf token reading position) lookahead →
    (g.automaton a).Goes (p.stateOn stack) (.terminal reading.terminal) next →
    p.Offers stack (.token ⟨token, reading, position, 0⟩) (.shift next)
  /-- A node whose children are on the stack is made by a reduction. -/
  reduce : ∀ {below entries symbols r children lookahead}, Path g a p (entries ++ below) symbols →
    List.Forall₂ (StackEntry.Prices p.table) entries.reverse children →
    fit below (.node r children) lookahead → r ≠ acceptRule →
    (g.automaton a).Look g (p.stateOn (entries ++ below)) ⟨r, (g.body r).length⟩
      lookahead.terminal →
    p.Offers (entries ++ below) lookahead (.reduce r)
  /-- The operator that governs a node accepts its operands. -/
  operands : ∀ {below r children lookahead}, fit below (.node r children) lookahead →
    OperandsFit p.table r children
  /-- A node hands the condition on to each of its children. -/
  child : ∀ {below entries symbols r done child rest lookahead},
    Path g a p (entries ++ below) symbols →
    List.Forall₂ (StackEntry.Prices p.table) entries.reverse done →
    entries.reverse.map (fun e => e.item.tree) = done →
    List.Forall₂ (Spells g p.operators) (g.body r) (done ++ child :: rest) →
    fit below (.node r (done ++ child :: rest)) lookahead →
    fit (entries ++ below) child (lookaheadBefore rest lookahead)
  /-- The rule of the augmented start symbol is accepted. -/
  accept : ∀ {stack symbols}, Path g a p stack symbols →
    (g.automaton a).Has (p.stateOn stack) ⟨acceptRule, (g.body acceptRule).length⟩ →
    p.table.action (p.stateOn stack) endOfInput = .accept

/-- Some run leads from a branch to a ready one with further entries on its stack, which bear some
trees, and behind the leaves of these. -/
structure Branch.Grows (p : Parser τ (ParseTree τ) β σ) (tokens : List τ)
    (views : List (TokenView τ)) (b : Branch τ) (entries : List (StackEntry τ (ParseTree τ)))
    (trees : List (ParseTree τ)) (b' : Branch τ) : Prop where
  reach : Search.Reaches (Branch.next p tokens) b b'
  ready : b'.Ready views
  stack : b'.stack = entries ++ b.stack
  position : b'.position = b.position + (ParseTree.viewsOf trees).length
  bears : entries.reverse.map (fun e => e.item.tree) = trees
  prices : List.Forall₂ (StackEntry.Prices p.table) entries.reverse trees

namespace Branch.Grows

variable {p : Parser τ (ParseTree τ) β σ} {tokens : List τ} {views : List (TokenView τ)}
  {b b' b'' : Branch τ} {entries entries' : List (StackEntry τ (ParseTree τ))}
  {trees trees' : List (ParseTree τ)}

/-- No trees are added by doing nothing. -/
theorem refl (hb : b.Ready views) : b.Grows p tokens views [] [] b :=
  ⟨.refl, hb, rfl, rfl, rfl, .nil⟩

/-- Trees are added one after the other. -/
theorem trans (h : b.Grows p tokens views entries trees b')
    (h' : b'.Grows p tokens views entries' trees' b'') :
    b.Grows p tokens views (entries' ++ entries) (trees ++ trees') b'' where
  reach := Relation.ReflTransGen.trans h.reach h'.reach
  ready := h'.ready
  stack := by rw [h'.stack, h.stack, List.append_assoc]
  position := by
    rw [h'.position, h.position, ParseTree.viewsOf_append, List.length_append, Nat.add_assoc]
  bears := by rw [List.reverse_append, List.map_append, h.bears, h'.bears]
  prices := by
    rw [List.reverse_append]
    exact List.rel_append h.prices h'.prices

variable {e : StackEntry τ (ParseTree τ)} {tree : ParseTree τ}

/-- A branch that has grown by one tree is behind the leaves of this tree. -/
theorem position_eq (h : b.Grows p tokens views [e] [tree] b') :
    b'.position = b.position + tree.views.length := by
  rw [h.position, ParseTree.viewsOf, ParseTree.viewsOf, List.append_nil]

/-- The entry by which a branch has grown by one tree bears this tree. -/
theorem tree_eq (h : b.Grows p tokens views [e] [tree] b') : e.item.tree = tree :=
  (List.cons.inj h.bears).1

/-- A path goes on with the symbol by whose tree a branch has grown. -/
theorem path {g : Grammar} {a : Analysis} {symbol : Symbol} {symbols : List Symbol}
    (h : b.Grows p tokens views [e] [tree] b') (hpath : Path g a p b.stack symbols)
    (hgoes : (g.automaton a).Goes (p.stateOn b.stack) symbol e.state)
    (htree : Spells g p.operators symbol tree) : Path g a p b'.stack (symbol :: symbols) := by
  rw [h.stack]
  exact .cons hpath hgoes (h.tree_eq ▸ htree)

end Branch.Grows

namespace Guide

variable {g : Grammar} {a : Analysis} {p : Parser τ (ParseTree τ) β σ}
  {fit : List (StackEntry τ (ParseTree τ)) → ParseTree τ → Lookahead τ → Prop}
  {tokens : List τ} {views : List (TokenView τ)}

/-- Some run turns a ready branch into one with the tree on top, if the tree comes next in the
input. -/
def TreeRuns (g : Grammar) (a : Analysis) (p : Parser τ (ParseTree τ) β σ)
    (fit : List (StackEntry τ (ParseTree τ)) → ParseTree τ → Lookahead τ → Prop)
    (tokens : List τ) (views : List (TokenView τ)) (symbol : Symbol) (tree : ParseTree τ) : Prop :=
  ∀ (b : Branch τ) (next : StateId) (symbols : List Symbol) (lookahead : Lookahead τ),
    b.Ready views → Path g a p b.stack symbols → tree.views <+: views.drop b.position →
    lookahead = lookaheadAt views (b.position + tree.views.length) →
    (g.automaton a).Goes (p.stateOn b.stack) symbol next →
    (∀ n, symbol = .nonterminal n →
      (g.automaton a).Follows g (p.stateOn b.stack) n lookahead.terminal) →
    fit b.stack tree lookahead →
    ∃ e b', b.Grows p tokens views [e] [tree] b' ∧ e.state = next

/-- Some run turns a ready branch with the first children of a node on top into one with all of
them, if the others come next in the input. -/
def ForestRuns (g : Grammar) (a : Analysis) (p : Parser τ (ParseTree τ) β σ)
    (fit : List (StackEntry τ (ParseTree τ)) → ParseTree τ → Lookahead τ → Prop)
    (tokens : List τ) (views : List (TokenView τ)) (symbols : List Symbol)
    (trees : List (ParseTree τ)) : Prop :=
  ∀ (b : Branch τ) (r : RuleId) (below entries : List (StackEntry τ (ParseTree τ)))
    (done : List (ParseTree τ)) (path : List Symbol) (lookahead : Lookahead τ),
    b.Ready views → Path g a p b.stack path → b.stack = entries ++ below →
    List.Forall₂ (StackEntry.Prices p.table) entries.reverse done →
    entries.reverse.map (fun e => e.item.tree) = done →
    (g.body r).drop done.length = symbols →
    List.Forall₂ (Spells g p.operators) (g.body r) (done ++ trees) →
    ParseTree.viewsOf trees <+: views.drop b.position →
    lookahead = lookaheadAt views (b.position + (ParseTree.viewsOf trees).length) →
    (g.automaton a).Look g (p.stateOn b.stack) ⟨r, done.length⟩ lookahead.terminal →
    fit below (.node r (done ++ trees)) lookahead →
    ∃ entries' b' path', b.Grows p tokens views entries' trees b' ∧
      Path g a p b'.stack path' ∧
      (g.automaton a).Look g (p.stateOn b'.stack) ⟨r, (g.body r).length⟩ lookahead.terminal

variable (guide : Guide g a p fit) (hg : g.Built a) (hp : Serves g a p)
  (hc : g.Covers a p.table) (hviews : ReadsAs p.operators tokens views)

include guide hviews in
/-- A leaf is shifted. -/
theorem leaf_runs (token : τ) (reading : Reading) (position : Nat) :
    TreeRuns g a p fit tokens views (.terminal reading.terminal)
      (.leaf token reading position) := by
  intro b next symbols lookahead hb hpath hnext hlookahead hgoes _ hfit
  have hview : views[b.position]? = some ⟨token, reading, position, 0⟩ := by
    obtain ⟨more, hmore⟩ := hnext
    rw [← List.head?_drop, ← hmore]
    rfl
  have hshift := hb.shift hviews hview (guide.shift hpath hfit hgoes)
  exact ⟨_, _, ⟨hshift, ⟨rfl, .inl rfl⟩, rfl, rfl, rfl, .cons ⟨rfl, rfl, rfl⟩ .nil⟩, rfl⟩

include guide hg hc hviews in
/-- A node is made by a reduction, once its children are on the stack. -/
theorem node_runs {r : RuleId} {rule : Rule} {children : List (ParseTree τ)}
    (hrule : g.rule? r = some rule)
    (hchildren : List.Forall₂ (Spells g p.operators) rule.body children)
    (ih : ForestRuns g a p fit tokens views rule.body children) :
    TreeRuns g a p fit tokens views (.nonterminal rule.left) (.node r children) := by
  intro b next symbols lookahead hb hpath hnext hlookahead hgoes hfollows hfit
  have hbody : g.body r = rule.body := Grammar.body_eq hrule
  have hshape : p.table.rule r = some (rule.shape g) := hc.rule r rule hrule
  have hlook : (g.automaton a).Look g (p.stateOn b.stack) ⟨r, 0⟩ lookahead.terminal :=
    Grammar.Built.look_of_follows (hfollows _ rfl) (Grammar.mem_rulesOf.mpr ⟨rule, hrule, rfl⟩)
  have hr : r ≠ acceptRule := by
    obtain ⟨item, -, hitem, -⟩ := hfollows _ rfl
    exact hg.chain_rule_ne_accept hitem hrule (.nil _)
  obtain ⟨entries, b', path', hgrows, hpath', hlook'⟩ := ih b r b.stack [] [] symbols lookahead hb
    hpath rfl .nil rfl hbody (by rw [hbody]; exact hchildren) hnext hlookahead hlook hfit
  have hat : lookahead = lookaheadAt views b'.position := by
    rw [hgrows.position]
    exact hlookahead
  rw [hgrows.stack] at hpath' hlook'
  have hoffers := guide.reduce hpath' hgrows.prices hfit hr hlook'
  have hpriority := (nodePriority?_eq_some_iff hgrows.prices hshape).mpr
    ⟨guide.operands hfit, rfl⟩
  have hlength : entries.length = (rule.shape g).length := by
    rw [← List.length_reverse, hgrows.prices.length_eq, ← hchildren.length_eq]
    rfl
  rw [hat, ← hgrows.stack] at hoffers
  have hreduce := hgrows.ready.reduce hviews hgrows.stack hoffers hshape hlength hpriority
    (hc.goto _ _ _ hgoes)
  rw [hgrows.bears] at hreduce
  refine ⟨_, _, ⟨Relation.ReflTransGen.trans hgrows.reach hreduce, ⟨rfl, .inr rfl⟩, rfl, ?_, rfl,
    .cons ⟨rfl, rfl, rfl⟩ .nil⟩, rfl⟩
  rw [hgrows.position, ParseTree.viewsOf, ParseTree.views, ParseTree.viewsOf, List.append_nil]

include guide hg in
/-- The first of the missing children is read, then the others. -/
theorem cons_runs {symbol : Symbol} {tree : ParseTree τ} {symbols : List Symbol}
    {trees : List (ParseTree τ)} (htree : Spells g p.operators symbol tree)
    (htrees : List.Forall₂ (Spells g p.operators) symbols trees)
    (ih : TreeRuns g a p fit tokens views symbol tree)
    (ihs : ForestRuns g a p fit tokens views symbols trees) :
    ForestRuns g a p fit tokens views (symbol :: symbols) (tree :: trees) := by
  intro b r below entries done path lookahead hb hpath hstack hprices hbears hdrop hspells hnext
    hlookahead hlook hfit
  obtain ⟨hhas, -⟩ := hg.justified_of_look hlook
  have hsymbol : (Item.mk r done.length).next? g = some symbol := by
    rw [Item.next?, ← List.head?_drop, hdrop]
    rfl
  have hrest : (Item.mk r done.length).rest g = symbols := by
    rw [Item.rest, ← List.drop_drop, hdrop]
    rfl
  obtain ⟨next, hgoes⟩ := hg.exists_goes hhas hsymbol
  rw [ParseTree.viewsOf] at hnext hlookahead
  obtain ⟨hfirst, hothers⟩ := prefix_drop_of_append hnext
  rw [List.length_append, ← Nat.add_assoc] at hlookahead
  have hbefore : lookaheadBefore trees lookahead =
      lookaheadAt views (b.position + tree.views.length) := by
    rw [hlookahead]
    exact lookaheadBefore_eq hothers
  have hfollows : ∀ n, symbol = .nonterminal n → (g.automaton a).Follows g (p.stateOn b.stack) n
      (lookaheadBefore trees lookahead).terminal := by
    rintro n rfl
    refine ⟨_, hhas, hsymbol, ?_⟩
    rw [hrest, lookaheadBefore]
    cases hleaves : ParseTree.viewsOf trees with
    | nil => exact .inr ⟨vanishes_of_viewsOf_eq_nil htrees hleaves, hlook⟩
    | cons view rest => exact .inl (begins_of_viewsOf_eq_cons htrees hleaves)
  have hchild : fit b.stack tree (lookaheadBefore trees lookahead) := by
    rw [hstack] at hpath ⊢
    exact guide.child hpath hprices hbears hspells hfit
  obtain ⟨e, b₁, hgrows, rfl⟩ := ih b next path _ hb hpath hfirst hbefore hgoes hfollows hchild
  have hpath₁ : Path g a p b₁.stack (symbol :: path) := hgrows.path hpath hgoes htree
  have hstack₁ : b₁.stack = (e :: entries) ++ below := by
    rw [hgrows.stack, hstack]
    rfl
  have hprices₁ : List.Forall₂ (StackEntry.Prices p.table) (e :: entries).reverse
      (done ++ [tree]) := by
    rw [List.reverse_cons]
    exact List.rel_append hprices hgrows.prices
  have hbears₁ : (e :: entries).reverse.map (fun e => e.item.tree) = done ++ [tree] := by
    rw [List.reverse_cons, List.map_append, hbears, ← hgrows.bears]
    rfl
  have hdrop₁ : (g.body r).drop (done ++ [tree]).length = symbols := by
    rw [List.length_append, ← List.drop_drop, hdrop]
    rfl
  have hassoc : (done ++ [tree]) ++ trees = done ++ tree :: trees := by
    rw [List.append_assoc]
    rfl
  have hposition₁ : b₁.position = b.position + tree.views.length := hgrows.position_eq
  have hlook₁ : (g.automaton a).Look g (p.stateOn b₁.stack) ⟨r, (done ++ [tree]).length⟩
      lookahead.terminal := by
    rw [hgrows.stack, List.length_append]
    exact .shift hlook hsymbol hgoes
  obtain ⟨entries', b', path', hgrows', hpath', hlook'⟩ := ihs b₁ r below (e :: entries)
    (done ++ [tree]) _ lookahead hgrows.ready hpath₁ hstack₁ hprices₁ hbears₁ hdrop₁
    (hassoc ▸ hspells) (hposition₁ ▸ hothers) (hposition₁ ▸ hlookahead) hlook₁ (hassoc ▸ hfit)
  exact ⟨_, b', path', hgrows.trans hgrows', hpath', hlook'⟩

include guide hg hc hviews in
/-- A guide leads a ready branch to one with the tree that comes next on top of its stack. -/
theorem tree_runs {symbol : Symbol} {tree : ParseTree τ}
    (htree : Spells g p.operators symbol tree) :
    TreeRuns g a p fit tokens views symbol tree := by
  refine @Spells.rec τ _ g p.operators
    (fun symbol tree _ => TreeRuns g a p fit tokens views symbol tree)
    (fun symbols trees _ => ForestRuns g a p fit tokens views symbols trees)
    ?_ ?_ ?_ ?_ symbol tree htree
  · intro token reading position _
    exact guide.leaf_runs hviews token reading position
  · intro r rule children hrule hchildren ih
    exact guide.node_runs hg hc hviews hrule hchildren ih
  · intro b r below entries done path lookahead hb hpath _ _ _ hdrop _ _ _ hlook _
    have hend : done.length = (g.body r).length := by
      obtain ⟨hhas, -⟩ := hg.justified_of_look hlook
      exact hg.dot_of_complete hhas (List.getElem?_eq_none_iff.mpr (List.drop_eq_nil_iff.mp hdrop))
    rw [← hend]
    exact ⟨[], b, path, .refl hb, hpath, hlook⟩
  · intro symbol tree symbols trees htree htrees ih ihs
    exact guide.cons_runs hg htree htrees ih ihs

include guide hg hp hc hviews in
/-- A guide leads some run to accept an input with any derivation tree that it fits. -/
theorem accepts {tree : ParseTree τ} (htree : Spells g p.operators (.nonterminal g.start) tree)
    (hleaves : tree.views = views) (hfit : fit [] tree .inputEnd) :
    ∃ b, Search.Reaches (Branch.next p tokens) .start b ∧ b.result? p = some tree := by
  have hinitial : p.stateOn Branch.start.stack = initialState := hp.table.initial
  have hnext : (Item.mk acceptRule 0).next? g = some (.nonterminal g.start) :=
    hg.wellFormed.next?_start
  obtain ⟨next, hgoes⟩ := hg.exists_goes hg.has_start hnext
  rw [← hinitial] at hgoes
  have hend : Lookahead.inputEnd = lookaheadAt views (0 + tree.views.length) := by
    rw [hleaves, lookaheadAt, Nat.zero_add, List.getElem?_length]
  have hfollows : ∀ n, Symbol.nonterminal g.start = .nonterminal n →
      (g.automaton a).Follows g (p.stateOn Branch.start.stack) n endOfInput := by
    rintro n heq
    obtain rfl := Symbol.nonterminal.inj heq
    rw [hinitial]
    exact hg.follows_start
  have hbegin : Branch.start.Ready views := ⟨rfl, .inl rfl⟩
  obtain ⟨e, b, hgrows, rfl⟩ := guide.tree_runs hg hc hviews htree .start next [] .inputEnd hbegin
    .nil (hleaves ▸ List.prefix_rfl) hend hgoes hfollows hfit
  have hpath : Path g a p b.stack [.nonterminal g.start] := hgrows.path .nil hgoes htree
  have hhas : (g.automaton a).Has (p.stateOn b.stack) ⟨acceptRule, (g.body acceptRule).length⟩ := by
    rw [hinitial] at hgoes
    obtain ⟨s, hs, hkernel⟩ := hg.has_advance hg.has_start hnext hgoes
    rw [hgrows.stack, Grammar.body_eq hg.wellFormed.accept]
    exact ⟨s, hs, Grammar.Built.mem_items_of_mem_kernel hkernel⟩
  have haction := guide.accept hpath hhas
  have hat : lookaheadAt views b.position = .inputEnd := by
    rw [hgrows.position_eq]
    exact hend.symm
  have hlook := hgrows.ready.look hviews (by rw [hat, Lookahead.terminal, haction]; rfl)
  rw [hat] at hlook
  obtain ⟨top, below, tree', hstack, hnode⟩ := hpath.exists_node hg hp.table.initial hhas
  have htop : e = top := by
    rw [hgrows.stack] at hstack
    exact (List.cons.inj hstack).1
  obtain rfl : tree' = tree := by
    rw [← hgrows.tree_eq, htop, hnode]
    rfl
  refine ⟨_, Relation.ReflTransGen.trans hgrows.reach hlook, Branch.result?_of_accept rfl ?_ hstack
    hnode⟩
  rw [Branch.action, hgrows.ready.forced]
  exact haction

end Guide

end OperatorLALR
