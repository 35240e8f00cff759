import OperatorLALR.Proofs.Parser.Recording
import OperatorLALR.Proofs.Soundness.Safety

/-!
# The reductions that are counted

The reductions behind a stack are those of the trees on it, every tree with all its descendants, in
the order in which they were made. A parse keeps the account of them: the counters tell how many
there are, and the trail lists those that were made since the outermost pending choice point was
left. The machines behind the choice points stand to each other as each of them does to the present
machine (`Machine.Builds`), so that a return to one of them needs no account of its own. A parser
whose nodes are opaque is watched through the one that records what it does
(`reductions_accounted`).
-/

namespace OperatorLALR

variable {τ ν β ε σ : Type}

mutual

/-- The reductions that make up a tree, in the order in which they are made: those of the children,
then that of the tree itself. -/
def ParseTree.reductions : ParseTree τ → List (ParseTree τ)
  | .leaf _ _ _ => []
  | .node r children => ParseTree.reductionsOf children ++ [.node r children]

/-- The reductions that make up some trees. -/
def ParseTree.reductionsOf : List (ParseTree τ) → List (ParseTree τ)
  | [] => []
  | t :: ts => t.reductions ++ ParseTree.reductionsOf ts

end

/-- The reductions of some trees are those of each of them in turn. -/
theorem ParseTree.reductionsOf_eq (ts : List (ParseTree τ)) :
    ParseTree.reductionsOf ts = ts.flatMap ParseTree.reductions := by
  induction ts with
  | nil => rfl
  | cons t ts ih => rw [reductionsOf, ih, List.flatMap_cons]

/-- The reductions that make up the items on a stack, from the bottom to the top. -/
def stackReductions (view : ν → ParseTree τ) (stack : List (StackEntry τ ν)) :
    List (ParseTree τ) :=
  stack.reverse.flatMap fun e => (e.item.treeBy view).reductions

/-- The tree of a recorded reduction. -/
def Reduction.tree (view : ν → ParseTree τ) (r : Reduction τ ν) : ParseTree τ :=
  .node r.rule (r.handle.map fun e => e.item.treeBy view)

section Stacks

variable {view : ν → ParseTree τ}

/-- An entry on top adds its reductions at the end. -/
theorem stackReductions_cons (e : StackEntry τ ν) (stack : List (StackEntry τ ν)) :
    stackReductions view (e :: stack) =
      stackReductions view stack ++ (e.item.treeBy view).reductions := by
  rw [stackReductions, List.reverse_cons, List.flatMap_append, List.flatMap_singleton,
    ← stackReductions]

/-- Some entries on top add the reductions of the handle that they are. -/
theorem stackReductions_append (top below : List (StackEntry τ ν)) :
    stackReductions view (top ++ below) = stackReductions view below ++
      ParseTree.reductionsOf (top.reverse.map fun e => e.item.treeBy view) := by
  rw [stackReductions, List.reverse_append, List.flatMap_append, ← stackReductions,
    ParseTree.reductionsOf_eq, List.flatMap_map]

/-- A node in place of its handle adds one reduction. -/
theorem stackReductions_node {maker : NodeMaker τ ν β σ} (hview : maker.Keeps view) {r : RuleId}
    {top below : List (StackEntry τ ν)} {n : ν} {memory memory' : σ}
    (hmake : maker.reduce r (top.reverse.map StackEntry.item) memory = (.ok n, memory'))
    (next : StateId) (priority stamp : Nat) :
    stackReductions view (⟨next, .node n, priority, stamp⟩ :: below) =
      stackReductions view (top ++ below) ++
        [.node r (top.reverse.map fun e => e.item.treeBy view)] := by
  have hnode := hview r _ memory n memory' hmake
  rw [List.map_map] at hnode
  rw [stackReductions_cons, stackReductions_append, HandleItem.treeBy, hnode, ParseTree.reductions,
    List.append_assoc]
  rfl

end Stacks

/-- A machine has come from another by some reductions, which its trail lists: the reductions behind
its stack are those of the other and then one for each new entry of the trail, the oldest first. -/
def Machine.Builds (view : ν → ParseTree τ) (m s : Machine τ ν ε σ) : Prop :=
  ∃ added, m.trail = added ++ s.trail ∧
    stackReductions view m.stack =
      stackReductions view s.stack ++ added.reverse.map (Reduction.tree view)

namespace Machine.Builds

variable {view : ν → ParseTree τ} {m m' s : Machine τ ν ε σ}

/-- Where stack and trail are the same, nothing has been added. -/
theorem of_eq (hstack : m.stack = s.stack) (htrail : m.trail = s.trail) : m.Builds view s :=
  ⟨[], htrail, by rw [hstack, List.reverse_nil, List.map_nil, List.append_nil]⟩

/-- Only stack and trail matter. -/
theorem congr (h : m.Builds view s) (hstack : m'.stack = m.stack) (htrail : m'.trail = m.trail) :
    m'.Builds view s := by
  unfold Builds
  rw [hstack, htrail]
  exact h

/-- The entries that have been added to the trail tell how many reductions have been. -/
theorem length_eq (h : m.Builds view s) :
    (stackReductions view m.stack).length =
      (stackReductions view s.stack).length + (m.trail.length - s.trail.length) := by
  obtain ⟨added, htrail, hstack⟩ := h
  rw [hstack, htrail, List.length_append, List.length_append, List.length_map, List.length_reverse,
    Nat.add_sub_cancel]

end Machine.Builds

namespace Rewindable

variable {stack : List (StackEntry τ ν)} {trail : List (Reduction τ ν)}
  {choices : List (ChoicePoint τ)} {saved saved' : List (Machine τ ν ε σ)}

/-- There is one machine behind each choice point. -/
theorem length_eq (h : Rewindable stack trail choices saved) : choices.length = saved.length := by
  induction h with
  | nil => rfl
  | cons _ _ ih => rw [List.length_cons, List.length_cons, ih]

/-- The machine behind the outermost choice point has no trail. -/
theorem oldest_trail {s : Machine τ ν ε σ} (h : Rewindable stack trail choices saved)
    (hs : saved.getLast? = some s) : s.trail = [] := by
  induction h with
  | nil => cases hs
  | @cons _ _ _ first earlier _ h ih =>
    cases earlier with
    | nil =>
      obtain rfl := Option.some.inj hs
      exact h.trail_eq_nil (List.length_eq_zero_iff.mp h.length_eq)
    | cons second earlier => exact ih (by rwa [List.getLast?_cons_cons] at hs)

/-- What is found behind the choice points is determined by the stack, the trail and the times. -/
theorem stacks_eq (h : Rewindable stack trail choices saved)
    (h' : Rewindable stack trail choices saved') :
    List.Forall₂ (fun s s' => s.stack = s'.stack ∧ s.trail = s'.trail) saved saved' := by
  induction h generalizing saved' with
  | nil => exact List.forall₂_nil_left_iff.mpr (List.length_eq_zero_iff.mp h'.length_eq.symm)
  | cons hundo _ ih =>
    obtain ⟨s, earlier, rfl, hchoices, hundo', hs⟩ := h'.innermost
    obtain ⟨hstack, htrail⟩ := Prod.mk.inj (hundo.undoSince_eq.symm.trans hundo'.undoSince_eq)
    obtain ⟨htrail, -⟩ := Prod.mk.inj htrail
    rw [← hstack, ← htrail, ← hchoices] at hs
    exact .cons ⟨hstack, htrail⟩ (ih hs)

end Rewindable

/-- The counters agree with the reductions behind the stack, and what was done since each choice
point was left stands in the trail. -/
structure Accounts (view : ν → ParseTree τ) (m : Machine τ ν ε σ) (saved : List (Machine τ ν ε σ)) :
    Prop where
  timely : Timely m saved
  builds : (m :: saved).Pairwise (Machine.Builds view)
  reductions : m.counts.reductions =
    m.counts.undoneReductions + (stackReductions view m.stack).length
  choicePoints : m.counts.choicePoints ≤ m.counts.backtracks + m.choices.length

namespace Accounts

variable {view : ν → ParseTree τ} {p : Parser τ ν β σ} {m m₁ m' : Machine τ ν ε σ}
  {saved : List (Machine τ ν ε σ)}

/-- A parse begins without reductions and choice points. -/
theorem start (source : List (Except ε τ)) (memory : σ) :
    Accounts view (.start source memory : Machine τ ν ε σ) [] where
  timely := .start source memory
  builds := List.pairwise_singleton _ _
  reductions := rfl
  choicePoints := Nat.le_refl 0

/-- Only stack, trail, choice points, clock and counters matter. -/
theorem congr (h : Accounts view m saved) (hstack : m'.stack = m.stack)
    (htrail : m'.trail = m.trail) (hchoices : m'.choices = m.choices) (hclock : m'.clock = m.clock)
    (hcounts : m'.counts = m.counts) : Accounts view m' saved where
  timely := h.timely.congr hstack htrail hchoices hclock
  builds := by
    obtain ⟨hnow, hbefore⟩ := List.pairwise_cons.mp h.builds
    exact List.pairwise_cons.mpr ⟨fun s hs => (hnow s hs).congr hstack htrail, hbefore⟩
  reductions := by
    rw [hcounts, hstack]
    exact h.reductions
  choicePoints := by
    rw [hcounts, hchoices]
    exact h.choicePoints

/-- Reading a token keeps the account. -/
theorem readToken {r : Except ε (Option τ)} (h : Accounts view m saved)
    (hread : Parser.readToken m = (r, m')) : Accounts view m' saved := by
  obtain ⟨pulled, source, exhausted, rfl⟩ := Parser.readToken_eq hread
  exact h.congr rfl rfl rfl rfl rfl

/-- A new choice point is counted. -/
theorem leave (h : Accounts view m saved) {lookahead : Lookahead τ} {ways : OpenWays}
    (hways : ways.isEmpty = false) (hl : p.leaveChoice m lookahead ways = .ok m') :
    Accounts view m' (m :: saved) := by
  have htimely := h.timely.leave hways hl
  obtain ⟨depth, rfl⟩ := Parser.leaveChoice_ok hl
  obtain ⟨hnow, -⟩ := List.pairwise_cons.mp h.builds
  refine ⟨htimely, List.pairwise_cons.mpr ⟨fun s hs => ?_, h.builds⟩, h.reductions, ?_⟩
  · rcases List.mem_cons.mp hs with rfl | hs
    · exact .of_eq rfl rfl
    · exact (hnow s hs).congr rfl rfl
  · have hcount := h.choicePoints
    dsimp only
    rw [List.length_cons]
    omega

/-- A token has no reductions. -/
theorem shift (h : Accounts view m saved) (next : StateId) (token : TokenView τ) :
    Accounts view (Parser.shift m next token) saved := by
  have hstack : stackReductions view (Parser.shift m next token).stack =
      stackReductions view m.stack := by
    rw [Parser.shift, stackReductions_cons]
    exact List.append_nil _
  obtain ⟨hnow, hbefore⟩ := List.pairwise_cons.mp h.builds
  refine ⟨h.timely.shift next token, List.pairwise_cons.mpr ⟨fun s hs => ?_, hbefore⟩, ?_,
    h.choicePoints⟩
  · obtain ⟨added, htrail, hadded⟩ := hnow s hs
    exact ⟨added, htrail, hstack.trans hadded⟩
  · rw [hstack]
    exact h.reductions

/-- A reduction is counted, and recorded if a choice is pending. -/
theorem reduce (hview : p.maker.Keeps view) (h : Accounts view m saved) {r : RuleId}
    (hr : p.reduce m r = .done m') : Accounts view m' saved := by
  have htimely := h.timely.reduce hr
  obtain ⟨shape, priority, node, memory, next, -, -, -, hmake, -, rfl⟩ := Parser.reduce_done hr
  have hstack : stackReductions view (⟨next, .node node, priority, m.clock⟩ ::
      m.stack.drop shape.length) = _ := stackReductions_node hview hmake next priority m.clock
  rw [List.take_append_drop] at hstack
  obtain ⟨hnow, hbefore⟩ := List.pairwise_cons.mp h.builds
  refine ⟨htimely, List.pairwise_cons.mpr ⟨fun s hs => ?_, hbefore⟩, ?_, h.choicePoints⟩
  · obtain ⟨added, htrail, hadded⟩ := hnow s hs
    -- the trail is kept only while a choice is pending, and one is where a machine stands behind it
    have hpending : m.choices.isEmpty = false := by
      rw [List.isEmpty_eq_false_iff, ← List.length_pos_iff, h.timely.rewindable.length_eq]
      exact List.length_pos_of_mem hs
    refine ⟨⟨m.clock, r, (m.stack.take shape.length).reverse⟩ :: added, ?_, ?_⟩
    · simp only [Parser.pushNode, hpending, Bool.false_eq_true, if_false, htrail, List.cons_append]
    · rw [Parser.pushNode, hstack, hadded, List.reverse_cons, List.map_append, List.append_assoc]
      rfl
  · have hcount := h.reductions
    rw [Parser.pushNode, hstack, List.length_append, List.length_singleton]
    dsimp only
    omega

/-- What is undone on returning to a choice point is taken from the account. -/
theorem back {deadEnd : DeadEnd} (h : Accounts view m saved)
    (hback : Machine.backtrack? { m with farthest := some deadEnd } = some m') :
    ∃ saved', Accounts view m' saved' := by
  have htimely : Timely { m with farthest := some deadEnd } saved := h.timely.congr rfl rfl rfl rfl
  obtain ⟨c, s, earlier, way, rest, hchoices, rfl, hpop, -, rfl, htimely'⟩ :=
    htimely.backtrack hback
  obtain ⟨hnow, hbefore⟩ := List.pairwise_cons.mp h.builds
  obtain ⟨houter, hearlier⟩ := List.pairwise_cons.mp hbefore
  have hlength := (hnow s List.mem_cons_self).length_eq
  have hreductions := h.reductions
  have hchoicePoints := h.choicePoints
  have hpending : m.choices.length = s.choices.length + 1 := by
    have hcons : m.choices = c :: s.choices := hchoices
    rw [hcons, List.length_cons]
  refine ⟨_, htimely', List.pairwise_cons.mpr ⟨?_, ?_⟩, ?_, ?_⟩
  · intro s' hs'
    -- the choice point is gone with its last way, and is else left by the machine as it is now
    cases hrest : rest.isEmpty with
    | true =>
      rw [hrest, if_pos rfl] at hs'
      exact (houter s' hs').congr rfl rfl
    | false =>
      rw [hrest, if_neg Bool.false_ne_true] at hs'
      rcases List.mem_cons.mp hs' with rfl | hs'
      · exact .of_eq rfl rfl
      · exact (houter s' hs').congr rfl rfl
  · cases rest.isEmpty with
    | true => exact hearlier
    | false => exact hbefore
  · dsimp only [Machine.backAt]
    omega
  · dsimp only [Machine.backAt]
    cases rest.isEmpty with
    | true =>
      rw [if_pos rfl]
      omega
    | false =>
      rw [if_neg Bool.false_ne_true, List.length_cons]
      omega

/-- A move keeps the account. -/
theorem moved {lookahead : Lookahead τ} {a : Action} (hview : p.maker.Keeps view)
    (h : Accounts view m saved) (hmoved : Parser.Moved p lookahead m a m') :
    ∃ saved', Accounts view m' saved' := by
  cases hmoved with
  | shift => exact ⟨saved, h.shift _ _⟩
  | reduce hr => exact ⟨saved, h.reduce hview hr⟩
  | only => exact ⟨saved, h.congr rfl rfl rfl rfl rfl⟩
  | branch _ hleave => exact ⟨_, (h.leave rfl hleave).congr rfl rfl rfl rfl rfl⟩
  | back _ hback => exact h.back hback

variable [Token τ]

/-- A look keeps the account. -/
theorem looked {lookahead : Lookahead τ} (h : Accounts view m saved)
    (hlooked : Parser.Looked p m lookahead m₁) : ∃ saved', Accounts view m₁ saved' := by
  cases hlooked with
  | known => exact ⟨saved, h⟩
  | ended _ hread | single _ hread =>
    exact ⟨saved, (h.readToken hread).congr rfl rfl rfl rfl rfl⟩
  | several _ hread _ hleave =>
    exact ⟨_, ((h.readToken hread).leave rfl hleave).congr rfl rfl rfl rfl rfl⟩

/-- A step keeps the account. -/
theorem step (hview : p.maker.Keeps view) (h : Accounts view m saved)
    (hstep : p.step m = .next m') : ∃ saved', Accounts view m' saved' := by
  rcases Parser.step_next hstep with ⟨lookahead, m₁, -, hlooked, hmoved⟩ | ⟨b, d, hlook, hback⟩
  · obtain ⟨saved₁, h₁⟩ := h.looked hlooked
    have hfree : Accounts view { m₁ with forced := none } saved₁ := h₁.congr rfl rfl rfl rfl rfl
    exact hfree.moved hview hmoved
  · obtain ⟨-, token, hread, -⟩ := Parser.look_refused hlook
    exact (h.readToken hread).back hback

/-- Every machine that a parse reaches keeps the account. -/
theorem of_reaches {source : List (Except ε τ)} {memory : σ} (hview : p.maker.Keeps view)
    (hreach : p.Reaches (.start source memory) m) : ∃ saved, Accounts view m saved := by
  induction hreach with
  | refl => exact ⟨[], .start source memory⟩
  | tail _ hstep ih =>
    obtain ⟨saved, h⟩ := ih
    exact h.step hview hstep

end Accounts

/-- In a run of a parser, a machine's counters and its trail account for the reductions that make up
its stack. -/
structure Parser.Accounted [Token τ] (p : Parser τ ν β σ) (view : ν → ParseTree τ)
    (first m : Machine τ ν ε σ) : Prop where
  /-- The reductions that have not been undone are those behind the stack. -/
  reductions : m.counts.reductions =
    m.counts.undoneReductions + (stackReductions view m.stack).length
  /-- Nothing is recorded while no choice point is pending. -/
  unrecorded : m.choices = [] → m.trail = []
  /-- Behind the stack are the reductions that were there when the outermost pending choice point
  was left, and then those in the trail, the oldest first. -/
  recorded : ∀ c, m.choices.getLast? = some c → ∃ s, p.Left first m c s ∧
    stackReductions view m.stack =
      stackReductions view s.stack ++ m.trail.reverse.map (Reduction.tree view)
  /-- Choice points are no longer pending only where the parser has gone back to them. -/
  choicePoints : m.counts.choicePoints ≤ m.counts.backtracks + m.choices.length

namespace Parser

variable [Token τ] {p : Parser τ ν β σ} {view : ν → ParseTree τ} {m last : Machine τ ν ε σ}
  {source : List (Except ε τ)} {memory : σ}

/-- Where nodes can be read as trees, every machine that a parse reaches accounts for its stack. -/
theorem accounted_of_reaches (hview : p.maker.Keeps view)
    (hreach : p.Reaches (.start source memory) m) :
    p.Accounted view (.start source memory) m := by
  obtain ⟨saved, h⟩ := Accounts.of_reaches hview hreach
  obtain ⟨left, htraced⟩ := Traced.of_reaches hreach
  refine ⟨h.reductions, h.timely.rewindable.trail_eq_nil, fun c hc => ?_, h.choicePoints⟩
  have hsame := h.timely.rewindable.stacks_eq htraced.timely.rewindable
  rw [List.getLast?_eq_getElem?] at hc
  obtain ⟨s, hs, hleft⟩ := exists_getElem?_right htraced.left hc
  obtain ⟨s', hs', hstack, -⟩ := exists_getElem?_left hsame hs
  rw [h.timely.rewindable.length_eq, ← List.getLast?_eq_getElem?] at hs'
  have holdest := h.timely.rewindable.oldest_trail hs'
  obtain ⟨hnow, -⟩ := List.pairwise_cons.mp h.builds
  obtain ⟨added, htrail, hadded⟩ := hnow s' (List.mem_of_getLast? hs')
  rw [holdest, List.append_nil] at htrail
  rw [← htrail] at hadded
  exact ⟨s, hleft, hstack ▸ hadded⟩

/-- A look counts no reductions. -/
theorem Looked.reductions_eq {lookahead : Lookahead τ} {m₁ : Machine τ ν ε σ}
    (h : Looked p m lookahead m₁) :
    m₁.counts.reductions = m.counts.reductions ∧
      m₁.counts.undoneReductions = m.counts.undoneReductions := by
  cases h with
  | known => exact ⟨rfl, rfl⟩
  | ended _ hread | single _ hread =>
    obtain ⟨pulled, source, exhausted, rfl⟩ := readToken_eq hread
    exact ⟨rfl, rfl⟩
  | several _ hread _ hleave =>
    obtain ⟨depth, rfl⟩ := leaveChoice_ok hleave
    obtain ⟨pulled, source, exhausted, rfl⟩ := readToken_eq hread
    exact ⟨rfl, rfl⟩

omit [Token τ] in
/-- Acceptance leaves the counters of reductions as they are. -/
theorem reductions_of_accept {r : Except (ParseError ε β) ν} (h : accept m = .halt r last) :
    last.counts.reductions = m.counts.reductions ∧
      last.counts.undoneReductions = m.counts.undoneReductions := by
  unfold accept at h
  dsimp only at h
  split at h
  · obtain ⟨-, rfl⟩ := StepResult.halt.inj h
    exact ⟨rfl, rfl⟩
  · split at h <;>
    · obtain ⟨-, rfl⟩ := StepResult.halt.inj h
      exact ⟨rfl, rfl⟩

/-- A step that ends the parse with a node accepts the input after a look. -/
theorem exists_accept {node : ν} (h : p.step m = .halt (.ok node) last) :
    ∃ lookahead m₁, Looked p m lookahead m₁ ∧
      accept { m₁ with forced := none } = (.halt (.ok node) last : StepResult τ ν ε β σ) := by
  unfold step at h
  dsimp only at h
  split at h
  · cases h
  · obtain ⟨-, d, hend⟩ := retreat_halt h
    cases hend
  · next m₁ hlook =>
    obtain ⟨lookahead, -, hlooked⟩ := looked_of_done hlook
    have hperformed : Performed p (m₁.lookahead.getD .inputEnd) { m₁ with forced := none } _
        (.halt (.ok node) last) := h ▸ performed (p.stateOn m.stack) _
    cases hperformed with
    | accepted haction =>
      rw [haction] at h
      exact ⟨lookahead, m₁, hlooked, h⟩

/-- A step that ends the parse with a node counts no reductions. -/
theorem reductions_of_accepted {node : ν} (h : p.step m = .halt (.ok node) last) :
    last.counts.reductions = m.counts.reductions ∧
      last.counts.undoneReductions = m.counts.undoneReductions := by
  obtain ⟨lookahead, m₁, hlooked, haccept⟩ := exists_accept h
  obtain ⟨hmade, hundone⟩ := reductions_of_accept haccept
  exact ⟨hmade.trans hlooked.reductions_eq.1, hundone.trans hlooked.reductions_eq.2⟩

/-- A machine that accepts over the table of a grammar has only the node on its stack. -/
theorem stack_of_accepted {g : Grammar} {a : Analysis} (hg : g.Built a)
    (hp : Serves g a p.overTrees)
    (htokens : ∀ token ∈ given source, Token.terminal token ≠ endOfInput) {node : ν}
    (hreach : p.Reaches (.start source memory) m) (hstep : p.step m = .halt (.ok node) last) :
    (∃ top, m.stack = [top] ∧ top.item = .node node) ∧
      ∃ tree, Shows p.maker (.node node) tree := by
  obtain ⟨saved, b, rest, hsearch, hfollows⟩ := Follows.of_source hreach
  obtain ⟨b₁, rest₁, tree, hsearch₁, hstacks, hresult, hshows⟩ := hfollows.accepted hstep
  have hsound := (hsearch.trans hsearch₁).sound hg hp b₁ List.mem_cons_self
  obtain ⟨-, -, e, hstack, hitem⟩ := hsound.accept hg hp htokens hresult
  rw [hstack] at hstacks
  obtain ⟨node', hitems, -⟩ := items_of_alike_singleton hstacks hitem
  obtain ⟨-, -, top, below, -, -, htop, hnode⟩ := step_accepted hstep
  rw [htop, List.map_cons] at hitems
  obtain rfl : below = [] := List.map_eq_nil_iff.mp (List.cons.inj hitems).2
  exact ⟨⟨top, htop, hnode⟩, tree, hshows⟩

end Parser

/-- The account of reductions. Whatever table, operators, tokens and maker of nodes a parse has,
each of its machines is seen through a machine that records the trees of its nodes, and also by any
other reading of nodes as trees: the reductions that have not been undone are those that make up the
stack, the trail has one entry for each of them that was made since the outermost pending choice
point was left and none if no choice point is pending, and no more choice points have gone than
there were returns. Over the table of a grammar, the reductions of an accepted parse that have not
been undone are those of the tree of its node. -/
theorem reductions_accounted [Token τ] {p : Parser τ ν β σ} {source : List (Except ε τ)}
    {memory : σ} :
    (∀ m, p.Reaches (.start source memory) m →
      (∃ m', p.recording.Reaches (.start source memory) m' ∧ m'.mapNodes Prod.fst = m ∧
        p.recording.Accounted Prod.snd (.start source memory) m') ∧
      ∀ view, p.maker.Keeps view → p.Accounted view (.start source memory) m) ∧
    ∀ (g : Grammar) (a : Analysis) (options : BuildOptions) (table : GeneratedTable)
      (maker : NodeMaker τ ν β σ) (calls : List OperatorCall) (limit : Option Nat),
      g.IsDefined → g.analyse = .ok a → (g.kernels a).items.size < stateNumbers →
      (g.build options).2 = .ok table →
      p = (Parser.ofTable table.toParseTable maker limit).defineAll calls →
      (∀ token ∈ given source, Token.terminal token ≠ endOfInput) →
      ∀ (n : Nat) (node : ν) (last : Machine τ ν ε σ),
        p.parse n source memory = some (.ok node, last) →
        ∃ tree last', p.recording.parse n source memory = some (.ok (node, tree), last') ∧
          Shows p.maker (.node node) tree ∧ (∀ view, p.maker.Keeps view → view node = tree) ∧
          last.counts.reductions = last.counts.undoneReductions + tree.reductions.length := by
  have hkeeps : p.recording.maker.Keeps Prod.snd := p.maker.recording_keeps
  constructor
  · intro m hreach
    obtain ⟨m', hreach', hm⟩ := hreach.exists_recording
    exact ⟨⟨m', hreach', hm, Parser.accounted_of_reaches hkeeps hreach'⟩,
      fun view hview => Parser.accounted_of_reaches hview hreach⟩
  · intro g a options table maker calls limit hg ha hstates hbuild hp htokens n node last hparse
    have h : g.Built a := ⟨hg.wellFormed, ha, hstates⟩
    obtain ⟨hserves, -⟩ := h.of_defineAll hbuild hp
    obtain ⟨tree, last', hparse', rfl⟩ := Parser.exists_parse_recording hparse
    obtain ⟨m, hreach, hstep⟩ := Parser.run_eq_some hparse'
    obtain ⟨⟨top, htop, hitem⟩, tree', hshows⟩ :=
      Parser.stack_of_accepted (p := p.recording) h hserves htokens hreach hstep
    obtain rfl : tree = tree' := hshows.treeBy_eq hkeeps
    have hshows' : Shows p.maker (.node node) tree := hshows.mapNodes p.maker.recording_over
    refine ⟨tree, last', hparse', hshows', fun view hview => hshows'.treeBy_eq hview, ?_⟩
    obtain ⟨hmade, hundone⟩ := Parser.reductions_of_accepted hstep
    have hcount := (Parser.accounted_of_reaches hkeeps hreach).reductions
    have hstack : stackReductions Prod.snd m.stack = tree.reductions := by
      rw [htop, stackReductions_cons, hitem]
      rfl
    rw [hstack, ← hmade, ← hundone] at hcount
    exact hcount

open OperatorLALR.Parser in
/-- A parser that has guessed wrongly has one reduction on its stack and one in its trail. The five
reductions of a sum of three words, none of which was undone, are those of its tree. -/
theorem reductions_accounted_sum :
    (wrongGuess.counts.reductions = 1 ∧ ∃ m',
      (Parser.ofTable guessingTable ruleMaker none).recording.Reaches
        (.start [.ok ⟨1⟩, .ok ⟨2⟩] ()) m' ∧ m'.mapNodes Prod.fst = wrongGuess ∧
      (Parser.ofTable guessingTable ruleMaker none).recording.Accounted Prod.snd
        (.start [.ok ⟨1⟩, .ok ⟨2⟩] ()) m') ∧
    ∃ tree, ∃ last : Machine (TerminalId × String) (ParseTree (TerminalId × String)) Empty Unit,
      sumParser.parse 30 (sumTokens.map .ok) () = some (.ok tree, last) ∧
      last.counts.reductions = 5 ∧
      last.counts.reductions = last.counts.undoneReductions + tree.reductions.length := by
  constructor
  · have hreach : (Parser.ofTable guessingTable ruleMaker none).Reaches
        (.start [.ok ⟨1⟩, .ok ⟨2⟩] ()) wrongGuess := .tail (.tail (.tail .refl rfl) rfl) rfl
    exact ⟨rfl, (reductions_accounted.1 wrongGuess hreach).1⟩
  · have hends : ((sumParser.parse (ε := Empty) 30 (sumTokens.map .ok) ()).any
        fun result => result.1.isOk && result.2.counts.reductions == 5) = true := by
      decide +kernel
    obtain ⟨⟨outcome, last⟩, hparse, hok⟩ := (Option.any_eq_true _ _).mp hends
    obtain ⟨hok, hfive⟩ := Bool.and_eq_true_iff.mp hok
    cases outcome with
    | error e => cases hok
    | ok tree =>
      have hkeeps : sumParser.maker.Keeps id := by
        rw [sumParser, Parser.defineAll_eq]
        exact treeMaker_keeps
      obtain ⟨tree', last', -, -, hview, hcount⟩ := reductions_accounted.2 infixOperators
        infixOperatorsAnalysis _ infixOperatorsTable treeMaker [⟨"+", "yfx", 500, ⟨1⟩⟩] none
        infixOperators_isDefined (by decide +kernel) (by decide +kernel) infixOperators_build rfl
        (by rw [given_map_ok]; decide) 30 tree last hparse
      obtain rfl : tree = tree' := hview id hkeeps
      exact ⟨tree, last, hparse, beq_iff_eq.mp hfive, hcount⟩

end OperatorLALR
