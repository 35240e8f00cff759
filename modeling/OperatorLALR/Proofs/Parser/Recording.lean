import OperatorLALR.Proofs.Soundness.Priorities

/-!
# Parsers that record what they do

What the nodes of a parse are has no influence on the search: if each node of one maker stands for a
node of another, then each step of a parser with the first maker stands for a step of the same
parser with the second (`step_mapNodes`), up to the end of the parse (`parse_mapNodes`). So any
parser is the image of one that keeps with each node the tree of the reductions that have led to it
(`Parser.recording`), and what holds of parsers whose nodes can be read as trees tells something
about all parsers.
-/

namespace OperatorLALR

variable {τ ν ω β ε σ : Type}

/-- The part of a handle with another node in place of a node. -/
def HandleItem.mapNodes (f : ω → ν) : HandleItem τ ω → HandleItem τ ν
  | .token view => .token view
  | .node n => .node (f n)

/-- The entry with another node in place of a node. -/
def StackEntry.mapNodes (f : ω → ν) (e : StackEntry τ ω) : StackEntry τ ν :=
  ⟨e.state, e.item.mapNodes f, e.priority, e.stamp⟩

/-- The record with other nodes in its handle. -/
def Reduction.mapNodes (f : ω → ν) (r : Reduction τ ω) : Reduction τ ν :=
  ⟨r.stamp, r.rule, r.handle.map (StackEntry.mapNodes f)⟩

/-- The machine with other nodes on its stack and its trail. -/
def Machine.mapNodes (f : ω → ν) (m : Machine τ ω ε σ) : Machine τ ν ε σ where
  stack := m.stack.map (StackEntry.mapNodes f)
  choices := m.choices
  trail := m.trail.map (Reduction.mapNodes f)
  clock := m.clock
  pulled := m.pulled
  source := m.source
  exhausted := m.exhausted
  position := m.position
  lookahead := m.lookahead
  forced := m.forced
  farthest := m.farthest
  counts := m.counts
  memory := m.memory

/-- What a part of a step gives, with other nodes. -/
def Attempt.mapNodes (f : ω → ν) : Attempt τ ω ε β σ → Attempt τ ν ε β σ
  | .done m => .done (m.mapNodes f)
  | .refused m => .refused (m.mapNodes f)
  | .failed e m => .failed e (m.mapNodes f)

/-- What a step gives, with other nodes. -/
def StepResult.mapNodes (f : ω → ν) : StepResult τ ω ε β σ → StepResult τ ν ε β σ
  | .next m => .next (m.mapNodes f)
  | .halt result m => .halt (result.map f) (m.mapNodes f)

/-- The nodes of one maker stand for those of another: both do the same with their memories, and
fail alike. -/
def NodeMaker.Over (maker : NodeMaker τ ω β σ) (f : ω → ν) (base : NodeMaker τ ν β σ) : Prop :=
  ∀ r items memory, base.reduce r (items.map (HandleItem.mapNodes f)) memory =
    ((maker.reduce r items memory).1.map f, (maker.reduce r items memory).2)

/-- The parser with another maker of nodes. -/
def Parser.withMaker (p : Parser τ ν β σ) (maker : NodeMaker τ ω β σ) : Parser τ ω β σ :=
  ⟨p.table, maker, p.maxChoiceDepth, p.operators⟩

/-- The maker that keeps with each node the tree of the reductions that have led to it. -/
def NodeMaker.recording (maker : NodeMaker τ ν β σ) : NodeMaker τ (ν × ParseTree τ) β σ where
  reduce r items memory :=
    let made := maker.reduce r (items.map (HandleItem.mapNodes Prod.fst)) memory
    (made.1.map fun n => (n, .node r (items.map (HandleItem.treeBy Prod.snd))), made.2)

/-- The parser that keeps with each node the tree of the reductions that have led to it. -/
def Parser.recording (p : Parser τ ν β σ) : Parser τ (ν × ParseTree τ) β σ :=
  p.withMaker p.maker.recording

/-- The nodes of a recording maker stand for those of the maker. -/
theorem NodeMaker.recording_over (maker : NodeMaker τ ν β σ) :
    maker.recording.Over Prod.fst maker := by
  intro r items memory
  refine Prod.ext ?_ rfl
  dsimp only [recording]
  cases (maker.reduce r (items.map (HandleItem.mapNodes Prod.fst)) memory).1 <;> rfl

/-- The nodes of a recording maker can be read as trees. -/
theorem NodeMaker.recording_keeps (maker : NodeMaker τ ν β σ) :
    maker.recording.Keeps Prod.snd := by
  intro r items memory n memory' hmake
  obtain ⟨hmade, -⟩ := Prod.mk.inj hmake
  obtain ⟨n₀, -, rfl⟩ := map_eq_ok_iff.mp hmade
  rfl

/-- A node that is made of a tree stands for one that is made of the same tree. -/
theorem Shows.mapNodes {maker : NodeMaker τ ω β σ} {f : ω → ν} {base : NodeMaker τ ν β σ}
    (hover : maker.Over f base) {item : HandleItem τ ω} {tree : ParseTree τ}
    (h : Shows maker item tree) : Shows base (item.mapNodes f) tree := by
  refine @Shows.rec τ ω β σ maker (fun item tree _ => Shows base (item.mapNodes f) tree)
    (fun items trees _ => List.Forall₂ (Shows base) (items.map (HandleItem.mapNodes f)) trees)
    ?_ ?_ .nil ?_ item tree h
  · exact fun view => .token view
  · intro r items children n memory memory' hmake _ ih
    have hbase := hover r items memory
    rw [hmake] at hbase
    exact .node hbase ih
  · exact fun _ _ hitem hitems => .cons hitem hitems

section Stacks

variable {f : ω → ν}

/-- A node stands for a node. -/
@[simp] theorem HandleItem.isNode_mapNodes (item : HandleItem τ ω) :
    (item.mapNodes f).isNode = item.isNode := by
  cases item <;> rfl

/-- Tokens are read as the same operators. -/
@[simp] theorem HandleItem.operator?_mapNodes (item : HandleItem τ ω) :
    (item.mapNodes f).operator? = item.operator? := by
  cases item <;> rfl

/-- The same operators stand in a handle. -/
theorem operatorAt_mapNodes (handle : List (StackEntry τ ω)) (i : Nat) :
    (((handle.map (StackEntry.mapNodes f))[i]?).bind fun e => e.item.operator?) =
      (handle[i]?).bind fun e => e.item.operator? := by
  rw [List.getElem?_map]
  cases handle[i]? with
  | none => rfl
  | some e => exact e.item.operator?_mapNodes

/-- The same entries are taken away as tokens. -/
theorem unshift_mapNodes (stamp : Nat) (stack : List (StackEntry τ ω)) :
    unshift stamp (stack.map (StackEntry.mapNodes f)) =
      (unshift stamp stack).map (StackEntry.mapNodes f) := by
  induction stack with
  | nil => rfl
  | cons top below ih =>
    have htop : (top.mapNodes f).item.isNode = top.item.isNode := top.item.isNode_mapNodes
    rw [List.map_cons, unshift, unshift, htop, ih]
    by_cases hgone : stamp ≤ top.stamp ∧ top.item.isNode = false
    · rw [if_pos hgone, if_pos (show stamp ≤ (top.mapNodes f).stamp ∧ _ from hgone)]
    · rw [if_neg hgone, if_neg (show ¬ (stamp ≤ (top.mapNodes f).stamp ∧ _) from hgone)]
      rfl

/-- The same reductions are undone. -/
theorem undoSince_mapNodes (stamp : Nat) (stack : List (StackEntry τ ω))
    (trail : List (Reduction τ ω)) :
    undoSince stamp (stack.map (StackEntry.mapNodes f)) (trail.map (Reduction.mapNodes f)) =
      ((undoSince stamp stack trail).1.map (StackEntry.mapNodes f),
        (undoSince stamp stack trail).2.1.map (Reduction.mapNodes f),
        (undoSince stamp stack trail).2.2) := by
  induction trail generalizing stack with
  | nil =>
    rw [List.map_nil, undoSince, undoSince, unshift_mapNodes]
    cases unshift stamp stack with
    | nil => rfl
    | cons top below =>
      rw [List.map_cons]
      dsimp only
      by_cases hstamp : stamp ≤ top.stamp
      · rw [if_pos hstamp, if_pos (show stamp ≤ (top.mapNodes f).stamp from hstamp)]
        rfl
      · rw [if_neg hstamp, if_neg (show ¬ stamp ≤ (top.mapNodes f).stamp from hstamp)]
        rfl
  | cons last trail ih =>
    rw [List.map_cons, undoSince, undoSince, unshift_mapNodes]
    cases unshift stamp stack with
    | nil => rfl
    | cons top below =>
      have hhandle : (last.mapNodes f).handle.reverse ++ below.map (StackEntry.mapNodes f) =
          (last.handle.reverse ++ below).map (StackEntry.mapNodes f) := by
        rw [Reduction.mapNodes, List.map_append, List.map_reverse]
      simp only [List.map_cons, hhandle, ih]
      by_cases hstamp : stamp ≤ top.stamp
      · rw [if_pos hstamp, if_pos (show stamp ≤ (top.mapNodes f).stamp from hstamp)]
      · rw [if_neg hstamp, if_neg (show ¬ stamp ≤ (top.mapNodes f).stamp from hstamp)]
        rfl

/-- The same way of a choice point is gone. -/
theorem Machine.resume_mapNodes (m : Machine τ ω ε σ) (way : Way) (c : ChoicePoint τ)
    (pending : List (ChoicePoint τ)) :
    (m.mapNodes f).resume way c pending = (m.resume way c pending).mapNodes f := by
  have hundo : undoSince c.stamp (m.mapNodes f).stack (m.mapNodes f).trail =
      ((undoSince c.stamp m.stack m.trail).1.map (StackEntry.mapNodes f),
        (undoSince c.stamp m.stack m.trail).2.1.map (Reduction.mapNodes f),
        (undoSince c.stamp m.stack m.trail).2.2) := undoSince_mapNodes c.stamp m.stack m.trail
  unfold resume
  rw [hundo]
  unfold Machine.mapNodes
  dsimp only
  cases pending.isEmpty <;> rfl

/-- The same choice point is returned to. -/
theorem Machine.backtrack?_mapNodes (m : Machine τ ω ε σ) :
    (m.mapNodes f).backtrack? = m.backtrack?.map (Machine.mapNodes f) := by
  have hchoices : (m.mapNodes f).choices = m.choices := rfl
  rw [backtrack?, backtrack?, hchoices, Option.map_map]
  refine Option.map_congr ?_
  rintro ⟨way, c, pending⟩ -
  exact resume_mapNodes m way c pending

end Stacks

namespace Parser

variable {p : Parser τ ν β σ} {maker : NodeMaker τ ω β σ} {f : ω → ν}

/-- The same state is on top. -/
theorem stateOn_mapNodes (maker : NodeMaker τ ω β σ) (stack : List (StackEntry τ ω)) :
    p.stateOn (stack.map (StackEntry.mapNodes f)) = (p.withMaker maker).stateOn stack := by
  cases stack <;> rfl

/-- The same token is read. -/
theorem readToken_mapNodes (m : Machine τ ω ε σ) :
    readToken (m.mapNodes f) = ((readToken m).1, (readToken m).2.mapNodes f) := by
  unfold readToken Machine.currentToken? Machine.mapNodes
  dsimp only
  cases m.pulled[m.position]? with
  | some token => rfl
  | none =>
    dsimp only
    split
    · rfl
    · rcases m.source with _ | ⟨_ | _, _⟩ <;> rfl

/-- The same choice point is left. -/
theorem leaveChoice_mapNodes (maker : NodeMaker τ ω β σ) (m : Machine τ ω ε σ)
    (lookahead : Lookahead τ) (ways : OpenWays) :
    p.leaveChoice (m.mapNodes f) lookahead ways =
      ((p.withMaker maker).leaveChoice m lookahead ways).map (Machine.mapNodes f) := by
  unfold leaveChoice Machine.mapNodes withMaker
  dsimp only
  cases p.maxChoiceDepth.filter fun depth => depth ≤ m.choices.length <;> rfl

/-- The reading of the next token is decided alike. -/
theorem look_mapNodes [Token τ] (maker : NodeMaker τ ω β σ) (q : StateId) (m : Machine τ ω ε σ) :
    p.look q (m.mapNodes f) = ((p.withMaker maker).look q m).mapNodes f := by
  have hl : (m.mapNodes f).lookahead = m.lookahead := rfl
  rw [look, look, hl]
  cases m.lookahead with
  | some lookahead => rfl
  | none =>
    dsimp only
    rw [readToken_mapNodes]
    rcases readToken m with ⟨e | _ | token, b⟩
    · rfl
    · rfl
    · have hreadings : (p.withMaker maker).readings q token = p.readings q token := rfl
      dsimp only
      rw [hreadings]
      rcases p.readings q token with _ | ⟨reading, _ | ⟨other, others⟩⟩
      · rfl
      · rfl
      · have hleave := leaveChoice_mapNodes (p := p) (f := f) maker b
          (.token ⟨token, reading, b.position, b.clock⟩) (.readings (other :: others))
        change p.leaveChoice (b.mapNodes f)
          (.token ⟨token, reading, (b.mapNodes f).position, (b.mapNodes f).clock⟩)
          (.readings (other :: others)) = _ at hleave
        dsimp only
        rw [hleave]
        cases (p.withMaker maker).leaveChoice b (.token ⟨token, reading, b.position, b.clock⟩)
          (.readings (other :: others)) <;> rfl

/-- Actions are tried alike. -/
theorem tryInTurn_mapNodes (maker : NodeMaker τ ω β σ) (m : Machine τ ω ε σ)
    (lookahead : Lookahead τ) (as : List Action) :
    p.tryInTurn (m.mapNodes f) lookahead as =
      ((p.withMaker maker).tryInTurn m lookahead as).mapNodes f := by
  rcases as with _ | ⟨a, _ | ⟨other, others⟩⟩
  · rfl
  · rfl
  · simp only [tryInTurn]
    rw [leaveChoice_mapNodes maker]
    cases (p.withMaker maker).leaveChoice m lookahead (.actions (other :: others)) <;> rfl

/-- The same bounds are respected. -/
theorem argumentFits_mapNodes (handle : List (StackEntry τ ω)) (place : Nat) (bound : Option Nat) :
    argumentFits (handle.map (StackEntry.mapNodes f)) place bound =
      argumentFits handle place bound := by
  unfold argumentFits
  rw [List.getElem?_map]
  cases handle[place]? with
  | none => rfl
  | some e =>
    change (!(e.item.mapNodes f).isNode || _) = _
    rw [HandleItem.isNode_mapNodes]
    rfl

/-- The node of a handle has the same priority. -/
theorem nodePriority?_mapNodes (shape : RuleShape) (handle : List (StackEntry τ ω)) :
    nodePriority? shape (handle.map (StackEntry.mapNodes f)) = nodePriority? shape handle := by
  unfold nodePriority?
  simp only [operatorAt_mapNodes, argumentFits_mapNodes]

/-- The same node is put on the stack, and the same record on the trail. -/
theorem pushNode_mapNodes (m : Machine τ ω ε σ) (r : RuleId) (handle below : List (StackEntry τ ω))
    (next : StateId) (node : ω) (priority : Nat) :
    pushNode (m.mapNodes f) r (handle.map (StackEntry.mapNodes f))
        (below.map (StackEntry.mapNodes f)) next (f node) priority =
      (pushNode m r handle below next node priority).mapNodes f := by
  unfold pushNode Machine.mapNodes
  dsimp only
  cases m.choices.isEmpty <;> rfl

/-- A reduction is carried out alike. -/
theorem reduce_mapNodes (hover : maker.Over f p.maker) (m : Machine τ ω ε σ) (r : RuleId) :
    p.reduce (m.mapNodes f) r = ((p.withMaker maker).reduce m r).mapNodes f := by
  have htable : (p.withMaker maker).table = p.table := rfl
  unfold reduce
  rw [htable]
  cases p.table.rule r with
  | none => rfl
  | some shape =>
    have hlength : (m.mapNodes f).stack.length = m.stack.length := List.length_map _
    dsimp only
    by_cases hlt : m.stack.length < shape.length
    · rw [if_pos hlt, if_pos (hlength.symm ▸ hlt)]
      rfl
    · rw [if_neg hlt, if_neg (hlength.symm ▸ hlt)]
      have hhandle : ((m.mapNodes f).stack.take shape.length).reverse =
          (m.stack.take shape.length).reverse.map (StackEntry.mapNodes f) := by
        rw [Machine.mapNodes, ← List.map_take, List.map_reverse]
      have hbelow : (m.mapNodes f).stack.drop shape.length =
          (m.stack.drop shape.length).map (StackEntry.mapNodes f) := by
        rw [Machine.mapNodes, List.map_drop]
      have hitems : ((m.stack.take shape.length).reverse.map (StackEntry.mapNodes f)).map
          StackEntry.item = ((m.stack.take shape.length).reverse.map StackEntry.item).map
            (HandleItem.mapNodes f) := by
        rw [List.map_map, List.map_map]
        rfl
      have hmemory : (m.mapNodes f).memory = m.memory := rfl
      rw [hhandle, hbelow, nodePriority?_mapNodes, hitems, hmemory, hover,
        stateOn_mapNodes maker]
      cases nodePriority? shape (m.stack.take shape.length).reverse with
      | none => rfl
      | some priority =>
        have hmaker : (p.withMaker maker).maker = maker := rfl
        dsimp only
        rw [hmaker]
        rcases maker.reduce r ((m.stack.take shape.length).reverse.map StackEntry.item) m.memory
          with ⟨e | node, memory⟩
        · rfl
        · dsimp only [Except.map]
          cases p.table.goto ((p.withMaker maker).stateOn (m.stack.drop shape.length)) shape.left
            with
          | none => rfl
          | some next =>
            exact congrArg Attempt.done
              (pushNode_mapNodes { m with memory := memory } r _ _ next node priority)

/-- Acceptance gives the node for which the node on top stands. -/
theorem accept_mapNodes (m : Machine τ ω ε σ) :
    accept (m.mapNodes f) = (accept m : StepResult τ ω ε β σ).mapNodes f := by
  have htrail : (m.trail.map (Reduction.mapNodes f)).length = m.trail.length := List.length_map _
  unfold accept Machine.mapNodes
  dsimp only
  rw [htrail]
  rcases m.stack with _ | ⟨⟨q, _ | node, priority, stamp⟩, below⟩ <;> rfl

/-- The same operator stands in the handle of a reduction. -/
theorem operatorInHandle_mapNodes (shape : RuleShape) (stack : List (StackEntry τ ω)) :
    operatorInHandle shape (stack.map (StackEntry.mapNodes f)) = operatorInHandle shape stack := by
  unfold operatorInHandle
  simp only [List.length_map, ← List.map_take, ← List.map_reverse, operatorAt_mapNodes]

/-- Candidates are ranked alike. -/
theorem rank_mapNodes (maker : NodeMaker τ ω β σ) (stack : List (StackEntry τ ω))
    (d : CandidatesId) (lookahead : Lookahead τ) :
    p.rank (ε := ε) (stack.map (StackEntry.mapNodes f)) d lookahead =
      (p.withMaker maker).rank stack d lookahead := by
  have hcandidate : p.candidate (ε := ε) (stack.map (StackEntry.mapNodes f)) =
      (p.withMaker maker).candidate stack := by
    funext a
    cases a with
    | reduce r =>
      simp only [candidate, operatorInHandle_mapNodes]
      rfl
    | _ => rfl
  rw [rank, rank, hcandidate]
  rfl

variable [Token τ]

/-- A dead end is left alike. -/
theorem retreat_mapNodes (q : StateId) (m : Machine τ ω ε σ) :
    p.retreat q (m.mapNodes f) = ((p.withMaker maker).retreat q m).mapNodes f := by
  have hback : ({ m.mapNodes f with
      farthest := some (fartherOf m.farthest (deadEndAt q m)) } : Machine τ ν ε σ).backtrack? =
        (Machine.backtrack? { m with
          farthest := some (fartherOf m.farthest (deadEndAt q m)) }).map (Machine.mapNodes f) :=
    Machine.backtrack?_mapNodes { m with farthest := some (fartherOf m.farthest (deadEndAt q m)) }
  have hfarthest : fartherOf (m.mapNodes f).farthest (deadEndAt q (m.mapNodes f)) =
      fartherOf m.farthest (deadEndAt q m) := rfl
  unfold retreat
  rw [hfarthest]
  dsimp only
  rw [hback]
  cases Machine.backtrack? { m with farthest := some (fartherOf m.farthest (deadEndAt q m)) } <;>
    rfl

/-- To go on after a part of a step. -/
theorem proceed_mapNodes (q : StateId) (attempt : Attempt τ ω ε β σ) :
    p.proceed q (attempt.mapNodes f) = ((p.withMaker maker).proceed q attempt).mapNodes f := by
  cases attempt with
  | done m => rfl
  | refused m => exact retreat_mapNodes q m
  | failed e m => rfl

/-- An action is carried out alike. -/
theorem perform_mapNodes (hover : maker.Over f p.maker) (q : StateId) (lookahead : Lookahead τ)
    (m : Machine τ ω ε σ) (a : Action) :
    p.perform q lookahead (m.mapNodes f) a =
      ((p.withMaker maker).perform q lookahead m a).mapNodes f := by
  have htable : (p.withMaker maker).table = p.table := rfl
  cases a with
  | shift next => cases lookahead <;> rfl
  | reduce r => rw [perform, perform, reduce_mapNodes hover, proceed_mapNodes]
  | accept => exact accept_mapNodes m
  | dynamic d =>
    have hstack : (m.mapNodes f).stack = m.stack.map (StackEntry.mapNodes f) := rfl
    rw [perform, perform, hstack, rank_mapNodes maker]
    cases (p.withMaker maker).rank (ε := ε) m.stack d lookahead with
    | error e => rfl
    | ok candidates =>
      dsimp only
      rw [tryInTurn_mapNodes maker, proceed_mapNodes]
  | choice d =>
    rw [perform, perform, htable]
    cases p.table.candidates d with
    | none => rfl
    | some candidates =>
      dsimp only
      rw [tryInTurn_mapNodes maker, proceed_mapNodes]
  | error => exact retreat_mapNodes q m

/-- A step of a parser is the image of a step of the parser whose nodes stand for its own. -/
theorem step_mapNodes (hover : maker.Over f p.maker) (m : Machine τ ω ε σ) :
    p.step (m.mapNodes f) = ((p.withMaker maker).step m).mapNodes f := by
  have hstate : p.stateOn (m.mapNodes f).stack = (p.withMaker maker).stateOn m.stack :=
    stateOn_mapNodes maker m.stack
  rw [step, step, hstate]
  dsimp only
  rw [look_mapNodes maker]
  cases (p.withMaker maker).look ((p.withMaker maker).stateOn m.stack) m with
  | failed e b => rfl
  | refused b => exact retreat_mapNodes _ b
  | done b => exact perform_mapNodes hover _ _ { b with forced := none } _

/-- A run of a parser is the image of a run of the parser whose nodes stand for its own. -/
theorem run_mapNodes (hover : maker.Over f p.maker) (n : Nat) (m : Machine τ ω ε σ) :
    p.run n (m.mapNodes f) = ((p.withMaker maker).run n m).map fun result =>
      (result.1.map f, result.2.mapNodes f) := by
  induction n generalizing m with
  | zero => rfl
  | succ n ih =>
    rw [run, run, step_mapNodes hover]
    cases (p.withMaker maker).step m with
    | next m' => exact ih m'
    | halt result last => rfl

/-- A parse is the image of one of the parser whose nodes stand for its own. -/
theorem parse_mapNodes (hover : maker.Over f p.maker) (n : Nat) (source : List (Except ε τ))
    (memory : σ) :
    p.parse n source memory = ((p.withMaker maker).parse n source memory).map fun result =>
      (result.1.map f, result.2.mapNodes f) :=
  run_mapNodes hover n (.start source memory)

/-- A machine that a parser reaches is the image of one that the parser reaches whose nodes stand
for its own. -/
theorem Reaches.exists_mapNodes (hover : maker.Over f p.maker) {first : Machine τ ω ε σ}
    {m : Machine τ ν ε σ} (h : p.Reaches (first.mapNodes f) m) :
    ∃ m', (p.withMaker maker).Reaches first m' ∧ m'.mapNodes f = m := by
  induction h with
  | refl => exact ⟨first, .refl, rfl⟩
  | @tail m m₁ _ hstep ih =>
    obtain ⟨m', hreach, rfl⟩ := ih
    rw [step_mapNodes hover] at hstep
    cases hstep' : (p.withMaker maker).step m' with
    | halt result last =>
      rw [hstep'] at hstep
      cases hstep
    | next m₁' =>
      rw [hstep'] at hstep
      exact ⟨m₁', hreach.tail hstep', StepResult.next.inj hstep⟩

section Recorded

variable {source : List (Except ε τ)} {memory : σ} {m last : Machine τ ν ε σ}

/-- Behind each machine that a parse reaches is one that records the trees of its nodes. -/
theorem Reaches.exists_recording (h : p.Reaches (.start source memory) m) :
    ∃ m', p.recording.Reaches (.start source memory) m' ∧ m'.mapNodes Prod.fst = m := by
  have hstart : (Machine.start source memory : Machine τ (ν × ParseTree τ) ε σ).mapNodes Prod.fst =
      .start source memory := rfl
  exact exists_mapNodes p.maker.recording_over (hstart ▸ h)

/-- A parse that is recorded ends with the same node, and gives the tree of it. -/
theorem exists_parse_recording {n : Nat} {node : ν}
    (h : p.parse n source memory = some (.ok node, last)) :
    ∃ tree last', p.recording.parse n source memory = some (.ok (node, tree), last') ∧
      last'.mapNodes Prod.fst = last := by
  rw [parse_mapNodes p.maker.recording_over] at h
  obtain ⟨⟨result, last'⟩, hparse, heq⟩ := Option.map_eq_some_iff.mp h
  obtain ⟨hresult, rfl⟩ := Prod.mk.inj heq
  obtain ⟨⟨node', tree⟩, rfl, rfl⟩ := map_eq_ok_iff.mp hresult
  exact ⟨tree, last', hparse, rfl⟩

end Recorded

end Parser

end OperatorLALR
