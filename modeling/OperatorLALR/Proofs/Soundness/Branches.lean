import OperatorLALR.Proofs.Soundness.Paths

/-!
# Branches keep to the automaton

Whatever ways a nondeterministic parser over the table of a grammar takes, the stack of a branch is
a path of the automaton, the leaves of its trees are the tokens up to the current position, and a
lookahead is the next token in one of its ways (`Branch.Sound`). Each way on keeps this
(`Branch.Sound.next`), and a branch that accepts has read all tokens and holds nothing but a
derivation tree of the start symbol (`Branch.Sound.accept`).
-/

namespace OperatorLALR

variable {τ β σ : Type} [Token τ] {g : Grammar} {a : Analysis} {p : Parser τ (ParseTree τ) β σ}
  {tokens : List τ} {b b' : Branch τ} {lookahead : Lookahead τ}

/-- A parser has the table of a grammar, and no operator is read as the end of the input. -/
structure Serves (g : Grammar) (a : Analysis) (p : Parser τ (ParseTree τ) β σ) : Prop where
  table : g.Tabulates a p.table
  operators : ∀ op ∈ p.operators.toList, op.terminal ≠ endOfInput

/-- The alternatives for a token are the ways in which it may be read, as far as the state has an
action on their terminals. -/
theorem Branch.mem_alternatives {ν : Type} {p : Parser τ ν β σ} {q : StateId} {token : τ}
    {reading : Reading} :
    reading ∈ alternatives p q token ↔
      Reads p.operators token reading ∧ p.table.action q reading.terminal ≠ .error := by
  simp only [alternatives, List.mem_append, List.mem_map, List.mem_filter, decide_eq_true_eq]
  constructor
  · rintro (hplain | ⟨op, ⟨hop, haction⟩, rfl⟩)
    · split at hplain
      · cases hplain
      · next haction =>
        obtain rfl := List.mem_singleton.mp hplain
        exact ⟨.plain, haction⟩
    · cases hname : Token.operatorName token with
      | none =>
        rw [hname] at hop
        cases hop
      | some name =>
        rw [hname] at hop
        exact ⟨.operator hname hop, haction⟩
  · rintro ⟨hreads, haction⟩
    cases hreads with
    | plain =>
      rw [if_neg haction]
      exact .inl List.mem_cons_self
    | @operator name op hname hop =>
      rw [hname]
      exact .inr ⟨op, ⟨hop, haction⟩, rfl⟩

/-- The action of a candidate that was not dropped. -/
def Standing.action? : Standing → Option Action
  | .ranked r => some r.action
  | .dropped => none
  | .unranked a => some a

/-- A candidate is not dropped if it is ranked or takes no part in the comparison. -/
theorem Standing.action?_eq_some_iff {s : Standing} {action : Action} :
    s.action? = some action ↔
      (∃ r, s.ranked? = some r ∧ r.action = action) ∨ s.unranked? = some action := by
  cases s <;> simp [action?, ranked?, unranked?]

/-- The comparison with the lookahead does not change the action of a candidate. -/
theorem Candidate.action_of_standing {incoming : Operator} {candidates : List Candidate}
    {c : Candidate} {action : Action}
    (h : (c.standing incoming candidates).action? = some action) : c.action = action := by
  unfold Candidate.standing at h
  split at h
  · split at h
    · exact Option.some.inj h
    · cases h
  · split at h
    · split at h
      · exact Option.some.inj h
      · cases h
    · exact Option.some.inj h
  · exact Option.some.inj h

/-- The comparison with an operator keeps the candidates that it does not drop. -/
theorem mem_rank_some_iff {incoming : Operator} {candidates : List Candidate} {action : Action} :
    action ∈ Candidate.rank (some incoming) candidates ↔
      ∃ c ∈ candidates, (c.standing incoming candidates).action? = some action := by
  simp only [Candidate.rank, List.mem_append, List.mem_map, mem_sortBy, List.mem_filterMap,
    Standing.action?_eq_some_iff]
  constructor
  · rintro (⟨r, ⟨_, ⟨c, hc, rfl⟩, hr⟩, haction⟩ | ⟨_, ⟨c, hc, rfl⟩, hunranked⟩)
    · exact ⟨c, hc, .inl ⟨r, hr, haction⟩⟩
    · exact ⟨c, hc, .inr hunranked⟩
  · rintro ⟨c, hc, ⟨r, hr, haction⟩ | hunranked⟩
    · exact .inl ⟨r, ⟨_, ⟨c, hc, rfl⟩, hr⟩, haction⟩
    · exact .inr ⟨_, ⟨c, hc, rfl⟩, hunranked⟩

/-- Ranking keeps some of the candidates. -/
theorem mem_of_mem_rank {incoming : Option Operator} {candidates : List Candidate} {action : Action}
    (h : action ∈ Candidate.rank incoming candidates) :
    ∃ c ∈ candidates, c.action = action := by
  cases incoming with
  | none => exact List.mem_map.mp h
  | some incoming =>
    obtain ⟨c, hc, hkept⟩ := mem_rank_some_iff.mp h
    exact ⟨c, hc, Candidate.action_of_standing hkept⟩

omit [Token τ] in
/-- A candidate has the action that it was made for. -/
theorem action_of_candidate {ε : Type} {stack : List (StackEntry τ (ParseTree τ))}
    {action : Action} {c : Candidate} (h : p.candidate (ε := ε) stack action = .ok c) :
    c.action = action := by
  cases action with
  | reduce r =>
    rw [Parser.candidate] at h
    split at h
    · cases h
    · rw [← Except.ok.inj h]
  | _ => rw [← Except.ok.inj h]

omit [Token τ] in
/-- What an undecided action leaves open are candidates of its list. -/
theorem mem_of_openActions {stack : List (StackEntry τ (ParseTree τ))} {action : Action}
    {d : CandidatesId} {list as : List Action}
    (haction : action = .dynamic d ∨ action = .choice d) (hlist : p.table.candidates d = some list)
    (has : p.openActions stack lookahead action = some as) : ∀ a ∈ as, a ∈ list := by
  rcases haction with rfl | rfl
  · rw [Parser.openActions_dynamic (ε := Empty), Parser.rank_eq_ok_iff] at has
    obtain ⟨actions, candidates, hactions, hcandidates, rfl⟩ := has
    rw [hlist] at hactions
    obtain rfl := Option.some.inj hactions
    intro a ha
    obtain ⟨c, hc, rfl⟩ := mem_of_mem_rank ha
    obtain ⟨i, hi⟩ := List.mem_iff_getElem?.mp hc
    obtain ⟨a', ha', hcandidate⟩ := exists_getElem?_left hcandidates hi
    rw [action_of_candidate hcandidate]
    exact List.mem_of_getElem? ha'
  · rw [Parser.openActions, hlist] at has
    rw [Option.some.inj has]
    exact fun _ ha => ha

namespace Branch

/-- A branch keeps to the automaton of a grammar, and to the tokens. -/
structure Sound (g : Grammar) (a : Analysis) (p : Parser τ (ParseTree τ) β σ) (tokens : List τ)
    (b : Branch τ) : Prop where
  path : ∃ symbols, Path g a p b.stack symbols
  leaves : (stackTrees b.stack).flatMap ParseTree.leaves = tokens.zipIdx.take b.position
  position : b.position ≤ tokens.length
  token : ∀ view, b.lookahead = some (.token view) → tokens[b.position]? = some view.token ∧
    view.position = b.position ∧ Reads p.operators view.token view.reading
  inputEnd : b.lookahead = some .inputEnd → b.position = tokens.length
  forced : ∀ action, b.forced = some action → ∃ lookahead, b.lookahead = some lookahead ∧
    g.Permits a (p.stateOn b.stack) lookahead.terminal action

namespace Sound

/-- A branch without tokens on its stack keeps to everything. -/
theorem start (g : Grammar) (a : Analysis) (p : Parser τ (ParseTree τ) β σ) (tokens : List τ) :
    Sound g a p tokens .start where
  path := ⟨[], .nil⟩
  leaves := rfl
  position := Nat.zero_le _
  token := nofun
  inputEnd := nofun
  forced := nofun

/-- The action of a branch is permitted, or leaves only permitted candidates. -/
theorem permits (h : Sound g a p tokens b) (hp : Serves g a p) (hl : b.lookahead = some lookahead) :
    g.Permits a (p.stateOn b.stack) lookahead.terminal (b.action p lookahead) ∨ ∃ d list,
      (b.action p lookahead = .dynamic d ∨ b.action p lookahead = .choice d) ∧
        p.table.candidates d = some list ∧
          ∀ action ∈ list, g.Permits a (p.stateOn b.stack) lookahead.terminal action := by
  rw [Branch.action]
  cases hforced : b.forced with
  | none => exact hp.table.action _ _
  | some action =>
    obtain ⟨lookahead', hl', hpermits⟩ := h.forced action hforced
    rw [hl] at hl'
    obtain rfl := Option.some.inj hl'
    exact .inl hpermits

/-- A single action of a branch is permitted. -/
theorem permits_of_eq (h : Sound g a p tokens b) (hp : Serves g a p)
    (hl : b.lookahead = some lookahead) {action : Action} (haction : b.action p lookahead = action)
    (hsingle : ∀ d, action ≠ .dynamic d ∧ action ≠ .choice d) :
    g.Permits a (p.stateOn b.stack) lookahead.terminal action := by
  rcases h.permits hp hl with hpermits | ⟨d, _, hopen | hopen, _⟩
  · exact haction ▸ hpermits
  · exact absurd (haction.symm.trans hopen) (hsingle d).1
  · exact absurd (haction.symm.trans hopen) (hsingle d).2

/-- A lookahead may be decided on. -/
theorem decide (h : Sound g a p tokens b) (hnone : b.lookahead = none) (lookahead : Lookahead τ)
    (htoken : ∀ view, lookahead = .token view → tokens[b.position]? = some view.token ∧
      view.position = b.position ∧ Reads p.operators view.token view.reading)
    (hend : lookahead = .inputEnd → b.position = tokens.length) :
    Sound g a p tokens { b with lookahead := some lookahead } where
  path := h.path
  leaves := h.leaves
  position := h.position
  token view hview := htoken view (Option.some.inj hview)
  inputEnd heq := hend (Option.some.inj heq)
  forced action haction := by
    obtain ⟨lookahead', hl', -⟩ := h.forced action haction
    rw [hnone] at hl'
    cases hl'

/-- A token is shifted along a transition. -/
theorem shift (h : Sound g a p tokens b) {view : TokenView τ} {next : StateId}
    (hl : b.lookahead = some (.token view))
    (hgoes : (g.automaton a).Goes (p.stateOn b.stack) (.terminal view.reading.terminal) next) :
    Sound g a p tokens (b.shift next view) := by
  obtain ⟨symbols, hpath⟩ := h.path
  obtain ⟨htoken, hposition, hreads⟩ := h.token view hl
  have hlt : b.position < tokens.length := (List.getElem?_eq_some_iff.mp htoken).1
  refine ⟨⟨_, .cons hpath hgoes (.leaf hreads)⟩, ?_, hlt, nofun, nofun, nofun⟩
  have hplace : tokens.zipIdx[b.position]? = some (view.token, view.position) := by
    rw [List.getElem?_zipIdx, htoken, hposition, Nat.zero_add]
    rfl
  change (stackTrees (⟨next, .token view, 0, 0⟩ :: b.stack)).flatMap ParseTree.leaves =
    tokens.zipIdx.take (b.position + 1)
  rw [stackTrees_cons, List.flatMap_append, h.leaves, List.take_add_one, hplace]
  rfl

/-- The handle of a permitted reduction spells the body of its rule, and is replaced by the node. -/
theorem reduce (h : Sound g a p tokens b) (hg : g.Built a) (hp : Serves g a p) {r : RuleId}
    (hr : (g.automaton a).Has (p.stateOn b.stack) ⟨r, (g.body r).length⟩)
    (hreduce : b.reduce? p r = some b') : Sound g a p tokens b' := by
  obtain ⟨symbols, hpath⟩ := h.path
  obtain ⟨shape, priority, next, hshape, -, -, hgoto, rfl⟩ := reduce?_eq_some_iff.mp hreduce
  obtain ⟨rule, hrule, hleft, hlength⟩ := hp.table.rule r shape hshape
  have hbody : g.body r = rule.body := Grammar.body_eq hrule
  obtain ⟨-, hspells, -⟩ := hpath.handle hg hp.table.initial hr
  rw [List.take_length, hbody, ← hlength] at hspells
  have hgoes := hp.table.goto _ _ _ hgoto
  rw [hleft] at hgoes
  have hnode : Spells g p.operators (.nonterminal rule.left)
      (.node r ((b.stack.take shape.length).reverse.map fun e => e.item.tree)) :=
    .node hrule hspells
  refine ⟨⟨_, .cons (hpath.drop shape.length) hgoes hnode⟩, ?_, h.position, h.token, h.inputEnd,
    nofun⟩
  rw [← h.leaves, stackTrees_take_drop shape.length b.stack, stackTrees_cons,
    List.flatMap_append, List.flatMap_append, List.flatMap_singleton]
  congr 1
  exact ParseTree.leavesOf_eq _

/-- An action that is left open may be taken next. -/
theorem force (h : Sound g a p tokens b) (hp : Serves g a p) (hl : b.lookahead = some lookahead)
    {as : List Action} (hopen : p.openActions b.stack lookahead (b.action p lookahead) = some as)
    {action : Action} (haction : action ∈ as) :
    Sound g a p tokens { b with forced := some action } := by
  refine ⟨h.path, h.leaves, h.position, h.token, h.inputEnd, ?_⟩
  intro action' haction'
  obtain rfl := Option.some.inj haction'
  refine ⟨lookahead, hl, ?_⟩
  rcases h.permits hp hl with hpermits | ⟨d, list, hundecided, hlist, hall⟩
  · generalize b.action p lookahead = single at hopen hpermits
    cases single with
    | dynamic | choice => exact absurd hpermits id
    | _ => cases hopen
  · exact hall _ (mem_of_openActions hundecided hlist hopen _ haction)

/-- Every way on from a branch keeps to the automaton and the tokens. -/
theorem next (h : Sound g a p tokens b) (hg : g.Built a) (hp : Serves g a p) :
    ∀ b' ∈ b.next p tokens, Sound g a p tokens b' := by
  intro b' hb'
  cases step_of_mem_next hb' with
  | ended hl hend =>
    refine h.decide hl .inputEnd nofun fun _ => ?_
    exact Nat.le_antisymm h.position (List.getElem?_eq_none_iff.mp hend)
  | read hl htoken hreading =>
    refine h.decide hl _ (fun view hview => ?_) nofun
    obtain rfl := Lookahead.token.inj hview
    exact ⟨htoken, rfl, (mem_alternatives.mp hreading).1⟩
  | shift hl haction =>
    have hpermits := h.permits_of_eq hp hl haction fun _ => ⟨nofun, nofun⟩
    exact h.shift hl hpermits
  | reduce hl haction hreduce =>
    have hpermits := h.permits_of_eq hp hl haction fun _ => ⟨nofun, nofun⟩
    exact h.reduce hg hp hpermits.2 hreduce
  | force hl hopen hmem => exact h.force hp hl hopen hmem

/-- At the end of the input all tokens have been read: no token is read as that end. -/
theorem position_eq (h : Sound g a p tokens b) (hp : Serves g a p)
    (htokens : ∀ token ∈ tokens, Token.terminal token ≠ endOfInput)
    (hl : b.lookahead = some lookahead) (hend : lookahead.terminal = endOfInput) :
    b.position = tokens.length := by
  cases lookahead with
  | inputEnd => exact h.inputEnd hl
  | token view =>
    obtain ⟨htoken, -, hreads⟩ := h.token view hl
    change view.reading.terminal = endOfInput at hend
    generalize view.reading = reading at hreads hend
    cases hreads with
    | plain => exact absurd hend (htokens _ (List.mem_of_getElem? htoken))
    | operator _ hop => exact absurd hend (hp.operators _ (OperatorTable.mem_of_mem_lookup hop))

/-- A branch that accepts has read all tokens, and holds a derivation tree of the start symbol and
nothing else. -/
theorem accept (h : Sound g a p tokens b) (hg : g.Built a) (hp : Serves g a p)
    (htokens : ∀ token ∈ tokens, Token.terminal token ≠ endOfInput) {tree : ParseTree τ}
    (hresult : b.result? p = some tree) :
    Spells g p.operators (.nonterminal g.start) tree ∧ tree.leaves = tokens.zipIdx ∧
      ∃ e, b.stack = [e] ∧ e.item = .node tree := by
  obtain ⟨lookahead, hl, hresult⟩ := Option.bind_eq_some_iff.mp hresult
  split at hresult
  · next state node priority stamp below haction hstack =>
    obtain rfl := Option.some.inj hresult
    obtain ⟨hend, hhas⟩ := h.permits_of_eq hp hl haction fun _ => ⟨nofun, nofun⟩
    have hbody : g.body acceptRule = [.nonterminal g.start] := Grammar.body_eq hg.wellFormed.accept
    obtain ⟨symbols, hpath⟩ := h.path
    obtain ⟨-, hspells, hfront⟩ := hpath.handle hg hp.table.initial hhas
    have hbelow := (hpath.drop _).eq_nil_of_initial hg (hg.eq_initialState_of_has hfront)
    rw [hbody, hstack] at hspells hbelow
    obtain rfl : below = [] := hbelow
    have hleaves := h.leaves
    rw [hstack, h.position_eq hp htokens hl hend, ← List.length_zipIdx (i := 0),
      List.take_length] at hleaves
    refine ⟨?_, ?_, _, hstack, rfl⟩
    · cases hspells with
      | cons hspells _ => exact hspells
    · rw [← hleaves]
      exact (List.append_nil _).symm
  · cases hresult

end Sound

end Branch

end OperatorLALR
