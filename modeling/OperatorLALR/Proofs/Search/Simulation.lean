import OperatorLALR.Proofs.Parser.Timely
import OperatorLALR.Proofs.Search.Input
import OperatorLALR.Proofs.Search.Likeness

/-!
# A parser searches in order

A parser is at a branch of the nondeterministic parser, and its choice points stand for the branches
that are pending: `Follows` says which. Every step that goes on explores some branches
(`Follows.step`), a step that accepts has come upon a branch with a result, and a step that rejects
the input has no branch left.
-/

namespace OperatorLALR

variable {τ ν β ε σ : Type}

/-- A machine and a branch are in the same state, up to times and nodes. -/
structure Mirrors (maker : NodeMaker τ ν β σ) (m : Machine τ ν ε σ) (b : Branch τ) : Prop where
  stack : List.Forall₂ (StackEntry.Alike maker) m.stack b.stack
  position : b.position = m.position
  lookahead : b.lookahead = m.lookahead.map Lookahead.timeless
  forced : b.forced = m.forced

/-- The action that a way forces, if it is one. -/
def Way.forced? : Way → Option Action
  | .action a => some a
  | .reading _ => none

/-- The lookahead of a choice point in one of its ways, up to times. -/
def Way.read (lookahead : Lookahead τ) : Way → Lookahead τ
  | .action _ => lookahead.timeless
  | .reading r => lookahead.reread r 0

/-- A branch is what a choice point, left by a machine, offers in one of its ways. -/
structure Offers (maker : NodeMaker τ ν β σ) (c : ChoicePoint τ) (saved : Machine τ ν ε σ)
    (way : Way) (b : Branch τ) : Prop where
  stack : List.Forall₂ (StackEntry.Alike maker) saved.stack b.stack
  position : b.position = c.position
  lookahead : b.lookahead = some (way.read c.lookahead)
  forced : b.forced = way.forced?

/-- The branches that choice points stand for, the innermost choice point first. -/
inductive Pending (maker : NodeMaker τ ν β σ) :
    List (ChoicePoint τ) → List (Machine τ ν ε σ) → List (Branch τ) → Prop
  | nil : Pending maker [] [] []
  | cons {c : ChoicePoint τ} {saved : Machine τ ν ε σ} {earlier : List (Machine τ ν ε σ)}
      {branches rest : List (Branch τ)}
      (hoffers : List.Forall₂ (Offers maker c saved) c.ways.toList branches)
      (h : Pending maker saved.choices earlier rest) :
      Pending maker (c :: saved.choices) (saved :: earlier) (branches ++ rest)

/-- What the innermost choice point stands for comes first. -/
theorem Pending.innermost {maker : NodeMaker τ ν β σ} {c : ChoicePoint τ}
    {outer : List (ChoicePoint τ)} {saved : Machine τ ν ε σ} {earlier : List (Machine τ ν ε σ)}
    {pending : List (Branch τ)} (h : Pending maker (c :: outer) (saved :: earlier) pending) :
    ∃ branches rest, pending = branches ++ rest ∧
      List.Forall₂ (Offers maker c saved) c.ways.toList branches ∧
      Pending maker saved.choices earlier rest := by
  cases h with
  | cons hoffers h => exact ⟨_, _, rfl, hoffers, h⟩

/-- A parser over some tokens is at one branch and has others pending. -/
structure Follows (p : Parser τ ν β σ) (tokens : List τ) (m : Machine τ ν ε σ)
    (saved : List (Machine τ ν ε σ)) (b : Branch τ) (rest : List (Branch τ)) : Prop where
  timely : Timely m saved
  fed : Fed tokens m
  mirrors : Mirrors p.maker m b
  pending : Pending p.maker m.choices saved rest
  /-- No action is forced before the lookahead is known. -/
  unforced : m.lookahead = none → m.forced = none

variable {p : Parser τ ν β σ} {tokens : List τ} {m m₁ m' : Machine τ ν ε σ}
  {saved : List (Machine τ ν ε σ)} {b : Branch τ} {rest : List (Branch τ)}

/-- A branch is about to do what the machine is about to do. -/
theorem Mirrors.action_eq {lookahead : Lookahead τ} (h : Mirrors p.maker m b) :
    b.action p.overTrees lookahead.timeless = p.nextAction m lookahead := by
  rw [Branch.action, Parser.nextAction, h.forced, stateOn_alike h.stack,
    Lookahead.terminal_timeless]
  rfl

/-- A reduction of the machine is one of the branch. -/
theorem Mirrors.reduce {r : RuleId} (h : Mirrors p.maker m b)
    (hr : p.reduce { m with forced := none } r = .done m') :
    ∃ b', b.reduce? p.overTrees r = some b' ∧ Mirrors p.maker m' b' := by
  obtain ⟨shape, priority, node, memory, next, hrule, hlength, hpriority, hmake, hgoto, rfl⟩ :=
    Parser.reduce_done hr
  have hhandle := forall₂_handle h.stack shape.length
  have hbelow := List.forall₂_drop shape.length h.stack
  have hlength' : ¬ b.stack.length < shape.length := by
    rw [← h.stack.length_eq]
    exact Nat.not_lt.mpr hlength
  have hpriority' : Parser.nodePriority? shape (b.stack.take shape.length).reverse =
      some priority := (nodePriority?_alike hhandle shape).trans hpriority
  have hgoto' : p.overTrees.table.goto (p.overTrees.stateOn (b.stack.drop shape.length))
      shape.left = some next := by
    rw [stateOn_alike hbelow]
    exact hgoto
  refine ⟨{ b with
    stack := ⟨next, .node (.node r ((b.stack.take shape.length).reverse.map fun e => e.item.tree)),
      priority, 0⟩ :: b.stack.drop shape.length
    forced := none }, ?_, ?_⟩
  · unfold Branch.reduce?
    have hrule' : p.overTrees.table.rule r = some shape := hrule
    rw [hrule', Option.bind_some, if_neg hlength']
    dsimp only
    rw [hpriority', Option.bind_some, hgoto', Option.map_some]
  · exact ⟨.cons ⟨rfl, .node (.node hmake (forall₂_shows hhandle)), rfl⟩ hbelow, h.position,
      h.lookahead, rfl⟩

/-- Where the machine refuses a reduction, so does the branch. -/
theorem Mirrors.reduce_refused {r : RuleId} (h : Mirrors p.maker m b)
    (hr : p.reduce { m with forced := none } r = .refused { m with forced := none }) :
    b.reduce? p.overTrees r = none := by
  obtain ⟨-, shape, hrule, hpriority⟩ := Parser.reduce_refused hr
  have hpriority' : Parser.nodePriority? shape (b.stack.take shape.length).reverse = none :=
    (nodePriority?_alike (forall₂_handle h.stack shape.length) shape).trans hpriority
  have hrule' : p.overTrees.table.rule r = some shape := hrule
  unfold Branch.reduce?
  rw [hrule', Option.bind_some]
  dsimp only
  rw [hpriority']
  split <;> rfl

section Tokens

variable [Token τ]

/-- What the search of the nondeterministic parser leaves pending after some steps. -/
def Parser.Searches (p : Parser τ ν β σ) (tokens : List τ) :
    List (Branch τ) → List (Branch τ) → Prop :=
  Search.Explores (Branch.next p.overTrees tokens) (Branch.result? p.overTrees)

/-- What the search of the nondeterministic parser leaves pending after at least one step. -/
def Parser.Advances (p : Parser τ ν β σ) (tokens : List τ) :
    List (Branch τ) → List (Branch τ) → Prop :=
  Relation.TransGen (Search.Expands (Branch.next p.overTrees tokens) (Branch.result? p.overTrees))

/-- A branch without a result gives way to those that it goes on to. -/
theorem Parser.Advances.next {p : Parser τ ν β σ} {tokens : List τ} {b : Branch τ}
    {ways : List (Branch τ)} (rest : List (Branch τ)) (hresult : b.result? p.overTrees = none)
    (hnext : b.next p.overTrees tokens = ways) : p.Advances tokens (b :: rest) (ways ++ rest) :=
  hnext ▸ Relation.TransGen.single (.first hresult)

/-- A search that goes on is a search. -/
theorem Parser.Advances.searches {p : Parser τ ν β σ} {tokens : List τ} {as bs : List (Branch τ)}
    (h : p.Advances tokens as bs) : p.Searches tokens as bs :=
  Relation.TransGen.to_reflTransGen h

/-- A search goes on from where it was left. -/
theorem Parser.Searches.advances {p : Parser τ ν β σ} {tokens : List τ}
    {as bs cs : List (Branch τ)} (h : p.Searches tokens as bs) (h' : p.Advances tokens bs cs) :
    p.Advances tokens as cs :=
  Relation.TransGen.trans_right h h'

/-- A branch without a result gives way to those that it goes on to. -/
theorem Parser.Searches.next {p : Parser τ ν β σ} {tokens : List τ} {b : Branch τ}
    {ways : List (Branch τ)} (rest : List (Branch τ)) (hresult : b.result? p.overTrees = none)
    (hnext : b.next p.overTrees tokens = ways) : p.Searches tokens (b :: rest) (ways ++ rest) :=
  (Parser.Advances.next rest hresult hnext).searches

/-- A search goes on where it was left. -/
theorem Parser.Searches.trans {p : Parser τ ν β σ} {tokens : List τ} {as bs cs : List (Branch τ)}
    (h : p.Searches tokens as bs) (h' : p.Searches tokens bs cs) : p.Searches tokens as cs :=
  Relation.ReflTransGen.trans h h'

/-- A branch from which the machine knows no way on has none. -/
theorem Mirrors.stuck {lookahead : Lookahead τ} {m₁ : Machine τ ν ε σ} (tokens : List τ)
    (h : Mirrors p.maker m₁ b) (hlookahead : m₁.lookahead = some lookahead)
    (hstuck : Parser.Stuck p lookahead { m₁ with forced := none } (p.nextAction m₁ lookahead)) :
    b.result? p.overTrees = none ∧ b.next p.overTrees tokens = [] := by
  have hb : b.lookahead = some lookahead.timeless := by
    rw [h.lookahead, hlookahead]
    rfl
  have haction : b.action p.overTrees lookahead.timeless = p.nextAction m₁ lookahead :=
    h.action_eq
  generalize p.nextAction m₁ lookahead = a at hstuck haction
  cases hstuck with
  | error =>
    refine ⟨Branch.result?_of_ne_accept hb (by rw [haction]; nofun), ?_⟩
    unfold Branch.next
    rw [hb]
    dsimp only
    rw [haction]
  | refused hr =>
    refine ⟨Branch.result?_of_ne_accept hb (by rw [haction]; nofun), ?_⟩
    rw [Branch.next_of_reduce hb haction, h.reduce_refused hr]
    rfl
  | noneOpen hopen =>
    have hne : a ≠ .accept := by
      rintro rfl
      cases hopen
    refine ⟨Branch.result?_of_ne_accept hb (haction ▸ hne), ?_⟩
    have hopen' : p.overTrees.openActions b.stack lookahead.timeless
        (b.action p.overTrees lookahead.timeless) = some [] := by
      rw [haction, openActions_alike h.stack]
      exact hopen
    exact Branch.next_of_open hb hopen'

end Tokens

namespace Follows

/-- A parse begins at the branch before the first token. -/
theorem start (p : Parser τ ν β σ) (source : List (Except ε τ)) (memory : σ) :
    Follows p (given source) (.start source memory : Machine τ ν ε σ) [] .start [] where
  timely := .start _ memory
  fed := .start source memory
  mirrors := ⟨.nil, rfl, rfl, rfl⟩
  pending := .nil
  unforced := fun _ => rfl

/-- Reading a token changes no branch. -/
theorem readToken {read : Option τ} (h : Follows p tokens m saved b rest)
    (hread : Parser.readToken m = (.ok read, m')) :
    Follows p tokens m' saved b rest ∧ tokens[b.position]? = read ∧
      m'.position + read.elim 0 (fun _ => 1) ≤ m'.pulled.length ∧ m'.lookahead = m.lookahead := by
  obtain ⟨hsome, hfed, hposition⟩ := h.fed.readToken hread
  have htimely := h.timely.readToken hread
  obtain ⟨pulled, source, exhausted, rfl⟩ := Parser.readToken_eq hread
  have hmirrors := h.mirrors
  refine ⟨⟨htimely, hfed, ⟨hmirrors.stack, hmirrors.position, hmirrors.lookahead, hmirrors.forced⟩,
    h.pending, h.unforced⟩, ?_, hposition, rfl⟩
  rw [hmirrors.position]
  exact hsome.symm

/-- Deciding on a lookahead. -/
theorem decide (h : Follows p tokens m saved b rest) (lookahead : Lookahead τ)
    (hwidth : m.position + lookahead.width ≤ m.pulled.length) :
    Follows p tokens { m with lookahead := some lookahead } saved
      { b with lookahead := some lookahead.timeless } rest where
  timely := h.timely.congr rfl rfl rfl rfl
  fed := h.fed.congr rfl rfl rfl hwidth h.fed.choices_le
  mirrors := ⟨h.mirrors.stack, h.mirrors.position, rfl, h.mirrors.forced⟩
  pending := h.pending
  unforced := nofun

/-- Deciding on an action, once the lookahead is known. -/
theorem force (h : Follows p tokens m saved b rest) (a : Option Action)
    (hlookahead : m.lookahead ≠ none) :
    Follows p tokens { m with forced := a } saved { b with forced := a } rest where
  timely := h.timely.congr rfl rfl rfl rfl
  fed := h.fed.congr rfl rfl rfl h.fed.position_le h.fed.choices_le
  mirrors := ⟨h.mirrors.stack, h.mirrors.position, h.mirrors.lookahead, rfl⟩
  pending := h.pending
  unforced := fun hnone => absurd hnone hlookahead

/-- A new choice point stands for what it offers. -/
theorem leave {lookahead : Lookahead τ} {ways : OpenWays} {branches : List (Branch τ)}
    (h : Follows p tokens m saved b rest) (hways : ways.isEmpty = false)
    (hleave : p.leaveChoice m lookahead ways = .ok m')
    (hwidth : m.position + lookahead.width ≤ m.pulled.length)
    (hoffers : List.Forall₂ (Offers p.maker ⟨m.clock + 1, m.position, lookahead, ways⟩ m)
      ways.toList branches) :
    Follows p tokens m' (m :: saved) b (branches ++ rest) := by
  have htimely := h.timely.leave hways hleave
  obtain ⟨depth, rfl⟩ := Parser.leaveChoice_ok hleave
  refine ⟨htimely, h.fed.congr rfl rfl rfl h.fed.position_le ?_,
    ⟨h.mirrors.stack, h.mirrors.position, h.mirrors.lookahead, h.mirrors.forced⟩,
    .cons hoffers h.pending, h.unforced⟩
  intro c hc
  rcases List.mem_cons.mp hc with rfl | hc
  · exact hwidth
  · exact h.fed.choices_le c hc

/-- What a choice between readings offers. -/
theorem offers_readings {token : τ} {reading : Reading} {stamp₁ stamp₂ : Nat}
    (others : List Reading) (h : Mirrors p.maker m b) (hforced : m.forced = none) :
    List.Forall₂ (Offers p.maker
        ⟨stamp₁, m.position, .token ⟨token, reading, m.position, stamp₂⟩, .readings others⟩ m)
      (OpenWays.readings others).toList
      (others.map fun r => { b with lookahead := some (.token ⟨token, r, b.position, 0⟩) }) := by
  rw [OpenWays.toList, List.forall₂_map_left_iff, List.forall₂_map_right_iff, List.forall₂_same]
  intro r _
  refine ⟨h.stack, h.position, ?_, h.forced.trans hforced⟩
  rw [h.position]
  rfl

/-- What a choice between actions offers. -/
theorem offers_actions {lookahead : Lookahead τ} {stamp : Nat} (others : List Action)
    (h : Mirrors p.maker m b) (hlookahead : m.lookahead = some lookahead) :
    List.Forall₂ (Offers p.maker ⟨stamp, m.position, lookahead, .actions others⟩ m)
      (OpenWays.actions others).toList (others.map fun a => { b with forced := some a }) := by
  rw [OpenWays.toList, List.forall₂_map_left_iff, List.forall₂_map_right_iff, List.forall₂_same]
  intro a _
  refine ⟨h.stack, h.position, ?_, rfl⟩
  rw [h.lookahead, hlookahead]
  rfl

/-- The first of several candidates is taken, and a choice point stands for the others. -/
theorem branch {lookahead : Lookahead τ} {first other : Action} {others : List Action}
    (h : Follows p tokens m saved b rest) (hl : m.lookahead = some lookahead)
    (hleave : p.leaveChoice m lookahead (.actions (other :: others)) = .ok m') :
    Follows p tokens { m' with forced := some first } (m :: saved)
      { b with forced := some first }
      ((other :: others).map (fun a => { b with forced := some a }) ++ rest) := by
  have hwidth : m.position + lookahead.width ≤ m.pulled.length := by
    have hposition := h.fed.position_le
    rwa [hl] at hposition
  have hleft := h.leave rfl hleave hwidth (offers_actions (other :: others) h.mirrors hl)
  refine hleft.force (some first) ?_
  obtain ⟨depth, rfl⟩ := Parser.leaveChoice_ok hleave
  change m.lookahead ≠ none
  rw [hl]
  nofun

/-- A machine back at a choice point mirrors what that offers. -/
theorem mirrors_backAt {c : ChoicePoint τ} {s : Machine τ ν ε σ} {way : Way} {others : OpenWays}
    (h : Offers p.maker c s way b) : Mirrors p.maker (m.backAt s c way others) b := by
  refine ⟨h.stack, h.position, ?_, ?_⟩
  · rw [h.lookahead]
    cases way with
    | action a => rfl
    | reading r =>
      cases hc : c.lookahead <;>
        simp [Machine.backAt, Way.read, hc, Lookahead.reread, Lookahead.timeless,
          TokenView.timeless]
  · rw [h.forced]
    cases way <;> rfl

/-- The branch knows the same lookahead as the machine. -/
theorem lookahead_eq {lookahead : Lookahead τ} (h : Follows p tokens m saved b rest)
    (hl : m.lookahead = some lookahead) :
    b.lookahead = some lookahead.timeless := by
  rw [h.mirrors.lookahead, hl]
  rfl

/-- A shift takes the branch along. -/
theorem shift {view : TokenView τ} (h : Follows p tokens m saved b rest)
    (hl : m.lookahead = some (.token view)) (next : StateId) :
    Follows p tokens (Parser.shift { m with forced := none } next view) saved
      (b.shift next view.timeless) rest where
  timely := (h.timely.shift next view).congr rfl rfl rfl rfl
  fed := by
    have hposition := h.fed.position_le
    rw [hl] at hposition
    exact h.fed.congr rfl rfl rfl hposition h.fed.choices_le
  mirrors := ⟨.cons ⟨rfl, .token view, rfl⟩ h.mirrors.stack,
    congrArg (· + 1) h.mirrors.position, rfl, rfl⟩
  pending := h.pending
  unforced := fun _ => rfl

/-- A reduction takes the branch along. -/
theorem reduce {r : RuleId} {b' : Branch τ} (h : Follows p tokens m saved b rest)
    (hr : p.reduce m r = .done m') (hmirrors : Mirrors p.maker m' b') :
    Follows p tokens m' saved b' rest := by
  have htimely := h.timely.reduce hr
  obtain ⟨shape, priority, node, memory, next, -, -, -, -, -, rfl⟩ := Parser.reduce_done hr
  exact ⟨htimely, h.fed.congr rfl rfl rfl h.fed.position_le h.fed.choices_le, hmirrors, h.pending,
    h.unforced⟩

/-- Without a way left, nothing is pending. -/
theorem rest_eq_nil (h : Follows p tokens m saved b rest) (hnone : nextWay? m.choices = none) :
    rest = [] := by
  have hpending := h.pending
  cases hchoices : m.choices with
  | nil =>
    rw [hchoices] at hpending
    cases hpending
    rfl
  | cons c outer =>
    obtain ⟨way, others, hpop⟩ :=
      OpenWays.exists_pop? (h.timely.ways c (hchoices ▸ List.mem_cons_self))
    rw [hchoices, nextWay?, hpop] at hnone
    cases hnone

/-- Going back from a dead end leads to the first of the pending branches. -/
theorem back {deadEnd : DeadEnd} (h : Follows p tokens m saved b rest)
    (hback : Machine.backtrack? { m with farthest := some deadEnd } = some m') :
    ∃ saved' b' rest', rest = b' :: rest' ∧ Follows p tokens m' saved' b' rest' := by
  have htimely : Timely { m with farthest := some deadEnd } saved :=
    h.timely.congr rfl rfl rfl rfl
  obtain ⟨c, s, earlier, way, others, hchoices, rfl, hpop, -, rfl, htimely'⟩ :=
    htimely.backtrack hback
  have hpending := h.pending
  have hchoices_le := h.fed.choices_le
  change m.choices = c :: s.choices at hchoices
  rw [hchoices] at hpending hchoices_le
  obtain ⟨branches, rest', rfl, hoffers, houter⟩ := hpending.innermost
  rw [OpenWays.toList_of_pop? hpop, List.forall₂_cons_left_iff] at hoffers
  obtain ⟨b', branches', hb', hbranches', rfl⟩ := hoffers
  obtain ⟨hchoice_le, houter_le⟩ := List.forall_mem_cons.mp hchoices_le
  refine ⟨_, b', branches' ++ rest', rfl, htimely', ?_, mirrors_backAt hb', ?_, ?_⟩
  · refine h.fed.congr rfl rfl rfl ?_ ?_
    · cases way with
      | action a => exact hchoice_le
      | reading r => simpa [Machine.backAt] using hchoice_le
    · cases hothers : others.isEmpty with
      | true =>
        simp only [Machine.backAt, hothers, if_true]
        exact houter_le
      | false =>
        simp only [Machine.backAt, hothers, Bool.false_eq_true, if_false]
        exact List.forall_mem_cons.mpr ⟨hchoice_le, houter_le⟩
  · cases hothers : others.isEmpty with
    | true =>
      rw [OpenWays.toList_eq_nil hothers, List.forall₂_nil_left_iff] at hbranches'
      simp only [Machine.backAt, hothers, if_true]
      rw [hbranches', List.nil_append]
      exact houter
    | false =>
      simp only [Machine.backAt, hothers, Bool.false_eq_true, if_false]
      refine .cons (hbranches'.imp ?_) houter
      exact fun _ _ hoffer => ⟨hoffer.stack, hoffer.position, hoffer.lookahead, hoffer.forced⟩
  · intro hnone
    cases way <;> cases hnone

end Follows

end OperatorLALR
