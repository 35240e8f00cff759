import OperatorLALR.Proofs.Parser.Steps

/-!
# What a parser asks of its source

A step asks the source for a token only if the lookahead has not been decided, the token at the
current position has not been read, and the end has not been found. Any other step does not depend
on what the source holds (`step_withSource`). Each request is answered by one token or by the end,
so that their number is told by what has been read (`ReachesAsking.answers`): no token is asked for
twice, and nothing behind the end.
-/

namespace OperatorLALR

variable {τ ν β ε σ : Type}

namespace Machine

/-- Whether what stands at the current position is not known yet. -/
def isBehindInput (m : Machine τ ν ε σ) : Bool := m.currentToken?.isNone && !m.exhausted

/-- Whether the next step asks the source for a token. -/
def asks (m : Machine τ ν ε σ) : Bool := m.lookahead.isNone && m.isBehindInput

/-- The number of answers that the source has given: tokens, and the end. -/
def answers (m : Machine τ ν ε σ) : Nat := m.pulled.length + m.exhausted.toNat

/-- Without a decided lookahead, the next step asks for a token that is not known yet. -/
theorem asks_of_lookahead {m : Machine τ ν ε σ} (h : m.lookahead = none) :
    m.asks = m.isBehindInput := by
  rw [asks, h, Option.isNone_none, Bool.true_and]

/-- The machine over another source. -/
def withSource (m : Machine τ ν ε σ) (source : List (Except ε τ)) : Machine τ ν ε σ :=
  { m with source := source }

end Machine

/-- What a part of a step gives, over another source. -/
def Attempt.withSource (source : List (Except ε τ)) :
    Attempt τ ν ε β σ → Attempt τ ν ε β σ
  | .done m => .done (m.withSource source)
  | .refused m => .refused (m.withSource source)
  | .failed e m => .failed e (m.withSource source)

/-- What a step gives, over another source. -/
def StepResult.withSource (source : List (Except ε τ)) :
    StepResult τ ν ε β σ → StepResult τ ν ε β σ
  | .next m => .next (m.withSource source)
  | .halt result m => .halt result (m.withSource source)

namespace Parser

variable {p : Parser τ ν β σ} {m m' : Machine τ ν ε σ} (source : List (Except ε τ))

/-- A token that has been read is read again without the source, and so is the end. -/
theorem readToken_withSource (h : m.isBehindInput = false) :
    readToken (m.withSource source) =
      ((readToken m).1, (readToken m).2.withSource source) := by
  unfold Machine.isBehindInput at h
  unfold readToken Machine.currentToken? Machine.withSource
  dsimp only
  cases htoken : m.pulled[m.position]? with
  | some token => rfl
  | none =>
    have hexhausted : m.exhausted = true := by simpa [Machine.currentToken?, htoken] using h
    dsimp only
    rw [if_pos hexhausted, if_pos hexhausted]

/-- A choice point does not depend on the source. -/
theorem leaveChoice_withSource (m : Machine τ ν ε σ) (lookahead : Lookahead τ) (ways : OpenWays) :
    p.leaveChoice (m.withSource source) lookahead ways =
      (p.leaveChoice m lookahead ways).map fun m => m.withSource source := by
  unfold leaveChoice Machine.withSource
  dsimp only
  cases p.maxChoiceDepth.filter fun depth => depth ≤ m.choices.length <;> rfl

/-- A token that is asked for is the first of the source, and the rest is left. -/
theorem readToken_withSource_cons {token : Except ε τ} {rest : List (Except ε τ)}
    (h : m.isBehindInput = true) (hsource : m.source = token :: rest) :
    readToken (m.withSource (token :: source)) =
      ((readToken m).1, (readToken m).2.withSource source) := by
  obtain ⟨hnone, hexhausted⟩ := Bool.and_eq_true_iff.mp h
  have htoken : m.currentToken? = none := Option.isNone_iff_eq_none.mp hnone
  have htoken' : (m.withSource (token :: source)).currentToken? = none := htoken
  have hgoing : m.exhausted = false := by simpa using hexhausted
  have hgoing' : (m.withSource (token :: source)).exhausted = false := hgoing
  rw [readToken, readToken, htoken, htoken', hgoing, hgoing', hsource]
  cases token <;> rfl

/-- The reading of the next token depends on the source through the token only. -/
theorem look_withSource_of_read [Token τ] {before after : List (Except ε τ)} (q : StateId)
    (hnone : m.lookahead = none)
    (hread : readToken (m.withSource before) =
      ((readToken m).1, (readToken m).2.withSource after)) :
    p.look q (m.withSource before) = (p.look q m).withSource after := by
  have hnone' : (m.withSource before).lookahead = none := hnone
  rw [look, look, hnone, hnone']
  dsimp only
  rw [hread]
  rcases readToken m with ⟨e | _ | token, b⟩
  · rfl
  · rfl
  · dsimp only
    rcases p.readings q token with _ | ⟨reading, _ | ⟨other, others⟩⟩
    · rfl
    · rfl
    · have hleave := leaveChoice_withSource (p := p) after b
        (.token ⟨token, reading, b.position, b.clock⟩) (.readings (other :: others))
      change p.leaveChoice (b.withSource after)
        (.token ⟨token, reading, (b.withSource after).position, (b.withSource after).clock⟩)
        (.readings (other :: others)) = _ at hleave
      dsimp only
      rw [hleave]
      cases p.leaveChoice b (.token ⟨token, reading, b.position, b.clock⟩)
        (.readings (other :: others)) <;> rfl

/-- The reading of the next token is decided without the source, unless it has to be asked for. -/
theorem look_withSource [Token τ] (q : StateId) (h : m.asks = false) :
    p.look q (m.withSource source) = (p.look q m).withSource source := by
  cases hl : m.lookahead with
  | some lookahead =>
    have hl' : (m.withSource source).lookahead = some lookahead := hl
    rw [look, look, hl, hl']
    rfl
  | none =>
    have hread : m.isBehindInput = false := Machine.asks_of_lookahead hl ▸ h
    exact look_withSource_of_read q hl (readToken_withSource source hread)

/-- To try actions in turn does not depend on the source. -/
theorem tryInTurn_withSource (m : Machine τ ν ε σ) (lookahead : Lookahead τ) (as : List Action) :
    p.tryInTurn (m.withSource source) lookahead as =
      (p.tryInTurn m lookahead as).withSource source := by
  rcases as with _ | ⟨a, _ | ⟨other, others⟩⟩
  · rfl
  · rfl
  · simp only [tryInTurn]
    rw [leaveChoice_withSource]
    cases p.leaveChoice m lookahead (.actions (other :: others)) <;> rfl

/-- A reduction does not depend on the source. -/
theorem reduce_withSource (m : Machine τ ν ε σ) (r : RuleId) :
    p.reduce (m.withSource source) r = (p.reduce m r).withSource source := by
  unfold reduce Machine.withSource
  dsimp only
  cases p.table.rule r with
  | none => rfl
  | some shape =>
    dsimp only
    split
    · rfl
    · cases nodePriority? shape (m.stack.take shape.length).reverse with
      | none => rfl
      | some priority =>
        dsimp only
        rcases p.maker.reduce r ((m.stack.take shape.length).reverse.map StackEntry.item)
          m.memory with ⟨e | node, memory⟩
        · rfl
        · dsimp only
          cases p.table.goto (p.stateOn (m.stack.drop shape.length)) shape.left <;> rfl

/-- Acceptance does not depend on the source. -/
theorem accept_withSource (m : Machine τ ν ε σ) :
    accept (m.withSource source) =
      (accept m : StepResult τ ν ε β σ).withSource source := by
  unfold accept Machine.withSource
  dsimp only
  rcases m.stack with _ | ⟨⟨q, _ | node, priority, stamp⟩, below⟩ <;> rfl

variable [Token τ]

/-- A retreat does not depend on the source. -/
theorem retreat_withSource (q : StateId) (m : Machine τ ν ε σ) :
    p.retreat q (m.withSource source) = (p.retreat q m).withSource source := by
  unfold retreat Machine.backtrack? Machine.withSource
  dsimp only
  cases nextWay? m.choices <;> rfl

/-- To go on after a part of a step does not depend on the source. -/
theorem proceed_withSource (q : StateId) (attempt : Attempt τ ν ε β σ) :
    p.proceed q (attempt.withSource source) = (p.proceed q attempt).withSource source := by
  cases attempt with
  | done m => rfl
  | refused m => exact retreat_withSource source q m
  | failed e m => rfl

/-- To carry out an action does not depend on the source. -/
theorem perform_withSource (q : StateId) (lookahead : Lookahead τ) (m : Machine τ ν ε σ)
    (a : Action) :
    p.perform q lookahead (m.withSource source) a =
      (p.perform q lookahead m a).withSource source := by
  cases a with
  | shift next => cases lookahead <;> rfl
  | reduce r => rw [perform, perform, reduce_withSource, proceed_withSource]
  | accept => exact accept_withSource source m
  | dynamic d =>
    have hstack : (m.withSource source).stack = m.stack := rfl
    rw [perform, perform, hstack]
    cases p.rank (ε := ε) m.stack d lookahead with
    | error e => rfl
    | ok candidates =>
      dsimp only
      rw [tryInTurn_withSource, proceed_withSource]
  | choice d =>
    rw [perform, perform]
    cases p.table.candidates d with
    | none => rfl
    | some candidates =>
      dsimp only
      rw [tryInTurn_withSource, proceed_withSource]
  | error => exact retreat_withSource source q m

/-- A step depends on the source through its look only. -/
theorem step_withSource_of_look {before after : List (Except ε τ)}
    (hlook : p.look (p.stateOn m.stack) (m.withSource before) =
      (p.look (p.stateOn m.stack) m).withSource after) :
    p.step (m.withSource before) = (p.step m).withSource after := by
  have hstack : (m.withSource before).stack = m.stack := rfl
  rw [step, step, hstack]
  dsimp only
  rw [hlook]
  cases p.look (p.stateOn m.stack) m with
  | failed e b => rfl
  | refused b => exact retreat_withSource after _ b
  | done b => exact perform_withSource after _ _ { b with forced := none } _

/-- A step that does not ask the source for a token does not depend on what it holds. -/
theorem step_withSource (h : m.asks = false) :
    p.step (m.withSource source) = (p.step m).withSource source :=
  step_withSource_of_look (look_withSource source _ h)

/-- A step depends on no more of the source than the token that it takes from it, if it asks for one
and there is one. -/
theorem step_reads (h : m.asks = true → m.source ≠ []) :
    ∃ read left, m.source = read ++ left ∧
      ∀ rest, p.step (m.withSource (read ++ rest)) = (p.step m).withSource rest := by
  cases hasks : m.asks with
  | false => exact ⟨[], m.source, rfl, fun rest => step_withSource rest hasks⟩
  | true =>
    obtain ⟨token, left, hsource⟩ := List.exists_cons_of_ne_nil (h hasks)
    obtain ⟨hnone, hbehind⟩ := Bool.and_eq_true_iff.mp hasks
    exact ⟨[token], left, hsource, fun rest => step_withSource_of_look
      (look_withSource_of_read _ (Option.isNone_iff_eq_none.mp hnone)
        (readToken_withSource_cons rest hbehind hsource))⟩

/-- A run in which no request finds the source empty depends on no more of it than what it takes. -/
theorem run_withSource {n : Nat} {last : Machine τ ν ε σ} {r : Except (ParseError ε β) ν}
    (hrun : p.run n m = some (r, last))
    (hasks : ∀ b, p.Reaches m b → b.asks = true → b.source ≠ []) :
    ∃ read, m.source = read ++ last.source ∧
      ∀ rest, p.run n (m.withSource (read ++ rest)) = some (r, last.withSource rest) := by
  induction n generalizing m with
  | zero => cases hrun
  | succ n ih =>
    obtain ⟨read, left, hsource, hread⟩ := step_reads (p := p) (hasks m .refl)
    have hsame : p.step m = (p.step m).withSource left := by
      have hleft := hread left
      rw [← hsource] at hleft
      exact hleft
    rw [run] at hrun
    cases hstep : p.step m with
    | next m₁ =>
      rw [hstep] at hrun hread hsame
      obtain ⟨read₁, hsource₁, hread₁⟩ := ih hrun fun b hb => hasks b (.head hstep hb)
      have hleft : left = m₁.source :=
        (congrArg Machine.source (StepResult.next.inj hsame)).symm
      refine ⟨read ++ read₁, ?_, fun rest => ?_⟩
      · rw [hsource, hleft, hsource₁, List.append_assoc]
      · rw [List.append_assoc, run, hread]
        exact hread₁ rest
    | halt r' last' =>
      rw [hstep] at hrun hread hsame
      obtain ⟨rfl, rfl⟩ := Prod.mk.inj (Option.some.inj hrun)
      have hleft : left = last'.source :=
        (congrArg Machine.source (StepResult.halt.inj hsame).2).symm
      refine ⟨read, hleft ▸ hsource, fun rest => ?_⟩
      rw [run, hread]
      rfl

/-- A run from a machine to another, with the number of its steps that ask for a token. -/
inductive ReachesAsking (p : Parser τ ν β σ) (first : Machine τ ν ε σ) :
    Nat → Machine τ ν ε σ → Prop
  | start : ReachesAsking p first 0 first
  | step {k : Nat} {m m' : Machine τ ν ε σ} (h : ReachesAsking p first k m)
      (hstep : p.step m = .next m') : ReachesAsking p first (k + m.asks.toNat) m'

variable {first : Machine τ ν ε σ} {k : Nat}

/-- A run is one whether or not the requests are counted. -/
theorem reaches_iff_asking : p.Reaches first m ↔ ∃ k, p.ReachesAsking first k m := by
  constructor
  · intro h
    induction h with
    | refl => exact ⟨0, .start⟩
    | tail _ hstep ih =>
      obtain ⟨k, hk⟩ := ih
      exact ⟨_, hk.step hstep⟩
  · rintro ⟨k, h⟩
    induction h with
    | start => exact .refl
    | step _ hstep ih => exact ih.tail hstep

omit [Token τ] in
/-- A request is answered by one token or by the end. -/
theorem answers_of_readToken {read : Option τ} (h : readToken m = (.ok read, m')) :
    m'.answers = m.answers + m.isBehindInput.toNat := by
  unfold Machine.answers Machine.isBehindInput
  unfold readToken at h
  split at h
  · next token htoken =>
    obtain ⟨-, rfl⟩ := Prod.mk.inj h
    rw [htoken]
    rfl
  · next htoken =>
    split at h
    · next hexhausted =>
      obtain ⟨-, rfl⟩ := Prod.mk.inj h
      rw [hexhausted, htoken]
      rfl
    · next hexhausted =>
      rw [Bool.not_eq_true] at hexhausted
      rw [hexhausted, htoken]
      split at h
      · obtain ⟨-, rfl⟩ := Prod.mk.inj h
        rfl
      · obtain ⟨-, rfl⟩ := Prod.mk.inj h
        dsimp only
        rw [hexhausted, List.length_append]
        rfl
      · cases (Prod.mk.inj h).1

omit [Token τ] in
/-- To return to a choice point forgets nothing that has been read. -/
theorem backtrack_reads (h : m.backtrack? = some m') :
    m'.pulled = m.pulled ∧ m'.source = m.source ∧ m'.exhausted = m.exhausted := by
  obtain ⟨⟨way, c, pending⟩, -, rfl⟩ := Option.map_eq_some_iff.mp h
  exact ⟨rfl, rfl, rfl⟩

omit [Token τ] in
/-- A move reads nothing and forgets nothing that has been read. -/
theorem Moved.reads {lookahead : Lookahead τ} {a : Action} (h : Moved p lookahead m a m') :
    m'.pulled = m.pulled ∧ m'.source = m.source ∧ m'.exhausted = m.exhausted := by
  cases h with
  | shift | only => exact ⟨rfl, rfl, rfl⟩
  | reduce hr =>
    obtain ⟨shape, priority, node, memory, next, -, -, -, -, -, rfl⟩ := reduce_done hr
    exact ⟨rfl, rfl, rfl⟩
  | branch _ hleave =>
    obtain ⟨depth, rfl⟩ := leaveChoice_ok hleave
    exact ⟨rfl, rfl, rfl⟩
  | back _ hback =>
    have hreads := backtrack_reads hback
    exact hreads

/-- A look is answered if it asks. -/
theorem Looked.answers {lookahead : Lookahead τ} (h : Looked p m lookahead m') :
    m'.answers = m.answers + m.asks.toNat := by
  cases h with
  | known hl => simp [Machine.asks, hl]
  | ended hnone hread | single hnone hread =>
    have hanswers := answers_of_readToken hread
    rw [Machine.asks_of_lookahead hnone]
    exact hanswers
  | several hnone hread hways hleave =>
    have hanswers := answers_of_readToken hread
    obtain ⟨depth, rfl⟩ := leaveChoice_ok hleave
    rw [Machine.asks_of_lookahead hnone]
    exact hanswers

/-- A step that goes on has got an answer if it asks. -/
theorem answers_of_step (h : p.step m = .next m') : m'.answers = m.answers + m.asks.toNat := by
  rcases step_next h with ⟨lookahead, m₁, -, hlooked, hmoved⟩ | ⟨b, deadEnd, hlook, hback⟩
  · obtain ⟨hpulled, -, hexhausted⟩ := hmoved.reads
    rw [← hlooked.answers, Machine.answers, hpulled, hexhausted]
    rfl
  · obtain ⟨hnone, token, hread, -⟩ := look_refused hlook
    obtain ⟨hpulled, -, hexhausted⟩ := backtrack_reads hback
    rw [Machine.asks_of_lookahead hnone, ← answers_of_readToken hread, Machine.answers, hpulled,
      hexhausted]
    rfl

/-- The answers that the source has given in a run are as many as the requests. -/
theorem ReachesAsking.answers (h : p.ReachesAsking first k m) : m.answers = first.answers + k := by
  induction h with
  | start => rfl
  | step _ hstep ih => rw [answers_of_step hstep, ih, Nat.add_assoc]

end Parser

end OperatorLALR
