import Mathlib.Logic.Relation
import OperatorLALR.Parser.Run
import OperatorLALR.Proofs.Traversal

/-!
# The moves of a step

A step that does not end the parse decides on a reading (`Looked`), unless that has been done, and
then makes one move (`Moved`): it shifts, reduces, goes on with the first of some candidates, or
returns from a dead end to a choice point. Both list all that the parser has checked on the way.
-/

namespace OperatorLALR.Parser

variable {τ ν β ε σ : Type}

/-- Reading touches the buffer, the source and the mark at its end only. -/
theorem readToken_eq {m b : Machine τ ν ε σ} {r : Except ε (Option τ)} (h : readToken m = (r, b)) :
    ∃ pulled source exhausted,
      b = { m with pulled := pulled, source := source, exhausted := exhausted } := by
  unfold readToken at h
  split at h
  · exact ⟨m.pulled, m.source, m.exhausted, (Prod.mk.inj h).2.symm⟩
  · split at h
    · exact ⟨m.pulled, m.source, m.exhausted, (Prod.mk.inj h).2.symm⟩
    · split at h
      · exact ⟨m.pulled, m.source, true, (Prod.mk.inj h).2.symm⟩
      · exact ⟨m.pulled ++ [_], _, m.exhausted, (Prod.mk.inj h).2.symm⟩
      · exact ⟨m.pulled, _, m.exhausted, (Prod.mk.inj h).2.symm⟩

/-- A choice point is left with a new time and the current position. -/
theorem leaveChoice_ok {p : Parser τ ν β σ} {m m' : Machine τ ν ε σ} {lookahead : Lookahead τ}
    {ways : OpenWays} (h : p.leaveChoice m lookahead ways = .ok m') :
    ∃ depth, m' = { m with
      clock := m.clock + 1
      choices := ⟨m.clock + 1, m.position, lookahead, ways⟩ :: m.choices
      counts := { m.counts with
        choicePoints := m.counts.choicePoints + 1, maxChoiceDepth := depth } } := by
  unfold leaveChoice at h
  split at h
  · exact absurd h (by simp)
  · exact ⟨_, (Except.ok.inj h).symm⟩

/-- The limit is the only thing that keeps a choice point from being left. -/
theorem leaveChoice_error {p : Parser τ ν β σ} {m : Machine τ ν ε σ} {lookahead : Lookahead τ}
    {ways : OpenWays} {e : ParseError ε β} (h : p.leaveChoice m lookahead ways = .error e) :
    ∃ depth, e = .choiceLimit depth := by
  unfold leaveChoice at h
  split at h
  · exact ⟨_, (Except.error.inj h).symm⟩
  · cases h

/-- The actions that an undecided action leaves open: those kept by the ranking, or all in the order
of the table. -/
def openActions (p : Parser τ ν β σ) (stack : List (StackEntry τ ν)) (lookahead : Lookahead τ) :
    Action → Option (List Action)
  | .dynamic d => (p.rank (ε := Empty) stack d lookahead).toOption
  | .choice d => p.table.candidates d
  | _ => none

/-- The candidates of a list with the operators in their handles, if the rules of all are known. -/
theorem rank_eq_ok_iff {p : Parser τ ν β σ} {stack : List (StackEntry τ ν)} {d : CandidatesId}
    {lookahead : Lookahead τ} {as : List Action} :
    p.rank (ε := ε) stack d lookahead = .ok as ↔
      ∃ actions candidates, p.table.candidates d = some actions ∧
        List.Forall₂ (fun a c => p.candidate (ε := ε) stack a = .ok c) actions candidates ∧
        Candidate.rank lookahead.operator? candidates = as := by
  unfold rank
  split
  · next hd => simp [hd]
  · next actions hd =>
    rw [hd]
    constructor
    · intro h
      cases hc : actions.mapM (p.candidate (ε := ε) stack) with
      | error e =>
        rw [hc] at h
        cases h
      | ok candidates =>
        rw [hc] at h
        exact ⟨actions, candidates, rfl, mapM_eq_ok_iff.mp hc, Except.ok.inj h⟩
    · rintro ⟨actions', candidates, hactions, hc, rfl⟩
      obtain rfl := Option.some.inj hactions
      rw [mapM_eq_ok_iff.mpr hc]
      rfl

/-- The operator in a handle does not depend on how a source of tokens may fail. -/
theorem candidate_eq_ok_iff {δ : Type} {p : Parser τ ν β σ} {stack : List (StackEntry τ ν)}
    {a : Action} {c : Candidate} :
    p.candidate (ε := ε) stack a = .ok c ↔ p.candidate (ε := δ) stack a = .ok c := by
  cases a with
  | reduce r =>
    simp only [candidate]
    cases p.table.rule r <;> simp
  | _ => simp [candidate]

/-- The ranking keeps the actions that are left open, however the source of tokens may fail. -/
theorem openActions_dynamic {p : Parser τ ν β σ} {stack : List (StackEntry τ ν)}
    {d : CandidatesId} {lookahead : Lookahead τ} {as : List Action} :
    p.openActions stack lookahead (.dynamic d) = some as ↔
      p.rank (ε := ε) stack d lookahead = .ok as := by
  have hsome : p.openActions stack lookahead (.dynamic d) = some as ↔
      p.rank (ε := Empty) stack d lookahead = .ok as := by
    rw [openActions]
    cases p.rank (ε := Empty) stack d lookahead <;> simp [Except.toOption]
  rw [hsome, rank_eq_ok_iff, rank_eq_ok_iff]
  simp only [candidate_eq_ok_iff (ε := Empty) (δ := ε)]

/-- What a reduction has checked when it succeeds, and the machine after it. -/
theorem reduce_done {p : Parser τ ν β σ} {m m' : Machine τ ν ε σ} {r : RuleId}
    (h : p.reduce m r = .done m') :
    ∃ shape priority node memory next,
      p.table.rule r = some shape ∧ shape.length ≤ m.stack.length ∧
      nodePriority? shape (m.stack.take shape.length).reverse = some priority ∧
      p.maker.reduce r ((m.stack.take shape.length).reverse.map StackEntry.item) m.memory =
        (.ok node, memory) ∧
      p.table.goto (p.stateOn (m.stack.drop shape.length)) shape.left = some next ∧
      m' = pushNode { m with memory := memory } r (m.stack.take shape.length).reverse
        (m.stack.drop shape.length) next node priority := by
  unfold reduce at h
  split at h
  · exact absurd h (by simp)
  · next shape hrule =>
    split at h
    · exact absurd h (by simp)
    · next hlength =>
      dsimp only at h
      split at h
      · exact absurd h (by simp)
      · next priority hpriority =>
        split at h
        · exact absurd h (by simp)
        · next node memory hmake =>
          split at h
          · exact absurd h (by simp)
          · next next hgoto =>
            exact ⟨shape, priority, node, memory, next, hrule, Nat.le_of_not_lt hlength, hpriority,
              hmake, hgoto, (Attempt.done.inj h).symm⟩

/-- A reduction is refused by the operator in its handle only, and then nothing has changed. -/
theorem reduce_refused {p : Parser τ ν β σ} {m m' : Machine τ ν ε σ} {r : RuleId}
    (h : p.reduce m r = .refused m') :
    m' = m ∧ ∃ shape, p.table.rule r = some shape ∧
      nodePriority? shape (m.stack.take shape.length).reverse = none := by
  unfold reduce at h
  split at h
  · exact absurd h (by simp)
  · next shape hrule =>
    split at h
    · exact absurd h (by simp)
    · dsimp only at h
      split at h
      · next hpriority => exact ⟨(Attempt.refused.inj h).symm, shape, hrule, hpriority⟩
      · split at h
        · exact absurd h (by simp)
        · split at h <;> exact absurd h (by simp)

/-- A machine from which there is no way on with an action. -/
inductive Stuck (p : Parser τ ν β σ) (lookahead : Lookahead τ) (m : Machine τ ν ε σ) : Action → Prop
  /-- The table refuses the lookahead. -/
  | error : Stuck p lookahead m .error
  /-- The operator in the handle does not accept its arguments. -/
  | refused {r : RuleId} (h : p.reduce m r = .refused m) : Stuck p lookahead m (.reduce r)
  /-- No candidate is left open. -/
  | noneOpen {a : Action} (h : p.openActions m.stack lookahead a = some []) : Stuck p lookahead m a

section Tokens

variable [Token τ]

/-- A machine that some number of steps leads to. -/
def Reaches (p : Parser τ ν β σ) : Machine τ ν ε σ → Machine τ ν ε σ → Prop :=
  Relation.ReflTransGen fun m m' => p.step m = .next m'

/-- A run that ends does so by a step from a machine that it reaches. -/
theorem run_eq_some {p : Parser τ ν β σ} {n : Nat} {m last : Machine τ ν ε σ}
    {r : Except (ParseError ε β) ν} (h : p.run n m = some (r, last)) :
    ∃ m', p.Reaches m m' ∧ p.step m' = .halt r last := by
  induction n generalizing m with
  | zero => exact absurd h (by simp [run])
  | succ n ih =>
    rw [run] at h
    cases hs : p.step m with
    | next m₁ =>
      rw [hs] at h
      obtain ⟨m', hreach, hstep⟩ := ih h
      exact ⟨m', .head hs hreach, hstep⟩
    | halt r' m₁ =>
      rw [hs] at h
      obtain ⟨rfl, rfl⟩ := Prod.mk.inj (Option.some.inj h)
      exact ⟨m, .refl, hs⟩

/-- The ways in which the reading of the next token is decided. -/
inductive Looked (p : Parser τ ν β σ) (m : Machine τ ν ε σ) :
    Lookahead τ → Machine τ ν ε σ → Prop
  /-- It had been decided before. -/
  | known {lookahead : Lookahead τ} (h : m.lookahead = some lookahead) : Looked p m lookahead m
  /-- No token is left. -/
  | ended {b : Machine τ ν ε σ} (h : m.lookahead = none) (hread : readToken m = (.ok none, b)) :
      Looked p m .inputEnd { b with lookahead := some .inputEnd }
  /-- The state accepts one reading only. -/
  | single {b : Machine τ ν ε σ} {token : τ} {reading : Reading} (h : m.lookahead = none)
      (hread : readToken m = (.ok (some token), b))
      (hways : p.readings (p.stateOn m.stack) token = [reading]) :
      Looked p m (.token ⟨token, reading, b.position, b.clock⟩)
        { b with lookahead := some (.token ⟨token, reading, b.position, b.clock⟩) }
  /-- The state accepts several readings, and a choice point keeps all but the first. -/
  | several {b b' : Machine τ ν ε σ} {token : τ} {reading other : Reading} {others : List Reading}
      (h : m.lookahead = none) (hread : readToken m = (.ok (some token), b))
      (hways : p.readings (p.stateOn m.stack) token = reading :: other :: others)
      (hleave : p.leaveChoice b (.token ⟨token, reading, b.position, b.clock⟩)
        (.readings (other :: others)) = .ok b') :
      Looked p m (.token ⟨token, reading, b.position, b'.clock⟩)
        { b' with lookahead := some (.token ⟨token, reading, b.position, b'.clock⟩) }

/-- After a look the lookahead is known. -/
theorem Looked.lookahead_eq {p : Parser τ ν β σ} {m m₁ : Machine τ ν ε σ} {lookahead : Lookahead τ}
    (h : Looked p m lookahead m₁) : m₁.lookahead = some lookahead := by
  cases h with
  | known h => exact h
  | ended => rfl
  | single => rfl
  | several => rfl

/-- A look leaves the stack, the trail and the position as they are, and does not backtrack. -/
theorem Looked.frame {p : Parser τ ν β σ} {m m₁ : Machine τ ν ε σ} {lookahead : Lookahead τ}
    (h : Looked p m lookahead m₁) :
    m₁.stack = m.stack ∧ m₁.trail = m.trail ∧ m₁.position = m.position ∧
      m₁.counts.backtracks = m.counts.backtracks := by
  cases h with
  | known => exact ⟨rfl, rfl, rfl, rfl⟩
  | ended hnone hread | single hnone hread =>
    obtain ⟨pulled, source, exhausted, rfl⟩ := readToken_eq hread
    exact ⟨rfl, rfl, rfl, rfl⟩
  | several hnone hread hways hleave =>
    obtain ⟨depth, rfl⟩ := leaveChoice_ok hleave
    obtain ⟨pulled, source, exhausted, rfl⟩ := readToken_eq hread
    exact ⟨rfl, rfl, rfl, rfl⟩

/-- A look that succeeds has decided on a lookahead. -/
theorem looked_of_done {p : Parser τ ν β σ} {m m₁ : Machine τ ν ε σ}
    (h : p.look (p.stateOn m.stack) m = .done m₁) :
    ∃ lookahead, m₁.lookahead = some lookahead ∧ Looked p m lookahead m₁ := by
  unfold look at h
  split at h
  · next hl =>
    obtain rfl := Attempt.done.inj h
    exact ⟨_, hl, .known hl⟩
  · next hl =>
    split at h
    · exact absurd h (by simp)
    · next hread =>
      obtain rfl := Attempt.done.inj h
      exact ⟨_, rfl, .ended hl hread⟩
    · next token b hread =>
      cases hways : p.readings (p.stateOn m.stack) token with
      | nil => simp [hways] at h
      | cons reading others =>
        cases others with
        | nil =>
          simp only [hways] at h
          obtain rfl := Attempt.done.inj h
          exact ⟨_, rfl, .single hl hread hways⟩
        | cons other others =>
          simp only [hways] at h
          split at h
          · exact absurd h (by simp)
          · next hleave =>
            obtain rfl := Attempt.done.inj h
            exact ⟨_, rfl, .several hl hread hways hleave⟩

/-- A look that decides on a lookahead succeeds. -/
theorem Looked.look_eq {p : Parser τ ν β σ} {m m₁ : Machine τ ν ε σ} {lookahead : Lookahead τ}
    (h : Looked p m lookahead m₁) :
    p.look (p.stateOn m.stack) m = .done m₁ := by
  unfold look
  cases h with
  | known h => rw [h]
  | ended h hread => rw [h, hread]
  | single h hread hways =>
    rw [h, hread]
    dsimp only
    rw [hways]
  | several h hread hways hleave =>
    rw [h, hread]
    dsimp only
    rw [hways]
    dsimp only
    rw [hleave]

/-- A look is refused where the state accepts no reading of the next token. -/
theorem look_refused {p : Parser τ ν β σ} {m b : Machine τ ν ε σ}
    (h : p.look (p.stateOn m.stack) m = .refused b) :
    m.lookahead = none ∧ ∃ token, readToken m = (.ok (some token), b) ∧
      p.readings (p.stateOn m.stack) token = [] := by
  unfold look at h
  split at h
  · exact absurd h (by simp)
  · next hl =>
    split at h
    · exact absurd h (by simp)
    · exact absurd h (by simp)
    · next token b' hread =>
      cases hways : p.readings (p.stateOn m.stack) token with
      | nil =>
        simp only [hways] at h
        obtain rfl := Attempt.refused.inj h
        exact ⟨hl, token, hread, hways⟩
      | cons reading others =>
        cases others with
        | nil => simp [hways] at h
        | cons other others =>
          simp only [hways] at h
          split at h <;> exact absurd h (by simp)

/-- A failure to read rejects no input. -/
theorem look_failed {p : Parser τ ν β σ} {q : StateId} {m b : Machine τ ν ε σ}
    {e : ParseError ε β} (h : p.look q m = .failed e b) : e.isRejection = false := by
  unfold look at h
  split at h
  · cases h
  · split at h
    · rw [← (Attempt.failed.inj h).1]
      rfl
    · cases h
    · split at h
      · cases h
      · cases h
      · dsimp only at h
        split at h
        · next hleave =>
          obtain ⟨depth, hdepth⟩ := leaveChoice_error hleave
          rw [← (Attempt.failed.inj h).1, hdepth]
          rfl
        · cases h

/-- The moves that carry out an action on a lookahead. -/
inductive Moved (p : Parser τ ν β σ) (lookahead : Lookahead τ) (m : Machine τ ν ε σ) :
    Action → Machine τ ν ε σ → Prop
  /-- The lookahead goes on the stack. -/
  | shift {next : StateId} {view : TokenView τ} (h : lookahead = .token view) :
      Moved p lookahead m (.shift next) (shift m next view)
  /-- The handle of a rule becomes a node. -/
  | reduce {r : RuleId} {m' : Machine τ ν ε σ} (h : p.reduce m r = .done m') :
      Moved p lookahead m (.reduce r) m'
  /-- One candidate only is left open. -/
  | only {a first : Action} (h : p.openActions m.stack lookahead a = some [first]) :
      Moved p lookahead m a { m with forced := some first }
  /-- Several candidates are left open, and a choice point keeps all but the first. -/
  | branch {a first other : Action} {others : List Action} {b : Machine τ ν ε σ}
      (h : p.openActions m.stack lookahead a = some (first :: other :: others))
      (hleave : p.leaveChoice m lookahead (.actions (other :: others)) = .ok b) :
      Moved p lookahead m a { b with forced := some first }
  /-- A dead end is left for the innermost choice point. -/
  | back {a : Action} {m' : Machine τ ν ε σ} {deadEnd : DeadEnd} (h : Stuck p lookahead m a)
      (hback : Machine.backtrack? { m with farthest := some deadEnd } = some m') :
      Moved p lookahead m a m'

/-- A retreat goes on at a choice point. -/
theorem retreat_next {p : Parser τ ν β σ} {q : StateId} {m m' : Machine τ ν ε σ}
    (h : p.retreat q m = .next m') :
    ∃ deadEnd, Machine.backtrack? { m with farthest := some deadEnd } = some m' := by
  unfold retreat at h
  dsimp only at h
  split at h
  · next hback => exact ⟨_, hback.trans (congrArg some (StepResult.next.inj h))⟩
  · exact absurd h (by simp)

/-- A retreat without a choice point rejects the input. -/
theorem retreat_halt {p : Parser τ ν β σ} {q : StateId} {m last : Machine τ ν ε σ}
    {r : Except (ParseError ε β) ν} (h : p.retreat q m = .halt r last) :
    nextWay? m.choices = none ∧ ∃ d : DeadEnd,
      r = .error (.rejected d.position d.lookahead (p.table.expected d.state)) := by
  unfold retreat at h
  dsimp only at h
  split at h
  · exact absurd h (by simp)
  · next hback =>
    obtain ⟨rfl, rfl⟩ := StepResult.halt.inj h
    exact ⟨Option.map_eq_none_iff.mp hback, _, rfl⟩

/-- The action that a machine is about to carry out. -/
def nextAction (p : Parser τ ν β σ) (m : Machine τ ν ε σ) (lookahead : Lookahead τ) : Action :=
  m.forced.getD (p.table.action (p.stateOn m.stack) lookahead.terminal)

/-- A look does not change what state is on top. -/
theorem Looked.nextAction_eq {p : Parser τ ν β σ} {m m₁ : Machine τ ν ε σ}
    {lookahead : Lookahead τ} (h : Looked p m lookahead m₁) :
    p.nextAction m₁ lookahead =
      m₁.forced.getD (p.table.action (p.stateOn m.stack) lookahead.terminal) := by
  rw [nextAction, h.frame.1]

end Tokens

end OperatorLALR.Parser
