import OperatorLALR.Proofs.Parser.Moves

/-!
# How a parse fails

A step that ends a parse with an error does so for one of few reasons (`Parser.Failed`): the source
or the maker of nodes has failed, the limit on choice points keeps several ways from being tried,
the input is rejected, or the action cannot be carried out for a defect of the table
(`Parser.Fault`).
-/

namespace OperatorLALR

variable {τ ν β ε σ : Type}

/-- Whether an error lies in the table: the stack does not hold what an action expects, or the table
lacks what an action refers to. -/
def ParseError.blamesTable : ParseError ε β → Bool
  | .unexpectedEnd | .emptyStack | .unexpectedItem => true
  | .missingGoto _ _ | .unknownRule _ | .unknownCandidates _ => true
  | .source _ | .maker _ | .rejected _ _ _ | .choiceLimit _ => false

/-- An input is not rejected for a defect of the table. -/
theorem ParseError.isRejection_of_blamesTable {e : ParseError ε β} (h : e.blamesTable = true) :
    e.isRejection = false := by
  cases e with
  | rejected => cases h
  | _ => rfl

namespace Parser

/-- What keeps an action from being carried out where neither the input nor the operators forbid
it. -/
inductive Fault (p : Parser τ ν β σ) (lookahead : Lookahead τ) (m : Machine τ ν ε σ) :
    Action → Prop
  /-- There is no token to shift. -/
  | shift {next : StateId} (h : lookahead = .inputEnd) : Fault p lookahead m (.shift next)
  /-- The rule of a reduction is unknown. -/
  | rule {r : RuleId} (h : p.table.rule r = none) : Fault p lookahead m (.reduce r)
  /-- The stack is lower than the handle. -/
  | handle {r : RuleId} {shape : RuleShape} (hrule : p.table.rule r = some shape)
      (h : m.stack.length < shape.length) : Fault p lookahead m (.reduce r)
  /-- The state below the handle has no transition. -/
  | goto {r : RuleId} {shape : RuleShape} (hrule : p.table.rule r = some shape)
      (hlength : shape.length ≤ m.stack.length)
      (h : p.table.goto (p.stateOn (m.stack.drop shape.length)) shape.left = none) :
      Fault p lookahead m (.reduce r)
  /-- The result is not a node. -/
  | accept (h : ∀ top below node, m.stack = top :: below → top.item ≠ .node node) :
      Fault p lookahead m .accept
  /-- The list of candidates is unknown. -/
  | candidates {a : Action} {d : CandidatesId} (ha : a = .dynamic d ∨ a = .choice d)
      (h : p.table.candidates d = none) : Fault p lookahead m a
  /-- The rule of a candidate is unknown. -/
  | candidate {d : CandidatesId} {list : List Action} {r : RuleId}
      (hlist : p.table.candidates d = some list) (hr : .reduce r ∈ list)
      (h : p.table.rule r = none) : Fault p lookahead m (.dynamic d)

/-- A choice point is refused only where their number is limited. -/
theorem limit_of_leaveChoice {p : Parser τ ν β σ} {m : Machine τ ν ε σ} {lookahead : Lookahead τ}
    {ways : OpenWays} {e : ParseError ε β} (h : p.leaveChoice m lookahead ways = .error e) :
    p.maxChoiceDepth ≠ none := by
  unfold leaveChoice at h
  split at h
  · next hfilter =>
    intro hnone
    rw [hnone] at hfilter
    cases hfilter
  · cases h

/-- A reduction fails by the maker of nodes, or for a defect of the table. -/
theorem fault_of_reduce {p : Parser τ ν β σ} {m last : Machine τ ν ε σ} {r : RuleId}
    {e : ParseError ε β} (lookahead : Lookahead τ) (h : p.reduce m r = .failed e last) :
    (∃ cause items memory memory', e = .maker cause ∧
      p.maker.reduce r items memory = (.error cause, memory')) ∨
    e.blamesTable = true ∧ Fault p lookahead m (.reduce r) := by
  unfold reduce at h
  split at h
  · next hrule =>
    rw [← (Attempt.failed.inj h).1]
    exact .inr ⟨rfl, .rule hrule⟩
  · next shape hrule =>
    split at h
    · next hlength =>
      rw [← (Attempt.failed.inj h).1]
      exact .inr ⟨rfl, .handle hrule hlength⟩
    · next hlength =>
      dsimp only at h
      split at h
      · cases h
      · split at h
        · next cause memory hmake =>
          exact .inl ⟨cause, _, _, memory, (Attempt.failed.inj h).1.symm, hmake⟩
        · split at h
          · next hgoto =>
            rw [← (Attempt.failed.inj h).1]
            exact .inr ⟨rfl, .goto hrule (Nat.le_of_not_lt hlength) hgoto⟩
          · cases h

/-- A ranking fails for a list or a rule that the table does not know. -/
theorem fault_of_rank {p : Parser τ ν β σ} {m : Machine τ ν ε σ} {d : CandidatesId}
    {lookahead : Lookahead τ} {e : ParseError ε β} (h : p.rank m.stack d lookahead = .error e) :
    e.blamesTable = true ∧ Fault p lookahead m (.dynamic d) := by
  unfold rank at h
  split at h
  · next hlist =>
    rw [← Except.error.inj h]
    exact ⟨rfl, .candidates (.inl rfl) hlist⟩
  · next actions hlist =>
    cases hc : actions.mapM (p.candidate (ε := ε) m.stack) with
    | ok candidates =>
      rw [hc] at h
      cases h
    | error e' =>
      rw [hc] at h
      obtain rfl : e' = e := Except.error.inj h
      obtain ⟨a, hmem, ha⟩ := exists_of_mapM_eq_error hc
      unfold candidate at ha
      split at ha
      · next r =>
        split at ha
        · next hrule =>
          rw [← Except.error.inj ha]
          exact ⟨rfl, .candidate hlist hmem hrule⟩
        · cases ha
      · cases ha

variable [Token τ]

/-- Why the step from a machine ends the parse with an error. -/
inductive Failed (p : Parser τ ν β σ) (m : Machine τ ν ε σ) : ParseError ε β → Prop
  /-- The source has failed to give the next token. -/
  | source {cause : ε} {b : Machine τ ν ε σ} (hread : readToken m = (.error cause, b)) :
      Failed p m (.source cause)
  /-- The maker has failed to make a node. -/
  | maker {cause : β} {r : RuleId} {items : List (HandleItem τ ν)} {memory memory' : σ}
      (h : p.maker.reduce r items memory = (.error cause, memory')) : Failed p m (.maker cause)
  /-- No way is left to try. -/
  | rejected {position : Nat} {lookahead : TerminalId} {expected : List TerminalId} :
      Failed p m (.rejected position lookahead expected)
  /-- Several readings of a token would take one more choice point than the limit allows. -/
  | readings {depth : Nat} {b : Machine τ ν ε σ} {token : τ} {first other : Reading}
      {others : List Reading} (hnone : m.lookahead = none)
      (hread : readToken m = (.ok (some token), b))
      (hways : p.readings (p.stateOn m.stack) token = first :: other :: others)
      (hlimit : p.maxChoiceDepth ≠ none) : Failed p m (.choiceLimit depth)
  /-- Several actions would take one more choice point than the limit allows. -/
  | actions {depth : Nat} {lookahead : Lookahead τ} {m₁ : Machine τ ν ε σ} {first other : Action}
      {others : List Action} (hlooked : Looked p m lookahead m₁)
      (hopen : p.openActions m₁.stack lookahead (p.nextAction m₁ lookahead) =
        some (first :: other :: others))
      (hlimit : p.maxChoiceDepth ≠ none) : Failed p m (.choiceLimit depth)
  /-- The table is at fault. -/
  | table {e : ParseError ε β} {lookahead : Lookahead τ} {m₁ : Machine τ ν ε σ}
      (he : e.blamesTable = true) (hlooked : Looked p m lookahead m₁)
      (hfault : Fault p lookahead { m₁ with forced := none } (p.nextAction m₁ lookahead)) :
      Failed p m e

variable {p : Parser τ ν β σ} {m last : Machine τ ν ε σ} {e : ParseError ε β}

/-- A failure to look is one of the source, or of the limit on choice points. -/
theorem failed_of_look {b : Machine τ ν ε σ} (h : p.look (p.stateOn m.stack) m = .failed e b) :
    Failed p m e := by
  unfold look at h
  split at h
  · cases h
  · next hnone =>
    split at h
    · next cause b' hread =>
      rw [← (Attempt.failed.inj h).1]
      exact .source hread
    · cases h
    · next token b' hread =>
      split at h
      · cases h
      · cases h
      · next reading others hmany hways =>
        dsimp only at h
        split at h
        · next hleave =>
          obtain ⟨depth, rfl⟩ := leaveChoice_error hleave
          rw [← (Attempt.failed.inj h).1]
          cases others with
          | nil => exact absurd rfl hmany
          | cons other others => exact .readings hnone hread hways (limit_of_leaveChoice hleave)
        · cases h

end Parser

end OperatorLALR
