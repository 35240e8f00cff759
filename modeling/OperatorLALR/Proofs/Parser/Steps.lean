import OperatorLALR.Proofs.Parser.Failures

/-!
# What a step does

To carry out an action comes to one of few results (`Parser.Performed`), each with all that the
parser has checked on the way. A step decides on a reading and carries out an action (`step_cases`):
it goes on (`step_next`), ends the parse with the node on top of the stack (`step_accepted`),
rejects the input (`step_rejected`), or fails (`step_failed`). Later proofs need not look into the
definition of a step.
-/

namespace OperatorLALR.Parser

variable {τ ν β ε σ : Type}

/-- What carrying out an action comes to. -/
inductive Performed (p : Parser τ ν β σ) (lookahead : Lookahead τ) (m : Machine τ ν ε σ)
    (a : Action) : StepResult τ ν ε β σ → Prop
  /-- The parse goes on. -/
  | moved {m' : Machine τ ν ε σ} (h : Moved p lookahead m a m') :
      Performed p lookahead m a (.next m')
  /-- The node on top of the stack is the result. -/
  | accepted {top : StackEntry τ ν} {below : List (StackEntry τ ν)} {node : ν}
      {last : Machine τ ν ε σ} (ha : a = .accept) (hstack : m.stack = top :: below)
      (hitem : top.item = .node node) : Performed p lookahead m a (.halt (.ok node) last)
  /-- There is no way on, and none is pending. -/
  | rejected {position : Nat} {seen : TerminalId} {expected : List TerminalId}
      {last : Machine τ ν ε σ} (h : Stuck p lookahead m a) (hnone : nextWay? m.choices = none) :
      Performed p lookahead m a (.halt (.error (.rejected position seen expected)) last)
  /-- The maker has failed to make a node. -/
  | maker {cause : β} {r : RuleId} {items : List (HandleItem τ ν)} {memory memory' : σ}
      {last : Machine τ ν ε σ} (h : p.maker.reduce r items memory = (.error cause, memory')) :
      Performed p lookahead m a (.halt (.error (.maker cause)) last)
  /-- Several actions are left open, and the limit keeps a choice point from being left. -/
  | limit {depth : Nat} {first other : Action} {others : List Action} {last : Machine τ ν ε σ}
      (hopen : p.openActions m.stack lookahead a = some (first :: other :: others))
      (hlimit : p.maxChoiceDepth ≠ none) :
      Performed p lookahead m a (.halt (.error (.choiceLimit depth)) last)
  /-- The table is at fault. -/
  | fault {e : ParseError ε β} {last : Machine τ ν ε σ} (he : e.blamesTable = true)
      (h : Fault p lookahead m a) : Performed p lookahead m a (.halt (.error e) last)

variable [Token τ] {p : Parser τ ν β σ} {lookahead : Lookahead τ} {m : Machine τ ν ε σ}
  {a : Action}

/-- Where there is no way on, the parse goes on at a choice point or rejects the input. -/
theorem Stuck.performed (h : Stuck p lookahead m a) (q : StateId) :
    Performed p lookahead m a (p.retreat q m) := by
  cases hresult : p.retreat q m with
  | next m' =>
    obtain ⟨deadEnd, hback⟩ := retreat_next hresult
    exact .moved (.back h hback)
  | halt r last =>
    obtain ⟨hnone, deadEnd, rfl⟩ := retreat_halt hresult
    exact .rejected h hnone

/-- To carry out an action where there is no way on with it is to retreat. -/
theorem Stuck.perform_eq (h : Stuck p lookahead m a) (q : StateId) :
    p.perform q lookahead m a = p.retreat q m := by
  cases h with
  | error => rfl
  | refused h =>
    rw [perform, h]
    rfl
  | noneOpen h =>
    cases a with
    | dynamic d =>
      rw [perform, openActions_dynamic.mp h]
      rfl
    | choice d =>
      have hcandidates : p.table.candidates d = some [] := h
      rw [perform, hcandidates]
      rfl
    | _ => cases h

/-- Of the actions that are left open the first is tried, if there is one. -/
theorem performed_tryInTurn (q : StateId) {as : List Action}
    (hopen : p.openActions m.stack lookahead a = some as) :
    Performed p lookahead m a (p.proceed q (p.tryInTurn m lookahead as)) := by
  cases as with
  | nil => exact Stuck.performed (.noneOpen hopen) q
  | cons first others =>
    cases others with
    | nil => exact .moved (.only hopen)
    | cons other others =>
      rw [tryInTurn]
      · cases hleave : p.leaveChoice m lookahead (.actions (other :: others)) with
        | ok b => exact .moved (.branch hopen hleave)
        | error e =>
          obtain ⟨depth, rfl⟩ := leaveChoice_error hleave
          exact .limit hopen (limit_of_leaveChoice hleave)
      · exact fun hnil => absurd hnil (by simp)

omit [Token τ] in
/-- The parse ends with the node on top of the stack, if there is one. -/
theorem performed_accept : Performed p lookahead m .accept (accept m) := by
  unfold accept
  dsimp only
  split
  · next hnil =>
    refine .fault rfl (.accept fun top below node hcons => ?_)
    cases hnil.symm.trans hcons
  · next top below hstack =>
    split
    · next node hitem => exact .accepted rfl hstack hitem
    · next view hitem =>
      refine .fault rfl (.accept fun top' below' node hcons hnode => ?_)
      obtain ⟨rfl, -⟩ := List.cons.inj (hstack.symm.trans hcons)
      cases hitem.symm.trans hnode

/-- What carrying out an action comes to, whatever the action is. -/
theorem performed (q : StateId) (a : Action) :
    Performed p lookahead m a (p.perform q lookahead m a) := by
  cases a with
  | shift next =>
    cases lookahead with
    | token view => exact .moved (.shift rfl)
    | inputEnd => exact .fault rfl (.shift rfl)
  | reduce r =>
    rw [perform]
    cases hr : p.reduce m r with
    | done m₁ => exact .moved (.reduce hr)
    | refused m₁ =>
      obtain ⟨rfl, -⟩ := reduce_refused hr
      exact Stuck.performed (.refused hr) q
    | failed e m₁ =>
      rcases fault_of_reduce lookahead hr with
        ⟨cause, items, memory, memory', rfl, hmake⟩ | ⟨he, hfault⟩
      · exact .maker hmake
      · exact .fault he hfault
  | accept => exact performed_accept
  | dynamic d =>
    rw [perform]
    split
    · next e hrank =>
      obtain ⟨he, hfault⟩ := fault_of_rank (m := m) hrank
      exact .fault he hfault
    · next as hrank => exact performed_tryInTurn q (openActions_dynamic.mpr hrank)
  | choice d =>
    rw [perform]
    split
    · next hnone => exact .fault rfl (.candidates (.inr rfl) hnone)
    · next as hcandidates => exact performed_tryInTurn q hcandidates
  | error => exact Stuck.performed .error q

/-- After a look that decides on a lookahead, a step carries out the next action. -/
theorem Looked.step_eq {m₁ : Machine τ ν ε σ} (h : Looked p m lookahead m₁) :
    p.step m = p.perform (p.stateOn m.stack) lookahead { m₁ with forced := none }
      (p.nextAction m₁ lookahead) := by
  rw [step, h.look_eq]
  dsimp only
  rw [h.lookahead_eq, Option.getD_some, ← h.nextAction_eq]

/-- A step fails to read, finds no reading of the next token, or decides on a reading and carries
out an action. -/
theorem step_cases (p : Parser τ ν β σ) (m : Machine τ ν ε σ) :
    (∃ e b, p.look (p.stateOn m.stack) m = .failed e b ∧ p.step m = .halt (.error e) b) ∨
    (∃ b, p.look (p.stateOn m.stack) m = .refused b ∧
      p.step m = p.retreat (p.stateOn m.stack) b) ∨
    ∃ lookahead m₁, m₁.lookahead = some lookahead ∧ Looked p m lookahead m₁ ∧
      Performed p lookahead { m₁ with forced := none } (p.nextAction m₁ lookahead) (p.step m) := by
  cases hlook : p.look (p.stateOn m.stack) m with
  | failed e b => exact .inl ⟨e, b, rfl, by rw [step, hlook]⟩
  | refused b => exact .inr (.inl ⟨b, rfl, by rw [step, hlook]⟩)
  | done m₁ =>
    obtain ⟨lookahead, hl, hlooked⟩ := looked_of_done hlook
    exact .inr (.inr ⟨lookahead, m₁, hl, hlooked, hlooked.step_eq ▸ performed _ _⟩)

variable {m' last : Machine τ ν ε σ} {e : ParseError ε β}

/-- A step that goes on decides on a reading and makes a move, or finds no reading and returns to a
choice point. -/
theorem step_next (h : p.step m = .next m') :
    (∃ lookahead m₁, m₁.lookahead = some lookahead ∧ Looked p m lookahead m₁ ∧
      Moved p lookahead { m₁ with forced := none } (p.nextAction m₁ lookahead) m') ∨
    ∃ b deadEnd, p.look (p.stateOn m.stack) m = .refused b ∧
      Machine.backtrack? { b with farthest := some deadEnd } = some m' := by
  rcases step_cases p m with ⟨e, b, -, hstep⟩ | ⟨b, hlook, hstep⟩ |
    ⟨lookahead, m₁, hl, hlooked, hperformed⟩
  · rw [hstep] at h
    cases h
  · rw [hstep] at h
    obtain ⟨deadEnd, hback⟩ := retreat_next h
    exact .inr ⟨b, deadEnd, hlook, hback⟩
  · rw [h] at hperformed
    cases hperformed with
    | moved hmoved => exact .inl ⟨lookahead, m₁, hl, hlooked, hmoved⟩

/-- A step ends the parse with a node by accepting the top of the stack. -/
theorem step_accepted {node : ν} (h : p.step m = .halt (.ok node) last) :
    ∃ lookahead m₁ top below, Looked p m lookahead m₁ ∧ p.nextAction m₁ lookahead = .accept ∧
      m.stack = top :: below ∧ top.item = .node node := by
  rcases step_cases p m with ⟨e, b, -, hstep⟩ | ⟨b, hlook, hstep⟩ |
    ⟨lookahead, m₁, hl, hlooked, hperformed⟩
  · rw [hstep] at h
    cases h
  · rw [hstep] at h
    obtain ⟨-, deadEnd, hend⟩ := retreat_halt h
    cases hend
  · rw [h] at hperformed
    cases hperformed with
    | accepted haction hstack hitem =>
      exact ⟨lookahead, m₁, _, _, hlooked, haction, hlooked.frame.1.symm.trans hstack, hitem⟩

/-- A step that rejects the input retreats from a dead end: the state accepts no reading of the next
token, or there is no way on with the action. -/
theorem step_retreats (he : e.isRejection = true) (h : p.step m = .halt (.error e) last) :
    (∃ lookahead m₁, m₁.lookahead = some lookahead ∧ Looked p m lookahead m₁ ∧
      Stuck p lookahead { m₁ with forced := none } (p.nextAction m₁ lookahead) ∧
      p.retreat (p.stateOn m.stack) { m₁ with forced := none } = .halt (.error e) last) ∨
    ∃ b, p.look (p.stateOn m.stack) m = .refused b ∧
      p.retreat (p.stateOn m.stack) b = .halt (.error e) last := by
  rcases step_cases p m with ⟨e', b, hlook, hstep⟩ | ⟨b, hlook, hstep⟩ |
    ⟨lookahead, m₁, hl, hlooked, hperformed⟩
  · obtain ⟨heq, -⟩ := StepResult.halt.inj (hstep.symm.trans h)
    rw [← Except.error.inj heq, look_failed hlook] at he
    cases he
  · exact .inr ⟨b, hlook, hstep.symm.trans h⟩
  · rw [h] at hperformed
    rw [hlooked.step_eq] at h
    cases hperformed with
    | rejected hstuck => exact .inl ⟨lookahead, m₁, hl, hlooked, hstuck, hstuck.perform_eq _ ▸ h⟩
    | maker | limit => cases he
    | fault hblames =>
      rw [ParseError.isRejection_of_blamesTable hblames] at he
      cases he

/-- A step rejects the input at a dead end without a pending choice point. -/
theorem step_rejected (he : e.isRejection = true) (h : p.step m = .halt (.error e) last) :
    (∃ lookahead m₁, m₁.lookahead = some lookahead ∧ Looked p m lookahead m₁ ∧
      Stuck p lookahead { m₁ with forced := none } (p.nextAction m₁ lookahead) ∧
      nextWay? m₁.choices = none) ∨
    ∃ b, p.look (p.stateOn m.stack) m = .refused b ∧ nextWay? b.choices = none := by
  rcases step_retreats he h with
    ⟨lookahead, m₁, hl, hlooked, hstuck, hretreat⟩ | ⟨b, hlook, hretreat⟩
  · exact .inl ⟨lookahead, m₁, hl, hlooked, hstuck, (retreat_halt hretreat).1⟩
  · exact .inr ⟨b, hlook, (retreat_halt hretreat).1⟩

/-- A step ends a parse with an error for one of the reasons. -/
theorem step_failed (h : p.step m = .halt (.error e) last) : Failed p m e := by
  rcases step_cases p m with ⟨e', b, hlook, hstep⟩ | ⟨b, hlook, hstep⟩ |
    ⟨lookahead, m₁, -, hlooked, hperformed⟩
  · obtain ⟨heq, -⟩ := StepResult.halt.inj (hstep.symm.trans h)
    obtain rfl := Except.error.inj heq
    exact failed_of_look hlook
  · rw [hstep] at h
    obtain ⟨-, deadEnd, hend⟩ := retreat_halt h
    obtain rfl := Except.error.inj hend
    exact .rejected
  · rw [h] at hperformed
    cases hperformed with
    | rejected => exact .rejected
    | maker hmake => exact .maker hmake
    | limit hopen hlimit => exact .actions hlooked hopen hlimit
    | fault he hfault => exact .table he hlooked hfault

end OperatorLALR.Parser
