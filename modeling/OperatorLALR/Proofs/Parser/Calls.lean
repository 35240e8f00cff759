import OperatorLALR.Proofs.Parser.Moves

/-!
# What a parser asks of its maker of nodes

The maker of nodes is called once by each reduction whose handle is on the stack and accepts its
operator (`Parser.call?`). No other part of a step changes its memory, though it may leave choice
points (`Machine.Silent`, `Machine.Chooses`). So at the end of a parse the memory is what the calls
have left, in their order (`memory_of_run`).
-/

namespace OperatorLALR

variable {τ ν β ε σ : Type}

/-- The machine after a part of a step. -/
def Attempt.machine : Attempt τ ν ε β σ → Machine τ ν ε σ
  | .done m => m
  | .refused m => m
  | .failed _ m => m

/-- The machine after a step. -/
def StepResult.machine : StepResult τ ν ε β σ → Machine τ ν ε σ
  | .next m => m
  | .halt _ m => m

/-- A machine has come from another without a call to the maker of nodes, and without a choice
point. -/
structure Machine.Silent (m m' : Machine τ ν ε σ) : Prop where
  memory : m'.memory = m.memory
  depth : m'.counts.maxChoiceDepth = m.counts.maxChoiceDepth

/-- A machine has come from another without a call to the maker of nodes, but may have left choice
points and counted them. -/
structure Machine.Chooses (m m' : Machine τ ν ε σ) : Prop where
  memory : m'.memory = m.memory
  depth_le : m.counts.maxChoiceDepth ≤ m'.counts.maxChoiceDepth

/-- Where no choice point is left, none has to be. -/
theorem Machine.Silent.chooses {m m' : Machine τ ν ε σ} (h : m.Silent m') : m.Chooses m' :=
  ⟨h.memory, Nat.le_of_eq h.depth.symm⟩

/-- Nobody is called in two such parts of a step. -/
theorem Machine.Chooses.trans {m b m' : Machine τ ν ε σ} (h : m.Chooses b) (h' : b.Chooses m') :
    m.Chooses m' :=
  ⟨h'.memory.trans h.memory, Nat.le_trans h.depth_le h'.depth_le⟩

namespace Parser

variable {p : Parser τ ν β σ}

/-- A token is read silently. -/
theorem silent_readToken {m b : Machine τ ν ε σ} {r : Except ε (Option τ)}
    (h : readToken m = (r, b)) : m.Silent b := by
  obtain ⟨pulled, source, exhausted, rfl⟩ := readToken_eq h
  exact ⟨rfl, rfl⟩

/-- The input is accepted silently. -/
theorem silent_accept (m : Machine τ ν ε σ) :
    m.Silent (accept m : StepResult τ ν ε β σ).machine := by
  unfold accept
  rcases m.stack with _ | ⟨⟨q, _ | node, priority, stamp⟩, below⟩ <;> exact ⟨rfl, rfl⟩

/-- A dead end is left silently. -/
theorem silent_retreat [Token τ] (q : StateId) (m : Machine τ ν ε σ) :
    m.Silent (p.retreat q m).machine := by
  unfold retreat
  dsimp only
  split
  · next hback =>
    obtain ⟨⟨way, c, pending⟩, -, rfl⟩ := Option.map_eq_some_iff.mp hback
    exact ⟨rfl, rfl⟩
  · exact ⟨rfl, rfl⟩

/-- A parser goes on silently after a part of a step. -/
theorem silent_proceed [Token τ] (q : StateId) (attempt : Attempt τ ν ε β σ) :
    attempt.machine.Silent (p.proceed q attempt).machine := by
  cases attempt with
  | done m => exact ⟨rfl, rfl⟩
  | refused m => exact silent_retreat q m
  | failed e m => exact ⟨rfl, rfl⟩

/-- To leave a choice point calls nobody. -/
theorem chooses_leaveChoice {m m' : Machine τ ν ε σ} {lookahead : Lookahead τ} {ways : OpenWays}
    (h : p.leaveChoice m lookahead ways = .ok m') : m.Chooses m' := by
  unfold leaveChoice at h
  split at h
  · cases h
  · rw [← Except.ok.inj h]
    exact ⟨rfl, Nat.le_max_left _ _⟩

/-- To try actions calls nobody. -/
theorem chooses_tryInTurn (m : Machine τ ν ε σ) (lookahead : Lookahead τ) (as : List Action) :
    m.Chooses (p.tryInTurn m lookahead as).machine := by
  rcases as with _ | ⟨a, _ | ⟨other, others⟩⟩
  · exact ⟨rfl, Nat.le_refl _⟩
  · exact ⟨rfl, Nat.le_refl _⟩
  · simp only [tryInTurn]
    cases hleave : p.leaveChoice m lookahead (.actions (other :: others)) with
    | error e => exact ⟨rfl, Nat.le_refl _⟩
    | ok b =>
      have hb := chooses_leaveChoice hleave
      exact ⟨hb.memory, hb.depth_le⟩

/-- To decide on the reading of a token calls nobody. -/
theorem chooses_look [Token τ] (q : StateId) (m : Machine τ ν ε σ) :
    m.Chooses (p.look q m).machine := by
  unfold look
  split
  · exact ⟨rfl, Nat.le_refl _⟩
  · split
    · next hread => exact (silent_readToken hread).chooses
    · next hread =>
      have hb := (silent_readToken hread).chooses
      exact ⟨hb.memory, hb.depth_le⟩
    · next hread =>
      have hb := (silent_readToken hread).chooses
      split
      · exact hb
      · exact ⟨hb.memory, hb.depth_le⟩
      · dsimp only
        split
        · exact hb
        · next hleave =>
          have hb' := hb.trans (chooses_leaveChoice hleave)
          exact ⟨hb'.memory, hb'.depth_le⟩

/-- The items that an action hands to the maker of nodes, with the rule, if it comes to that. -/
def handed? (p : Parser τ ν β σ) (m : Machine τ ν ε σ) :
    Action → Option (RuleId × List (HandleItem τ ν))
  | .reduce r => (p.table.rule r).bind fun shape =>
    if m.stack.length < shape.length then none
    else
      let handle := (m.stack.take shape.length).reverse
      (nodePriority? shape handle).map fun _ => (r, handle.map StackEntry.item)
  | _ => none

/-- The memory of the maker of nodes after a call. -/
def remember (p : Parser τ ν β σ) (memory : σ) (call : RuleId × List (HandleItem τ ν)) : σ :=
  (p.maker.reduce call.1 call.2 memory).2

/-- A reduction changes the memory of the maker by its call only, and leaves no choice point. -/
theorem memory_of_reduce (m : Machine τ ν ε σ) (r : RuleId) :
    (p.reduce m r).machine.memory = (p.handed? m (.reduce r)).toList.foldl p.remember m.memory ∧
      (p.reduce m r).machine.counts.maxChoiceDepth = m.counts.maxChoiceDepth := by
  rw [reduce, handed?]
  cases p.table.rule r with
  | none => exact ⟨rfl, rfl⟩
  | some shape =>
    rw [Option.bind_some]
    dsimp only
    split
    · exact ⟨rfl, rfl⟩
    · cases nodePriority? shape (m.stack.take shape.length).reverse with
      | none => exact ⟨rfl, rfl⟩
      | some priority =>
        rw [Option.map_some, Option.toList_some, List.foldl_cons, List.foldl_nil, remember]
        dsimp only
        rcases p.maker.reduce r ((m.stack.take shape.length).reverse.map StackEntry.item) m.memory
          with ⟨e | node, memory⟩
        · exact ⟨rfl, rfl⟩
        · dsimp only
          cases p.table.goto (p.stateOn (m.stack.drop shape.length)) shape.left <;>
            exact ⟨rfl, rfl⟩

variable [Token τ]

/-- The call that the step from a machine makes to the maker of nodes, if it makes one. -/
def call? (p : Parser τ ν β σ) (m : Machine τ ν ε σ) : Option (RuleId × List (HandleItem τ ν)) :=
  let q := p.stateOn m.stack
  match p.look q m with
  | .done b =>
    p.handed? b (b.forced.getD (p.table.action q (b.lookahead.getD .inputEnd).terminal))
  | _ => none

/-- The calls that a parser makes in at most the given number of steps, in order. -/
def calls (p : Parser τ ν β σ) :
    Nat → Machine τ ν ε σ → List (RuleId × List (HandleItem τ ν))
  | 0, _ => []
  | n + 1, m =>
    (p.call? m).toList ++ match p.step m with
      | .next m => p.calls n m
      | .halt _ _ => []

/-- To carry out an action changes the memory of the maker by the call of the action only. -/
theorem memory_of_perform (q : StateId) (lookahead : Lookahead τ) (m : Machine τ ν ε σ)
    (a : Action) :
    (p.perform q lookahead m a).machine.memory =
        (p.handed? m a).toList.foldl p.remember m.memory ∧
      m.counts.maxChoiceDepth ≤ (p.perform q lookahead m a).machine.counts.maxChoiceDepth := by
  have hquiet : ∀ {m' : Machine τ ν ε σ}, m.Chooses m' →
      m'.memory = m.memory ∧ m.counts.maxChoiceDepth ≤ m'.counts.maxChoiceDepth :=
    fun h => ⟨h.memory, h.depth_le⟩
  cases a with
  | shift next => cases lookahead <;> exact ⟨rfl, Nat.le_refl _⟩
  | reduce r =>
    obtain ⟨hmemory, hdepth⟩ := memory_of_reduce (p := p) m r
    have hproceed := silent_proceed (p := p) q (p.reduce m r)
    rw [perform]
    exact ⟨hproceed.memory.trans hmemory, Nat.le_of_eq (hproceed.depth.trans hdepth).symm⟩
  | accept => exact hquiet (silent_accept m).chooses
  | dynamic d =>
    rw [perform]
    split
    · exact ⟨rfl, Nat.le_refl _⟩
    · exact hquiet ((chooses_tryInTurn m lookahead _).trans (silent_proceed q _).chooses)
  | choice d =>
    rw [perform]
    split
    · exact ⟨rfl, Nat.le_refl _⟩
    · exact hquiet ((chooses_tryInTurn m lookahead _).trans (silent_proceed q _).chooses)
  | error => exact hquiet (silent_retreat q m).chooses

/-- A step changes the memory of the maker by its call only. What its look has counted stays
counted. -/
theorem memory_of_step (m : Machine τ ν ε σ) :
    (p.step m).machine.memory = (p.call? m).toList.foldl p.remember m.memory ∧
      (p.look (p.stateOn m.stack) m).machine.counts.maxChoiceDepth ≤
        (p.step m).machine.counts.maxChoiceDepth := by
  have hlook := (chooses_look (p := p) (p.stateOn m.stack) m).memory
  unfold step call?
  dsimp only
  cases hl : p.look (p.stateOn m.stack) m with
  | failed e b =>
    rw [hl] at hlook
    exact ⟨hlook, Nat.le_refl _⟩
  | refused b =>
    rw [hl] at hlook
    have hsilent := silent_retreat (p := p) (p.stateOn m.stack) b
    exact ⟨hsilent.memory.trans hlook, hsilent.chooses.depth_le⟩
  | done b =>
    rw [hl] at hlook
    obtain ⟨hmemory, hdepth⟩ := memory_of_perform (p := p) (p.stateOn m.stack)
      (b.lookahead.getD .inputEnd) { b with forced := none }
      (b.forced.getD (p.table.action (p.stateOn m.stack) (b.lookahead.getD .inputEnd).terminal))
    refine ⟨hmemory.trans ?_, hdepth⟩
    rw [← hlook]
    rfl

/-- A step counts no fewer choice points at a time. -/
theorem depth_of_step (m : Machine τ ν ε σ) :
    m.counts.maxChoiceDepth ≤ (p.step m).machine.counts.maxChoiceDepth :=
  Nat.le_trans (chooses_look _ m).depth_le (memory_of_step m).2

/-- At the end of a run the memory of the maker is what its calls have left, and the number of
choice points at a time is that of the first step at least. -/
theorem memory_of_run {n : Nat} {m last : Machine τ ν ε σ} {r : Except (ParseError ε β) ν}
    (h : p.run n m = some (r, last)) :
    last.memory = (p.calls n m).foldl p.remember m.memory ∧
      (p.step m).machine.counts.maxChoiceDepth ≤ last.counts.maxChoiceDepth := by
  induction n generalizing m with
  | zero => cases h
  | succ n ih =>
    obtain ⟨hmemory, -⟩ := memory_of_step (p := p) m
    rw [run] at h
    rw [calls, List.foldl_append, ← hmemory]
    cases hstep : p.step m with
    | next m₁ =>
      rw [hstep] at h
      obtain ⟨hlast, hdepth⟩ := ih h
      exact ⟨hlast, Nat.le_trans (depth_of_step m₁) hdepth⟩
    | halt r' last' =>
      rw [hstep] at h
      obtain ⟨-, rfl⟩ := Prod.mk.inj (Option.some.inj h)
      exact ⟨rfl, Nat.le_refl _⟩

end Parser

end OperatorLALR
