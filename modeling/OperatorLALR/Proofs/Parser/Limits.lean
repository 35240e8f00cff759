import OperatorLALR.Proofs.Parser.Calls
import OperatorLALR.Proofs.Parser.Restoring

/-!
# The limit on pending choice points

Of two parsers that differ in the limit only, one without a limit and one with, each part of a step
gives the same, unless it would leave one choice point too many: then the parser with the limit ends
the parse, and the other has counted more pending choice points than allowed (`StepResult.CutAt`).
The count is never taken back, so that it tells at the end of the parse without a limit whether the
other has come to its own (`limit_cuts`).
-/

namespace OperatorLALR

variable {τ ν β ε σ : Type}

/-- The parser with another limit on the number of pending choice points. -/
def Parser.withLimit (p : Parser τ ν β σ) (limit : Option Nat) : Parser τ ν β σ :=
  { p with maxChoiceDepth := limit }

/-- What a part of a step gives under a limit and without one, where at most `k` choice points have
been pending at a time: the same, unless the limit cuts it short. -/
inductive Attempt.CutAt (d k : Nat) : Attempt τ ν ε β σ → Attempt τ ν ε β σ → Prop
  | same {attempt : Attempt τ ν ε β σ} (h : attempt.machine.counts.maxChoiceDepth ≤ max k d) :
      CutAt d k attempt attempt
  | cut {b : Machine τ ν ε σ} {attempt : Attempt τ ν ε β σ}
      (h : d < attempt.machine.counts.maxChoiceDepth) :
      CutAt d k (.failed (.choiceLimit d) b) attempt

/-- What a step gives under a limit and without one, where at most `k` choice points have been
pending at a time: the same, unless the limit cuts it short. -/
inductive StepResult.CutAt (d k : Nat) : StepResult τ ν ε β σ → StepResult τ ν ε β σ → Prop
  | same {result : StepResult τ ν ε β σ} (h : result.machine.counts.maxChoiceDepth ≤ max k d) :
      CutAt d k result result
  | cut {b : Machine τ ν ε σ} {result : StepResult τ ν ε β σ}
      (h : d < result.machine.counts.maxChoiceDepth) :
      CutAt d k (.halt (.error (.choiceLimit d)) b) result

/-- A part of a step may have counted choice points up to the limit before. -/
theorem StepResult.CutAt.mono {d k k' : Nat} {limited free : StepResult τ ν ε β σ}
    (h : StepResult.CutAt d k limited free) (hk : k ≤ max k' d) :
    StepResult.CutAt d k' limited free := by
  cases h with
  | same h => exact .same (by omega)
  | cut h => exact .cut h

namespace Parser

variable {p : Parser τ ν β σ} {d : Nat}

/-- Under a limit a choice point is left, as without one, unless as many as allowed are pending. -/
theorem leaveChoice_limited (m : Machine τ ν ε σ) (lookahead : Lookahead τ) (ways : OpenWays) :
    (p.withLimit (some d)).leaveChoice m lookahead ways =
      if d ≤ m.choices.length then .error (.choiceLimit d)
      else (p.withLimit none).leaveChoice m lookahead ways := by
  by_cases hle : d ≤ m.choices.length
  · have hfilter : (some d).filter (fun depth => decide (depth ≤ m.choices.length)) = some d := by
      rw [Option.filter_some, if_pos (decide_eq_true hle)]
    rw [if_pos hle, leaveChoice, withLimit, hfilter]
  · have hfilter : (some d).filter (fun depth => decide (depth ≤ m.choices.length)) = none := by
      rw [Option.filter_some, if_neg (by simpa using hle)]
    rw [if_neg hle, leaveChoice, withLimit, hfilter]
    rfl

/-- Without a limit a choice point is always left. Under a limit the same is done, within the limit,
or the parse ends and the other parser has one pending choice point too many. -/
theorem leaveChoice_cutAt (m : Machine τ ν ε σ) (lookahead : Lookahead τ) (ways : OpenWays) :
    ∃ b, (p.withLimit none).leaveChoice m lookahead ways = .ok b ∧
      ((p.withLimit (some d)).leaveChoice m lookahead ways = .ok b ∧
          b.counts.maxChoiceDepth ≤ max m.counts.maxChoiceDepth d ∨
        (p.withLimit (some d)).leaveChoice m lookahead ways = .error (.choiceLimit d) ∧
          d < b.counts.maxChoiceDepth) := by
  refine ⟨_, rfl, ?_⟩
  rw [leaveChoice_limited]
  by_cases hle : d ≤ m.choices.length
  · rw [if_pos hle]
    exact .inr ⟨rfl, Nat.lt_of_lt_of_le (Nat.lt_succ_of_le hle) (Nat.le_max_right _ _)⟩
  · rw [if_neg hle]
    have hpending : m.choices.length + 1 ≤ d := Nat.lt_of_not_le hle
    exact .inl ⟨rfl, Nat.max_le.mpr
      ⟨Nat.le_max_left _ _, Nat.le_trans hpending (Nat.le_max_right _ _)⟩⟩

/-- Actions are tried alike, unless the limit is hit. -/
theorem tryInTurn_cutAt (m : Machine τ ν ε σ) (lookahead : Lookahead τ) (as : List Action) :
    ((p.withLimit (some d)).tryInTurn m lookahead as).CutAt d m.counts.maxChoiceDepth
      ((p.withLimit none).tryInTurn m lookahead as) := by
  rcases as with _ | ⟨a, _ | ⟨other, others⟩⟩
  · exact .same (Nat.le_max_left _ _)
  · exact .same (Nat.le_max_left _ _)
  · obtain ⟨b, hfree, hleft⟩ :=
      leaveChoice_cutAt (p := p) (d := d) m lookahead (.actions (other :: others))
    simp only [tryInTurn]
    rw [hfree]
    rcases hleft with ⟨hlimited, hwithin⟩ | ⟨hlimited, hbeyond⟩
    · rw [hlimited]
      exact .same hwithin
    · rw [hlimited]
      exact .cut hbeyond

variable [Token τ]

/-- The reading of a token is decided alike, unless the limit is hit. -/
theorem look_cutAt (q : StateId) (m : Machine τ ν ε σ) :
    ((p.withLimit (some d)).look q m).CutAt d m.counts.maxChoiceDepth
      ((p.withLimit none).look q m) := by
  have hreadings : ∀ limit token, (p.withLimit limit).readings q token = p.readings q token :=
    fun _ _ => rfl
  rw [look, look]
  cases m.lookahead with
  | some l => exact .same (Nat.le_max_left _ _)
  | none =>
    cases hread : readToken m with
    | mk r b =>
      have hdepth := (silent_readToken hread).depth
      rcases r with e | _ | token
      · exact .same (hdepth ▸ Nat.le_max_left _ _)
      · exact .same (hdepth ▸ Nat.le_max_left _ _)
      · dsimp only
        rw [hreadings, hreadings]
        rcases p.readings q token with _ | ⟨reading, _ | ⟨other, others⟩⟩
        · exact .same (hdepth ▸ Nat.le_max_left _ _)
        · exact .same (hdepth ▸ Nat.le_max_left _ _)
        · obtain ⟨b', hfree, hleft⟩ := leaveChoice_cutAt (p := p) (d := d) b
            (.token ⟨token, reading, b.position, b.clock⟩) (.readings (other :: others))
          rw [hdepth] at hleft
          dsimp only
          rw [hfree]
          rcases hleft with ⟨hlimited, hwithin⟩ | ⟨hlimited, hbeyond⟩
          · rw [hlimited]
            exact .same hwithin
          · rw [hlimited]
            exact .cut hbeyond

/-- A parser goes on alike after a part of a step, unless the limit is hit. -/
theorem proceed_cutAt {k : Nat} {limited free : Attempt τ ν ε β σ} (q : StateId)
    (h : limited.CutAt d k free) :
    ((p.withLimit (some d)).proceed q limited).CutAt d k ((p.withLimit none).proceed q free) := by
  have hdepth := (silent_proceed (p := p.withLimit none) q free).depth
  cases h with
  | same h =>
    have hsame : (p.withLimit (some d)).proceed q limited =
        (p.withLimit none).proceed q limited := by
      cases limited <;> rfl
    rw [hsame]
    exact .same (hdepth ▸ h)
  | cut h => exact .cut (hdepth ▸ h)

/-- An action is carried out alike, unless the limit is hit. -/
theorem perform_cutAt (q : StateId) (lookahead : Lookahead τ) (m : Machine τ ν ε σ) (a : Action) :
    ((p.withLimit (some d)).perform q lookahead m a).CutAt d m.counts.maxChoiceDepth
      ((p.withLimit none).perform q lookahead m a) := by
  cases a with
  | shift next => cases lookahead <;> exact .same (Nat.le_max_left _ _)
  | reduce r =>
    have hdepth := (memory_of_reduce (p := p.withLimit none) m r).2
    exact proceed_cutAt q (.same (hdepth ▸ Nat.le_max_left _ _))
  | accept =>
    have hdepth := (silent_accept (β := β) m).depth
    exact .same (hdepth ▸ Nat.le_max_left _ _)
  | dynamic c =>
    have hrank : (p.withLimit (some d)).rank (ε := ε) m.stack c lookahead =
        (p.withLimit none).rank m.stack c lookahead := rfl
    rw [perform, perform, hrank]
    cases (p.withLimit none).rank (ε := ε) m.stack c lookahead with
    | error e => exact .same (Nat.le_max_left _ _)
    | ok candidates => exact proceed_cutAt q (tryInTurn_cutAt m lookahead candidates)
  | choice c =>
    have htable : (p.withLimit (some d)).table = (p.withLimit none).table := rfl
    rw [perform, perform, htable]
    cases (p.withLimit none).table.candidates c with
    | none => exact .same (Nat.le_max_left _ _)
    | some candidates => exact proceed_cutAt q (tryInTurn_cutAt m lookahead candidates)
  | error =>
    have hdepth := (silent_retreat (p := p.withLimit none) q m).depth
    exact .same (hdepth ▸ Nat.le_max_left _ _)

/-- A step is carried out alike, unless the limit is hit, and calls the maker of nodes alike, unless
the limit is hit before the call. -/
theorem step_cutAt (m : Machine τ ν ε σ) :
    ((p.withLimit (some d)).step m).CutAt d m.counts.maxChoiceDepth ((p.withLimit none).step m) ∧
      ((p.withLimit (some d)).call? m = (p.withLimit none).call? m ∨
        (p.withLimit (some d)).call? m = none ∧
          d < ((p.withLimit none).step m).machine.counts.maxChoiceDepth) := by
  have hlook : ((p.withLimit (some d)).look ((p.withLimit (some d)).stateOn m.stack) m).CutAt d
      m.counts.maxChoiceDepth ((p.withLimit none).look ((p.withLimit none).stateOn m.stack) m) :=
    look_cutAt (p.stateOn m.stack) m
  have hstep := (memory_of_step (p := p.withLimit none) m).2
  generalize hl : (p.withLimit (some d)).look ((p.withLimit (some d)).stateOn m.stack) m = limited
    at hlook
  generalize hf : (p.withLimit none).look ((p.withLimit none).stateOn m.stack) m = free
    at hlook hstep
  cases hlook with
  | same h =>
    rw [step, step, call?, call?, hl, hf]
    cases limited with
    | failed e b => exact ⟨.same h, .inl rfl⟩
    | refused b =>
      have hdepth := (silent_retreat (p := p.withLimit none) (p.stateOn m.stack) b).depth
      exact ⟨.same (hdepth ▸ h), .inl rfl⟩
    | done b => exact ⟨(perform_cutAt _ _ { b with forced := none } _).mono h, .inl rfl⟩
  | cut h =>
    have hcut := Nat.lt_of_lt_of_le h hstep
    refine ⟨?_, .inr ⟨?_, hcut⟩⟩
    · rw [step, hl]
      exact .cut hcut
    · rw [call?, hl]

/-- If a parse without a limit ends, its count of pending choice points tells how the parse under a
limit ends: in the same way, after the same calls to the maker of nodes, if there were never more
than allowed, and else by the limit, with the first of the calls made. -/
theorem run_withLimit {n : Nat} {m last : Machine τ ν ε σ} {r : Except (ParseError ε β) ν}
    (hrun : (p.withLimit none).run n m = some (r, last)) (hm : m.counts.maxChoiceDepth ≤ d) :
    (last.counts.maxChoiceDepth ≤ d → (p.withLimit (some d)).run n m = some (r, last) ∧
      (p.withLimit (some d)).calls n m = (p.withLimit none).calls n m) ∧
    (d < last.counts.maxChoiceDepth →
      (∃ b, (p.withLimit (some d)).run n m = some (.error (.choiceLimit d), b)) ∧
      (p.withLimit (some d)).calls n m <+: (p.withLimit none).calls n m) := by
  induction n generalizing m with
  | zero => cases hrun
  | succ n ih =>
    -- the count of this step is never taken back, so that the last one tells of a cut here
    have hlast := (memory_of_run hrun).2
    have hbound : max m.counts.maxChoiceDepth d ≤ d := Nat.max_le.mpr ⟨hm, Nat.le_refl d⟩
    obtain ⟨hstep, hcall⟩ := step_cutAt (p := p) (d := d) m
    rw [run] at hrun ⊢
    rw [calls, calls]
    generalize hl : (p.withLimit (some d)).step m = limited at hstep
    generalize hf : (p.withLimit none).step m = free at hstep hcall hlast hrun
    cases hstep with
    | same h =>
      have hsame : (p.withLimit (some d)).call? m = (p.withLimit none).call? m :=
        hcall.resolve_right fun hcut => by omega
      rw [hsame]
      cases limited with
      | next m₁ =>
        have hm₁ : m₁.counts.maxChoiceDepth ≤ d := Nat.le_trans h hbound
        obtain ⟨hwithin, hbeyond⟩ := ih hrun hm₁
        refine ⟨fun hle => ?_, fun hlt => ?_⟩
        · obtain ⟨hrun₁, hcalls₁⟩ := hwithin hle
          exact ⟨hrun₁, congrArg _ hcalls₁⟩
        · obtain ⟨hrun₁, hcalls₁⟩ := hbeyond hlt
          exact ⟨hrun₁, (List.prefix_append_right_inj _).mpr hcalls₁⟩
      | halt r' last' =>
        obtain ⟨rfl, rfl⟩ := Prod.mk.inj (Option.some.inj hrun)
        have hle : last'.counts.maxChoiceDepth ≤ d := Nat.le_trans h hbound
        exact ⟨fun _ => ⟨rfl, rfl⟩, fun hlt => by omega⟩
    | cut h =>
      refine ⟨fun hle => by omega, fun _ => ⟨⟨_, rfl⟩, ?_⟩⟩
      rw [List.append_nil]
      rcases hcall with hsame | ⟨hnone, -⟩
      · rw [hsame]
        exact List.prefix_append _ _
      · rw [hnone]
        exact List.nil_prefix

omit [Token τ] in
/-- No more choice points stay pending than there were. -/
theorem length_nextWay? {choices pending : List (ChoicePoint τ)} {way : Way} {c : ChoicePoint τ}
    (h : nextWay? choices = some (way, c, pending)) : pending.length ≤ choices.length := by
  induction choices with
  | nil => cases h
  | cons first outer ih =>
    rw [nextWay?] at h
    split at h
    · exact Nat.le_succ_of_le (ih h)
    · obtain ⟨-, h⟩ := Prod.mk.inj (Option.some.inj h)
      obtain ⟨-, rfl⟩ := Prod.mk.inj h
      split
      · exact Nat.le_succ _
      · exact Nat.le_refl _

omit [Token τ] in
/-- A choice point that is left under a limit is within it. -/
theorem choices_of_leaveChoice {m m' : Machine τ ν ε σ} {lookahead : Lookahead τ} {ways : OpenWays}
    (h : (p.withLimit (some d)).leaveChoice m lookahead ways = .ok m') : m'.choices.length ≤ d := by
  rw [leaveChoice_limited] at h
  split at h
  · cases h
  · next hlt =>
    obtain ⟨depth, rfl⟩ := leaveChoice_ok h
    rw [List.length_cons]
    omega

variable {m m₁ m' : Machine τ ν ε σ} {lookahead : Lookahead τ}

/-- A look keeps to the limit. -/
theorem Looked.choices_le (h : Looked (p.withLimit (some d)) m lookahead m₁)
    (hm : m.choices.length ≤ d) : m₁.choices.length ≤ d := by
  cases h with
  | known => exact hm
  | ended _ hread | single _ hread =>
    obtain ⟨pulled, source, exhausted, rfl⟩ := readToken_eq hread
    exact hm
  | several _ _ _ hleave =>
    have hleft := choices_of_leaveChoice hleave
    exact hleft

omit [Token τ] in
/-- A move keeps to the limit. -/
theorem Moved.choices_le {a : Action} (h : Moved (p.withLimit (some d)) lookahead m a m')
    (hm : m.choices.length ≤ d) : m'.choices.length ≤ d := by
  cases h with
  | shift | only => exact hm
  | reduce hr =>
    obtain ⟨shape, priority, node, memory, next, -, -, -, -, -, rfl⟩ := reduce_done hr
    exact hm
  | branch _ hleave =>
    have hleft := choices_of_leaveChoice hleave
    exact hleft
  | back _ hback =>
    obtain ⟨⟨way, c, pending⟩, hway, rfl⟩ := Option.map_eq_some_iff.mp hback
    exact Nat.le_trans (length_nextWay? hway) hm

/-- Under a limit, no more choice points are pending than allowed. -/
theorem choices_of_reaches {source : List (Except ε τ)} {memory : σ}
    (h : (p.withLimit (some d)).Reaches (.start source memory) m) : m.choices.length ≤ d := by
  induction h with
  | refl => exact Nat.zero_le d
  | tail _ hstep ih =>
    rcases step_next hstep with ⟨lookahead, m₁, -, hlooked, hmoved⟩ | ⟨b, deadEnd, hlook, hback⟩
    · exact hmoved.choices_le (hlooked.choices_le ih)
    · obtain ⟨-, token, hread, -⟩ := look_refused hlook
      obtain ⟨pulled, source, exhausted, rfl⟩ := readToken_eq hread
      obtain ⟨⟨way, c, pending⟩, hway, rfl⟩ := Option.map_eq_some_iff.mp hback
      exact Nat.le_trans (length_nextWay? hway) ih

/-- The limit on pending choice points only cuts parses short. Whatever the table, the operators,
the source and the maker of nodes are, take a parse without a limit that ends, and the largest
number of choice points that were pending in it. Under a limit that is not smaller the parse ends in
the same way, with the same counters and after the same calls to the maker of nodes; under a smaller
one it ends by the limit, and has made the first of these calls. In any run under a limit no more
choice points are pending than allowed, at the beginning of a step and after its look. -/
theorem limit_cuts (p : Parser τ ν β σ) (d : Nat) (source : List (Except ε τ)) (memory : σ) :
    (∀ k result last, (p.withLimit none).parse k source memory = some (result, last) →
      (last.counts.maxChoiceDepth ≤ d →
        (p.withLimit (some d)).parse k source memory = some (result, last) ∧
        (p.withLimit (some d)).calls k (.start source memory) =
          (p.withLimit none).calls k (.start source memory)) ∧
      (d < last.counts.maxChoiceDepth →
        (∃ b, (p.withLimit (some d)).parse k source memory =
          some (.error (.choiceLimit d), b)) ∧
        (p.withLimit (some d)).calls k (.start source memory) <+:
          (p.withLimit none).calls k (.start source memory))) ∧
    ∀ m, (p.withLimit (some d)).Reaches (.start source memory) m →
      m.choices.length ≤ d ∧
      ∀ b, (p.withLimit (some d)).look ((p.withLimit (some d)).stateOn m.stack) m = .done b →
        b.choices.length ≤ d := by
  constructor
  · intro k result last hparse
    exact run_withLimit hparse (Nat.zero_le d)
  · intro m hreach
    have hm := choices_of_reaches hreach
    refine ⟨hm, fun b hlook => ?_⟩
    obtain ⟨lookahead, -, hlooked⟩ := looked_of_done hlook
    exact hlooked.choices_le hm

/-- On `a c` one guess has to be kept. With a limit of one the parse is as without a limit, and with
a limit of zero it is cut short. -/
theorem limit_cuts_guess :
    ∃ last : Machine TerminalId RuleId Empty Unit, last.counts.maxChoiceDepth = 1 ∧
      ((Parser.ofTable guessingTable ruleMaker none).withLimit none).parse 9 [.ok ⟨1⟩, .ok ⟨2⟩] () =
        some (.ok ⟨1⟩, last) ∧
      ((Parser.ofTable guessingTable ruleMaker none).withLimit (some 1)).parse 9
        [.ok ⟨1⟩, .ok ⟨2⟩] () = some (.ok ⟨1⟩, last) ∧
      ∃ b : Machine TerminalId RuleId Empty Unit,
        ((Parser.ofTable guessingTable ruleMaker none).withLimit (some 0)).parse 9
          [.ok ⟨1⟩, .ok ⟨2⟩] () = some (.error (.choiceLimit 0), b) := by
  have hparse : ((Parser.ofTable guessingTable ruleMaker none).withLimit none).parse 9
      [.ok ⟨1⟩, .ok ⟨2⟩] () = some (.ok ⟨1⟩, (_ : Machine TerminalId RuleId Empty Unit)) := rfl
  have hwithin := ((limit_cuts _ 1 _ _).1 9 _ _ hparse).1 (by decide)
  have hbeyond := ((limit_cuts _ 0 _ _).1 9 _ _ hparse).2 (by decide)
  exact ⟨_, rfl, hparse, hwithin.1, hbeyond.1⟩

end Parser

end OperatorLALR
