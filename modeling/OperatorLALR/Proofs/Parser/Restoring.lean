import OperatorLALR.Proofs.Parser.Steps
import OperatorLALR.Proofs.Parser.Timely

/-!
# What a parser finds at a choice point

During a run each pending choice point was left by some earlier step, at a machine that is recorded
with it (`Left`). The main result is `backtrack_restores`: whenever a parse returns to a choice
point, stack, trail, position and outer choice points are those of that machine, and the lookahead
is the one that was kept, in the reading that is tried next.
-/

namespace OperatorLALR.Parser

variable {τ ν β ε σ : Type} [Token τ]

/-- The choice points that the step from a machine leaves, each with the machine that leaves it. -/
inductive LeavesChoice (p : Parser τ ν β σ) (m : Machine τ ν ε σ) :
    Machine τ ν ε σ → ChoicePoint τ → Prop
  /-- Between readings of the next token. -/
  | reading {b b' : Machine τ ν ε σ} {token : τ} {first other : Reading} {others : List Reading}
      (h : m.lookahead = none) (hread : readToken m = (.ok (some token), b))
      (hways : p.readings (p.stateOn m.stack) token = first :: other :: others)
      (hleave : p.leaveChoice b (.token ⟨token, first, b.position, b.clock⟩)
        (.readings (other :: others)) = .ok b') :
      LeavesChoice p m b ⟨b.clock + 1, b.position, .token ⟨token, first, b.position, b.clock⟩,
        .readings (other :: others)⟩
  /-- Between actions that the table leaves open. -/
  | action {lookahead : Lookahead τ} {m₁ b' : Machine τ ν ε σ} {first other : Action}
      {others : List Action} (hlooked : Looked p m lookahead m₁)
      (hopen : p.openActions m₁.stack lookahead (p.nextAction m₁ lookahead) =
        some (first :: other :: others))
      (hleave : p.leaveChoice { m₁ with forced := none } lookahead (.actions (other :: others)) =
        .ok b') :
      LeavesChoice p m { m₁ with forced := none }
        ⟨m₁.clock + 1, m₁.position, lookahead, .actions (other :: others)⟩

/-- A choice point is left at the current position. -/
theorem LeavesChoice.position_eq {p : Parser τ ν β σ} {m b : Machine τ ν ε σ} {c : ChoicePoint τ}
    (h : p.LeavesChoice m b c) : c.position = b.position := by
  cases h <;> rfl

/-- A choice point, as far as its ways are still open, was left in a run before a machine. -/
def Left (p : Parser τ ν β σ) (first m : Machine τ ν ε σ) (c : ChoicePoint τ)
    (saved : Machine τ ν ε σ) : Prop :=
  ∃ m₀ c₀, p.Reaches first m₀ ∧ p.Reaches m₀ m ∧ p.LeavesChoice m₀ saved c₀ ∧
    c = { c₀ with ways := c.ways } ∧ c.ways.toList <:+ c₀.ways.toList

variable {p : Parser τ ν β σ} {first m m₁ m' : Machine τ ν ε σ} {saved : List (Machine τ ν ε σ)}

/-- What was left before a machine was left before those that it reaches. -/
theorem Left.mono {c : ChoicePoint τ} {s : Machine τ ν ε σ} (h : p.Left first m c s)
    (hreach : p.Reaches m m') : p.Left first m' c s := by
  obtain ⟨m₀, c₀, hfirst, hm, hleaves, hc, hways⟩ := h
  exact ⟨m₀, c₀, hfirst, hm.trans hreach, hleaves, hc, hways⟩

/-- What the step from a machine leaves is left with all its ways. -/
theorem Left.of_leaves {c : ChoicePoint τ} {s : Machine τ ν ε σ} (hreach : p.Reaches first m)
    (h : p.LeavesChoice m s c) : p.Left first m c s :=
  ⟨m, c, hreach, .refl, h, rfl, List.suffix_rfl⟩

/-- Trying a way of a choice point leaves it behind the others. -/
theorem Left.tail {c : ChoicePoint τ} {s : Machine τ ν ε σ} {way : Way} {rest : OpenWays}
    (h : p.Left first m c s) (hpop : c.ways.pop? = some (way, rest)) :
    p.Left first m { c with ways := rest } s := by
  obtain ⟨m₀, c₀, hfirst, hm, hleaves, hc, hways⟩ := h
  refine ⟨m₀, c₀, hfirst, hm, hleaves, ?_, ?_⟩
  · rw [hc]
  · rw [OpenWays.toList_of_pop? hpop] at hways
    exact (List.suffix_cons way _).trans hways

/-- All pending choice points of a machine were left in the run before it. -/
structure Traced (p : Parser τ ν β σ) (first m b : Machine τ ν ε σ)
    (saved : List (Machine τ ν ε σ)) : Prop where
  timely : Timely b saved
  left : List.Forall₂ (p.Left first m) b.choices saved

namespace Traced

/-- Reading a token leaves no choice point. -/
theorem readToken {b : Machine τ ν ε σ} {r : Except ε (Option τ)} (h : p.Traced first m m saved)
    (hread : Parser.readToken m = (r, b)) : p.Traced first m b saved := by
  refine ⟨h.timely.readToken hread, ?_⟩
  obtain ⟨pulled, source, exhausted, rfl⟩ := readToken_eq hread
  exact h.left

/-- A look adds at most the choice point that it leaves. -/
theorem looked {lookahead : Lookahead τ} (hreach : p.Reaches first m)
    (h : p.Traced first m m saved) (hl : Looked p m lookahead m₁) :
    ∃ saved₁, p.Traced first m m₁ saved₁ := by
  cases hl with
  | known => exact ⟨saved, h⟩
  | ended hnone hread | single hnone hread =>
    have hb := h.readToken hread
    exact ⟨saved, hb.timely.congr rfl rfl rfl rfl, hb.left⟩
  | @several b b' token reading other others hnone hread hways hleave =>
    have hleaves := LeavesChoice.reading hnone hread hways hleave
    have hb := h.readToken hread
    have hb' := hb.timely.leave rfl hleave
    obtain ⟨depth, rfl⟩ := leaveChoice_ok hleave
    exact ⟨b :: saved, hb'.congr rfl rfl rfl rfl, .cons (.of_leaves hreach hleaves) hb.left⟩

/-- What is found on returning to a choice point, which then is still traced. -/
theorem back {b : Machine τ ν ε σ} {deadEnd : DeadEnd} (h : p.Traced first m b saved)
    (hback : Machine.backtrack? { b with farthest := some deadEnd } = some m') :
    ∃ (c : ChoicePoint τ) (s : Machine τ ν ε σ) (way : Way) (rest : OpenWays),
      p.Left first m c s ∧ c.ways.pop? = some (way, rest) ∧
      Undoes c.stamp b.stack b.trail s.stack s.trail ∧
      m' = { b with farthest := some deadEnd }.backAt s c way rest ∧
      ∃ saved', p.Traced first m m' saved' := by
  have htimely : Timely { b with farthest := some deadEnd } saved := h.timely.congr rfl rfl rfl rfl
  obtain ⟨c, s, earlier, way, rest, hchoices, rfl, hpop, hundo, hm', hnext⟩ :=
    htimely.backtrack hback
  have hchoices' : b.choices = c :: s.choices := hchoices
  have hleft := h.left
  rw [hchoices', List.forall₂_cons] at hleft
  refine ⟨c, s, way, rest, hleft.1, hpop, hundo, hm', _, hnext, ?_⟩
  rw [hm']
  cases hrest : rest.isEmpty with
  | true =>
    simp only [Machine.backAt, hrest, if_true]
    exact hleft.2
  | false =>
    simp only [Machine.backAt, hrest, Bool.false_eq_true, if_false]
    exact .cons (hleft.1.tail hpop) hleft.2

/-- A move either leaves at most one more choice point, or returns to one. -/
theorem moved {lookahead : Lookahead τ} (hreach : p.Reaches first m)
    (hlooked : Looked p m lookahead m₁) (h : p.Traced first m m₁ saved)
    (hmoved : Moved p lookahead { m₁ with forced := none } (p.nextAction m₁ lookahead) m') :
    (m'.counts.backtracks = m.counts.backtracks ∧ ∃ saved', p.Traced first m m' saved') ∨
    ∃ deadEnd,
      Machine.backtrack? { m₁ with forced := none, farthest := some deadEnd } = some m' := by
  have hcount := hlooked.frame.2.2.2
  have htimely : Timely { m₁ with forced := none } saved := h.timely.congr rfl rfl rfl rfl
  have hleft := h.left
  generalize hnext : p.nextAction m₁ lookahead = next at hmoved
  cases hmoved with
  | shift => exact .inl ⟨hcount, saved, htimely.shift _ _, hleft⟩
  | reduce hr =>
    have htimely' := htimely.reduce hr
    obtain ⟨shape, priority, node, memory, next, -, -, -, -, -, rfl⟩ := reduce_done hr
    exact .inl ⟨hcount, saved, htimely', hleft⟩
  | only => exact .inl ⟨hcount, saved, htimely.congr rfl rfl rfl rfl, hleft⟩
  | branch hopen hleave =>
    have hleaves := LeavesChoice.action hlooked (hnext ▸ hopen) hleave
    have htimely' := htimely.leave rfl hleave
    obtain ⟨depth, rfl⟩ := leaveChoice_ok hleave
    exact .inl ⟨hcount, _, htimely'.congr rfl rfl rfl rfl, .cons (.of_leaves hreach hleaves) hleft⟩
  | back _ hback => exact .inr ⟨_, hback⟩

/-- A parse begins without choice points. -/
theorem start (source : List (Except ε τ)) (memory : σ) :
    p.Traced (.start source memory) (.start source memory) (.start source memory) [] :=
  ⟨.start source memory, .nil⟩

/-- What is left before a step is left before the next one. -/
theorem mono {b : Machine τ ν ε σ} (h : p.Traced first m b saved) (hreach : p.Reaches m m') :
    p.Traced first m' b saved :=
  ⟨h.timely, h.left.imp fun _ _ hleft => hleft.mono hreach⟩

/-- A step that returns to a choice point does so from a machine that has looked at most, and else
every step keeps the record of what was left. -/
theorem step (hreach : p.Reaches first m) (h : p.Traced first m m saved)
    (hstep : p.step m = .next m') :
    (m'.counts.backtracks = m.counts.backtracks ∧ ∃ saved', p.Traced first m m' saved') ∨
    ∃ (b : Machine τ ν ε σ) (saved₁ : List (Machine τ ν ε σ)) (deadEnd : DeadEnd),
      b.stack = m.stack ∧ b.trail = m.trail ∧ p.Traced first m b saved₁ ∧
      Machine.backtrack? { b with farthest := some deadEnd } = some m' := by
  rcases step_next hstep with ⟨lookahead, m₁, -, hlooked, hmoved⟩ | ⟨b, deadEnd, hrefused, hback⟩
  · obtain ⟨saved₁, hm₁⟩ := h.looked hreach hlooked
    obtain ⟨hstack, htrail, -, -⟩ := hlooked.frame
    rcases hm₁.moved hreach hlooked hmoved with hgone | ⟨deadEnd, hback⟩
    · exact .inl hgone
    · have htimely : Timely { m₁ with forced := none } saved₁ := hm₁.timely.congr rfl rfl rfl rfl
      exact .inr ⟨{ m₁ with forced := none }, saved₁, deadEnd, hstack, htrail,
        ⟨htimely, hm₁.left⟩, hback⟩
  · obtain ⟨-, token, hread, -⟩ := look_refused hrefused
    have hb := h.readToken hread
    obtain ⟨pulled, source, exhausted, heq⟩ := readToken_eq hread
    exact .inr ⟨b, saved, deadEnd, by rw [heq], by rw [heq], hb, hback⟩

/-- Every machine that a parse reaches is traced. -/
theorem of_reaches {source : List (Except ε τ)} {memory : σ}
    (hreach : p.Reaches (.start source memory) m) :
    ∃ saved, p.Traced (.start source memory) m m saved := by
  induction hreach with
  | refl => exact ⟨[], .start source memory⟩
  | tail hreach hstep ih =>
    obtain ⟨saved, h⟩ := ih
    rcases h.step hreach hstep with ⟨-, saved', h'⟩ | ⟨b, saved₁, deadEnd, -, -, hb, hback⟩
    · exact ⟨saved', h'.mono (.single hstep)⟩
    · obtain ⟨c, s, way, rest, -, -, -, -, saved', h'⟩ := hb.back hback
      exact ⟨saved', h'.mono (.single hstep)⟩

end Traced

/-- Returning to a choice point is exact. Whenever a step of a parse backtracks, some earlier step
had left the choice point `c` at a machine `b`, the next of whose ways is tried now. What was done
since can be undone entry by entry, from records not older than the choice point. Then the stack,
the trail, the position and the outer choice points are those of `b`, and the lookahead is the one
kept in `c`, for a choice between readings under the new reading. -/
theorem backtrack_restores {source : List (Except ε τ)} {memory : σ}
    (hreach : p.Reaches (.start source memory) m) (hstep : p.step m = .next m')
    (hback : m.counts.backtracks < m'.counts.backtracks) :
    ∃ (m₀ b : Machine τ ν ε σ) (c : ChoicePoint τ) (way : Way) (rest : OpenWays),
      p.Reaches (.start source memory) m₀ ∧ p.Reaches m₀ m ∧ p.LeavesChoice m₀ b c ∧
      way :: rest.toList <:+ c.ways.toList ∧
      Undoes c.stamp m.stack m.trail b.stack b.trail ∧
      m'.stack = b.stack ∧ m'.trail = b.trail ∧ m'.position = b.position ∧
      m'.choices = (if rest.isEmpty then b.choices else { c with ways := rest } :: b.choices) ∧
      m'.lookahead = some (match way with
        | .action _ => c.lookahead
        | .reading r => c.lookahead.reread r m'.clock) ∧
      m'.forced = (match way with
        | .action a => some a
        | .reading _ => none) := by
  obtain ⟨saved, h⟩ := Traced.of_reaches hreach
  rcases h.step hreach hstep with ⟨hcount, -⟩ | ⟨d, saved₁, deadEnd, hstack, htrail, hd, hback'⟩
  · omega
  · obtain ⟨c, s, way, rest, hleft, hpop, hundo, hm', -⟩ := hd.back hback'
    obtain ⟨m₀, c₀, hm₀, hm, hleaves, hc, hways⟩ := hleft
    rw [OpenWays.toList_of_pop? hpop] at hways
    rw [hstack, htrail] at hundo
    have hstamp : c.stamp = c₀.stamp := (congrArg ChoicePoint.stamp hc :)
    have hlookahead : c.lookahead = c₀.lookahead := (congrArg ChoicePoint.lookahead hc :)
    have hposition : c.position = s.position :=
      (congrArg ChoicePoint.position hc :).trans hleaves.position_eq
    have hwithRest : { c with ways := rest } = { c₀ with ways := rest } := by rw [hc]
    rw [hstamp] at hundo
    refine ⟨m₀, s, c₀, way, rest, hm₀, hm, hleaves, hways, hundo, ?_⟩
    rw [hm', ← hwithRest, ← hlookahead]
    refine ⟨rfl, rfl, hposition, rfl, ?_, ?_⟩ <;> cases way <;> rfl

/-- The table of `S := X c | Y d; X := a; Y := a` (as rules 1 to 4) that leaves the reductions of
`a` undecided, so that a parser has to guess. -/
def guessingTable : ParseTable where
  initial := ⟨0⟩
  action q t := match q.val, t.val with
    | 0, 1 => .shift ⟨1⟩
    | 1, 2 | 1, 3 => .choice ⟨0⟩
    | 2, 0 => .accept
    | 3, 2 => .shift ⟨5⟩
    | 4, 3 => .shift ⟨6⟩
    | 5, 0 => .reduce ⟨1⟩
    | 6, 0 => .reduce ⟨2⟩
    | _, _ => .error
  goto q n := match q.val, n.val with
    | 0, 1 => some ⟨2⟩
    | 0, 2 => some ⟨3⟩
    | 0, 3 => some ⟨4⟩
    | _, _ => none
  rule r := [⟨⟨0⟩, 1, none⟩, ⟨⟨1⟩, 2, none⟩, ⟨⟨1⟩, 2, none⟩, ⟨⟨2⟩, 1, none⟩, ⟨⟨3⟩, 1, none⟩][r.val]?
  candidates d := if d.val = 0 then some [.reduce ⟨4⟩, .reduce ⟨3⟩] else none
  expected q := match q.val with
    | 0 => [⟨1⟩]
    | 1 => [⟨2⟩, ⟨3⟩]
    | 3 => [⟨2⟩]
    | 4 => [⟨3⟩]
    | _ => [⟨0⟩]
  operators := ∅
  operatorTerminal _ _ := none
  nonterminalName _ := none

/-- Terminals as tokens without a name. -/
instance : Token TerminalId := ⟨id, fun _ => none⟩

/-- A maker of nodes that numbers the rule only. -/
def ruleMaker : NodeMaker TerminalId RuleId Empty Unit := ⟨fun r _ memory => (.ok r, memory)⟩

/-- The machine that has guessed wrongly, on `a c`, that `a` is a `Y`. -/
def wrongGuess : Machine TerminalId RuleId Empty Unit where
  stack := [⟨⟨4⟩, .node ⟨4⟩, 0, 1⟩]
  choices := [⟨1, 1, .token ⟨⟨2⟩, ⟨⟨2⟩, none⟩, 1, 0⟩, .actions [.reduce ⟨3⟩]⟩]
  trail := [⟨1, ⟨4⟩, [⟨⟨1⟩, .token ⟨⟨1⟩, ⟨⟨1⟩, none⟩, 0, 0⟩, 0, 0⟩]⟩]
  clock := 1
  pulled := [⟨1⟩, ⟨2⟩]
  source := []
  exhausted := false
  position := 1
  lookahead := some (.token ⟨⟨2⟩, ⟨⟨2⟩, none⟩, 1, 0⟩)
  forced := none
  farthest := none
  counts := ⟨1, 1, 0, 0, 1, 0, 0⟩
  memory := ()

/-- From a wrong guess the parser returns to the machine that guessed. -/
theorem wrongGuess_restored :
    (Parser.ofTable guessingTable ruleMaker none).Reaches (.start [.ok ⟨1⟩, .ok ⟨2⟩] ())
      wrongGuess ∧
    ∃ (m' b : Machine TerminalId RuleId Empty Unit) (c : ChoicePoint TerminalId),
      (Parser.ofTable guessingTable ruleMaker none).step wrongGuess = .next m' ∧
      wrongGuess.counts.backtracks < m'.counts.backtracks ∧
      Undoes c.stamp wrongGuess.stack wrongGuess.trail b.stack b.trail ∧
      m'.stack = b.stack ∧ m'.trail = b.trail ∧ m'.position = b.position := by
  have hreach : (Parser.ofTable guessingTable ruleMaker none).Reaches
      (.start [.ok ⟨1⟩, .ok ⟨2⟩] ()) wrongGuess := .tail (.tail (.tail .refl rfl) rfl) rfl
  refine ⟨hreach, ?_⟩
  obtain ⟨_, b, c, _, _, -, -, -, -, hundo, hstack, htrail, hposition, -⟩ :=
    backtrack_restores hreach rfl (by decide)
  exact ⟨_, b, c, rfl, by decide, hundo, hstack, htrail, hposition⟩

end OperatorLALR.Parser
