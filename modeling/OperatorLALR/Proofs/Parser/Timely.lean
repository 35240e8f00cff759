import OperatorLALR.Proofs.Parser.Moves
import OperatorLALR.Proofs.Parser.Undoing

/-!
# The order of times

A machine is `Timely` if its times agree with the order in which things happened: nothing on the
stack or among the choice points is later than the clock, and each choice point can be returned to.
Every part of a step keeps this. On returning to a choice point, the machine finds the stack, the
trail and the outer choice points of the one that had left it (`Timely.backtrack`).
-/

namespace OperatorLALR

variable {τ ν β ε σ : Type}

namespace OpenWays

/-- The ways left open, in the order in which they are tried. -/
def toList : OpenWays → List Way
  | .actions as => as.map .action
  | .readings rs => rs.map .reading

/-- The first way is taken from the front. -/
theorem toList_of_pop? {ways rest : OpenWays} {way : Way} (h : ways.pop? = some (way, rest)) :
    ways.toList = way :: rest.toList := by
  unfold pop? at h
  split at h
  · obtain ⟨rfl, rfl⟩ := Prod.mk.inj (Option.some.inj h)
    rfl
  · obtain ⟨rfl, rfl⟩ := Prod.mk.inj (Option.some.inj h)
    rfl
  · cases h

/-- Where some way is left, one can be taken. -/
theorem exists_pop? {ways : OpenWays} (h : ways.isEmpty = false) :
    ∃ way rest, ways.pop? = some (way, rest) := by
  match ways with
  | .actions [] => cases h
  | .actions (a :: as) => exact ⟨.action a, .actions as, rfl⟩
  | .readings [] => cases h
  | .readings (r :: rs) => exact ⟨.reading r, .readings rs, rfl⟩

/-- Where no way is left, there is none to list. -/
theorem toList_eq_nil {ways : OpenWays} (h : ways.isEmpty = true) : ways.toList = [] := by
  match ways with
  | .actions [] => rfl
  | .readings [] => rfl

end OpenWays

/-- A machine back at a choice point that another machine had left, on the next of its ways. -/
def Machine.backAt (m saved : Machine τ ν ε σ) (c : ChoicePoint τ) (way : Way) (rest : OpenWays) :
    Machine τ ν ε σ :=
  { m with
    stack := saved.stack
    trail := saved.trail
    choices := if rest.isEmpty then saved.choices else { c with ways := rest } :: saved.choices
    position := c.position
    lookahead := match way with
      | .action _ => some c.lookahead
      | .reading r => some (c.lookahead.reread r m.clock)
    forced := match way with
      | .action a => some a
      | .reading _ => none
    counts := { m.counts with
      backtracks := m.counts.backtracks + 1
      undoneReductions := m.counts.undoneReductions + (m.trail.length - saved.trail.length) } }

/-- Nothing is later than the clock, each choice point has a way left, and behind each of them lies
the machine that left it. -/
structure Timely (m : Machine τ ν ε σ) (saved : List (Machine τ ν ε σ)) : Prop where
  rewindable : Rewindable m.stack m.trail m.choices saved
  stack_le : ∀ e ∈ m.stack, e.stamp ≤ m.clock
  choices_le : ∀ c ∈ m.choices, c.stamp ≤ m.clock
  ways : ∀ c ∈ m.choices, c.ways.isEmpty = false

namespace Timely

variable {p : Parser τ ν β σ} {m m' : Machine τ ν ε σ} {saved : List (Machine τ ν ε σ)}

/-- A parse begins without entries, trail and choice points. -/
theorem start (source : List (Except ε τ)) (memory : σ) :
    Timely (.start source memory : Machine τ ν ε σ) [] where
  rewindable := .nil
  stack_le := by simp [Machine.start]
  choices_le := by simp [Machine.start]
  ways := by simp [Machine.start]

/-- Only stack, trail, choice points and clock matter. -/
theorem congr (h : Timely m saved) (hstack : m'.stack = m.stack) (htrail : m'.trail = m.trail)
    (hchoices : m'.choices = m.choices) (hclock : m'.clock = m.clock) : Timely m' saved where
  rewindable := by
    rw [hstack, htrail, hchoices]
    exact h.rewindable
  stack_le := by
    rw [hstack, hclock]
    exact h.stack_le
  choices_le := by
    rw [hchoices, hclock]
    exact h.choices_le
  ways := by
    rw [hchoices]
    exact h.ways

/-- Reading a token keeps the order of times. -/
theorem readToken {r : Except ε (Option τ)} (h : Timely m saved)
    (hread : Parser.readToken m = (r, m')) : Timely m' saved := by
  obtain ⟨pulled, source, exhausted, rfl⟩ := Parser.readToken_eq hread
  exact h.congr rfl rfl rfl rfl

/-- A shift keeps the order of times. -/
theorem shift (h : Timely m saved) (next : StateId) (view : TokenView τ) :
    Timely (Parser.shift m next view) saved where
  rewindable := h.rewindable.shift rfl h.choices_le
  stack_le := by
    intro e he
    rcases List.mem_cons.mp he with rfl | he
    · exact Nat.le_refl _
    · exact h.stack_le e he
  choices_le := h.choices_le
  ways := h.ways

/-- A reduction keeps the order of times, whatever the maker of nodes remembers. -/
theorem reduce (h : Timely m saved) {r : RuleId} (hr : p.reduce m r = .done m') :
    Timely m' saved := by
  obtain ⟨shape, priority, node, memory, next, -, -, -, -, -, rfl⟩ := Parser.reduce_done hr
  have hstack : m.stack = (m.stack.take shape.length).reverse.reverse ++
      m.stack.drop shape.length := by
    rw [List.reverse_reverse, List.take_append_drop]
  have hclock : ∀ c ∈ m.choices, c.stamp ≤ m.clock ∧ c.stamp ≤ m.clock :=
    fun c hc => ⟨h.choices_le c hc, h.choices_le c hc⟩
  have hrewind : Rewindable (⟨next, .node node, priority, m.clock⟩ :: m.stack.drop shape.length)
      (if m.choices.isEmpty then m.trail
        else ⟨m.clock, r, (m.stack.take shape.length).reverse⟩ :: m.trail) m.choices saved :=
    h.rewindable.reduce rfl hstack hclock
  refine ⟨hrewind, ?_, h.choices_le, h.ways⟩
  intro e he
  rcases List.mem_cons.mp he with rfl | he
  · exact Nat.le_refl _
  · exact h.stack_le e (List.mem_of_mem_drop he)

/-- A choice point with a way left may be added. -/
theorem leave (h : Timely m saved) {lookahead : Lookahead τ} {ways : OpenWays}
    (hways : ways.isEmpty = false) (hl : p.leaveChoice m lookahead ways = .ok m') :
    Timely m' (m :: saved) := by
  obtain ⟨depth, rfl⟩ := Parser.leaveChoice_ok hl
  have hstack : ∀ e ∈ m.stack, e.stamp < m.clock + 1 :=
    fun e he => Nat.lt_succ_of_le (h.stack_le e he)
  refine ⟨h.rewindable.leave hstack, fun e he => Nat.le_of_lt (hstack e he), ?_, ?_⟩
  · intro c hc
    rcases List.mem_cons.mp hc with rfl | hc
    · exact Nat.le_refl _
    · exact Nat.le_succ_of_le (h.choices_le c hc)
  · intro c hc
    rcases List.mem_cons.mp hc with rfl | hc
    · exact hways
    · exact h.ways c hc

/-- The trail is cleared only where it is empty. -/
theorem resume_eq_backAt {c : ChoicePoint τ} {s : Machine τ ν ε σ} {way : Way} {rest : OpenWays}
    (hundo : Undoes c.stamp m.stack m.trail s.stack s.trail)
    (hs : Rewindable s.stack s.trail s.choices saved) :
    m.resume way c (if rest.isEmpty then s.choices else { c with ways := rest } :: s.choices) =
      m.backAt s c way rest := by
  have htrail : (if (if rest.isEmpty then s.choices
      else { c with ways := rest } :: s.choices).isEmpty then [] else s.trail) = s.trail := by
    cases hrest : rest.isEmpty with
    | false => rfl
    | true =>
      simp only [if_true]
      split
      · next hnil => exact (hs.trail_eq_nil (List.isEmpty_iff.mp hnil)).symm
      · rfl
  cases way <;> simp only [Machine.resume, Machine.backAt, hundo.undoSince_eq, htrail]

/-- Times still agree after returning to the innermost choice point. -/
theorem backAt {c : ChoicePoint τ} {s : Machine τ ν ε σ} {earlier : List (Machine τ ν ε σ)}
    {way : Way} {rest : OpenWays} (h : Timely m (s :: earlier))
    (hchoices : m.choices = c :: s.choices)
    (hundo : Undoes c.stamp m.stack m.trail s.stack s.trail)
    (hs : Rewindable s.stack s.trail s.choices earlier) :
    Timely (m.backAt s c way rest) (if rest.isEmpty then earlier else s :: earlier) := by
  have hc : c.stamp ≤ m.clock := h.choices_le c (hchoices ▸ List.mem_cons_self)
  have houter : ∀ c' ∈ s.choices, c' ∈ m.choices := fun c' hc' =>
    hchoices ▸ List.mem_cons_of_mem c hc'
  have hstack : ∀ e ∈ s.stack, e.stamp ≤ m.clock := fun e he =>
    Nat.le_of_lt (Nat.lt_of_lt_of_le (hundo.older e he) hc)
  cases hrest : rest.isEmpty with
  | true =>
    refine ⟨?_, hstack, ?_, ?_⟩ <;> simp only [Machine.backAt, hrest, if_true]
    · exact hs
    · exact fun c' hc' => h.choices_le c' (houter c' hc')
    · exact fun c' hc' => h.ways c' (houter c' hc')
  | false =>
    refine ⟨?_, hstack, ?_, ?_⟩ <;> simp only [Machine.backAt, hrest, Bool.false_eq_true, if_false]
    · exact .cons (.done hundo.older) hs
    · intro c' hc'
      rcases List.mem_cons.mp hc' with rfl | hc'
      · exact hc
      · exact h.choices_le c' (houter c' hc')
    · intro c' hc'
      rcases List.mem_cons.mp hc' with rfl | hc'
      · exact hrest
      · exact h.ways c' (houter c' hc')

/-- What is found on returning to the innermost choice point, and that times still agree. -/
theorem backtrack (h : Timely m saved) (hb : m.backtrack? = some m') :
    ∃ (c : ChoicePoint τ) (s : Machine τ ν ε σ) (earlier : List (Machine τ ν ε σ)) (way : Way)
      (rest : OpenWays),
      m.choices = c :: s.choices ∧ saved = s :: earlier ∧ c.ways.pop? = some (way, rest) ∧
      Undoes c.stamp m.stack m.trail s.stack s.trail ∧
      m' = m.backAt s c way rest ∧
      Timely m' (if rest.isEmpty then earlier else s :: earlier) := by
  cases hchoices : m.choices with
  | nil =>
    rw [Machine.backtrack?, hchoices] at hb
    cases hb
  | cons c outer =>
    have hmem : c ∈ m.choices := hchoices ▸ List.mem_cons_self
    have hrewind := h.rewindable
    rw [hchoices] at hrewind
    obtain ⟨s, earlier, rfl, rfl, hundo, hs⟩ := hrewind.innermost
    obtain ⟨way, rest, hpop⟩ := OpenWays.exists_pop? (h.ways c hmem)
    rw [Machine.backtrack?, hchoices, nextWay?, hpop] at hb
    obtain rfl := Option.some.inj hb
    have heq : m.resume way c _ = m.backAt s c way rest := resume_eq_backAt hundo hs
    refine ⟨c, s, earlier, way, rest, rfl, rfl, hpop, hundo, heq, ?_⟩
    dsimp only
    rw [heq]
    exact h.backAt hchoices hundo hs

end Timely

end OperatorLALR
