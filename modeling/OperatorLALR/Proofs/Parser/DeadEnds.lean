import OperatorLALR.Proofs.Search.Exhaustive
import OperatorLALR.Proofs.Soundness.Branches

/-!
# The dead ends of a parse

A machine is stranded if its state has no action on any reading of the next token, or if there is no
way on with the action on the lookahead (`Parser.Strands`). A step from such a machine retreats, and
keeps the farther of this dead end and the one met before; any other step leaves the latter as it is
and does not go back in the input (`farthest_of_step`). So what a run keeps of the machines it has
passed is the first of those that were stranded farthest (`Parser.Farthest`).
-/

namespace OperatorLALR

variable {τ ν β ε σ : Type}

/-- How many places of the input a dead end has come to: those before it and its own. -/
def DeadEnd.extent (d : Option DeadEnd) : Nat := d.elim 0 fun d => d.position + 1

/-- The farther of two dead ends extends as far as both. -/
theorem extent_fartherOf (earlier : Option DeadEnd) (d : DeadEnd) :
    DeadEnd.extent (some (Parser.fartherOf earlier d)) =
      max (DeadEnd.extent earlier) (d.position + 1) := by
  cases earlier with
  | none => exact (Nat.max_eq_right (Nat.zero_le _)).symm
  | some e =>
    rw [Parser.fartherOf]
    dsimp only [DeadEnd.extent, Option.elim]
    split
    · next hlt => rw [Nat.max_eq_right (by omega)]
    · next hle => rw [Nat.max_eq_left (by omega)]

namespace Parser

variable {lookahead : Lookahead τ} {m : Machine τ ν ε σ} {a : Action}

/-- Reading leaves the farthest dead end and the position as they are. -/
theorem readToken_farthest {b : Machine τ ν ε σ} {r : Except ε (Option τ)}
    (h : readToken m = (r, b)) : b.farthest = m.farthest ∧ b.position = m.position := by
  obtain ⟨pulled, source, exhausted, rfl⟩ := readToken_eq h
  exact ⟨rfl, rfl⟩

variable {p : Parser τ ν β σ}

/-- A move that is no retreat keeps the farthest dead end, and does not go back in the input. -/
theorem Moved.farthest_eq {m' : Machine τ ν ε σ} (h : Moved p lookahead m a m')
    (hfree : ¬ Stuck p lookahead m a) : m'.farthest = m.farthest ∧ m.position ≤ m'.position := by
  cases h with
  | shift => exact ⟨rfl, Nat.le_succ _⟩
  | reduce hr =>
    obtain ⟨shape, priority, node, memory, next, -, -, -, -, -, rfl⟩ := reduce_done hr
    exact ⟨rfl, Nat.le_refl _⟩
  | only => exact ⟨rfl, Nat.le_refl _⟩
  | branch _ hleave =>
    obtain ⟨depth, rfl⟩ := leaveChoice_ok hleave
    exact ⟨rfl, Nat.le_refl _⟩
  | back hstuck => exact absurd hstuck hfree

/-- A token that has been read is the current one, if the machine stood within what had been
read. -/
theorem currentToken?_of_readToken {b : Machine τ ν ε σ} {token : τ}
    (hwithin : m.position ≤ m.pulled.length) (h : readToken m = (.ok (some token), b)) :
    b.currentToken? = some token := by
  unfold readToken at h
  split at h
  · next htoken =>
    obtain ⟨heq, rfl⟩ := Prod.mk.inj h
    rwa [Option.some.inj (Except.ok.inj heq)] at htoken
  · next hnone =>
    split at h
    · cases (Prod.mk.inj h).1
    · split at h
      · cases (Prod.mk.inj h).1
      · obtain ⟨heq, rfl⟩ := Prod.mk.inj h
        obtain rfl := Option.some.inj (Except.ok.inj heq)
        -- the token is put behind those that had been read, where the machine stands
        have hbehind : m.position = m.pulled.length :=
          Nat.le_antisymm hwithin (List.getElem?_eq_none_iff.mp hnone)
        dsimp only [Machine.currentToken?]
        rw [hbehind, List.getElem?_concat_length]
      · cases (Prod.mk.inj h).1

/-- A token that has to be asked for is missing in the buffer, and a failure to give it is next in
the source. -/
theorem readToken_error {b : Machine τ ν ε σ} {cause : ε} (h : readToken m = (.error cause, b)) :
    m.currentToken? = none ∧ m.exhausted = false ∧ m.source = .error cause :: b.source := by
  unfold readToken at h
  split at h
  · cases (Prod.mk.inj h).1
  · next htoken =>
    split at h
    · cases (Prod.mk.inj h).1
    · next hexhausted =>
      split at h
      · cases (Prod.mk.inj h).1
      · cases (Prod.mk.inj h).1
      · next hsource =>
        obtain ⟨heq, rfl⟩ := Prod.mk.inj h
        rw [Except.error.inj heq] at hsource
        exact ⟨htoken, Bool.eq_false_iff.mpr hexhausted, hsource⟩

variable [Token τ]

/-- A machine whose step has no way on, and the terminal on which there is none. -/
inductive Strands (p : Parser τ ν β σ) (m : Machine τ ν ε σ) : TerminalId → Prop
  /-- Its state has no action on any reading of the next token. -/
  | unread {token : τ} {b : Machine τ ν ε σ} (hnone : m.lookahead = none)
      (hread : readToken m = (.ok (some token), b))
      (hrefuses : ∀ reading, Reads p.operators token reading →
        p.table.action (p.stateOn m.stack) reading.terminal = .error) :
      Strands p m (Token.terminal token)
  /-- There is no way on with the action on the lookahead. -/
  | stuck {lookahead : Lookahead τ} {m₁ : Machine τ ν ε σ} (hlooked : Looked p m lookahead m₁)
      (hstuck : Stuck p lookahead { m₁ with forced := none } (p.nextAction m₁ lookahead)) :
      Strands p m lookahead.terminal

/-- The dead end of a stranded machine: its position, the state on its stack, and the terminal. -/
def strandedAt (p : Parser τ ν β σ) (m : Machine τ ν ε σ) (t : TerminalId) : DeadEnd :=
  ⟨m.position, p.stateOn m.stack, t⟩

/-- What is kept of the machines that a run has passed: the dead end of the first of those that were
stranded farthest. -/
inductive Farthest (p : Parser τ ν β σ) (passed : List (Machine τ ν ε σ)) : Option DeadEnd → Prop
  /-- None was stranded. -/
  | nowhere (h : ∀ x ∈ passed, ∀ t, ¬ p.Strands x t) : Farthest p passed none
  /-- Those before it were stranded nearer, and those after it no farther. -/
  | first {before after : List (Machine τ ν ε σ)} {m : Machine τ ν ε σ} {t : TerminalId}
      (hpassed : passed = before ++ m :: after) (hm : p.Strands m t)
      (hbefore : ∀ x ∈ before, ∀ s, p.Strands x s → x.position < m.position)
      (hafter : ∀ x ∈ after, ∀ s, p.Strands x s → x.position ≤ m.position) :
      Farthest p passed (some (p.strandedAt m t))

/-- The machines at which a parse stands in at most the given number of steps, in order. -/
def machines (p : Parser τ ν β σ) : Nat → Machine τ ν ε σ → List (Machine τ ν ε σ)
  | 0, _ => []
  | n + 1, m => m :: match p.step m with
    | .next m => p.machines n m
    | .halt _ _ => []

/-- A state accepts no reading of a token if it has no action on any. -/
theorem readings_eq_nil_iff {q : StateId} {token : τ} :
    p.readings q token = [] ↔
      ∀ reading, Reads p.operators token reading → p.table.action q reading.terminal = .error := by
  rw [← Branch.alternatives_eq_readings, List.eq_nil_iff_forall_not_mem]
  simp only [Branch.mem_alternatives, not_and, not_not]

/-- The look of a stranded machine is refused, or decides on a lookahead on which there is no way
on. -/
theorem Strands.look {t : TerminalId} (h : p.Strands m t) :
    (∃ b, p.look (p.stateOn m.stack) m = .refused b) ∨
    ∃ lookahead m₁, p.look (p.stateOn m.stack) m = .done m₁ ∧ m₁.lookahead = some lookahead ∧
      Stuck p lookahead { m₁ with forced := none } (p.nextAction m₁ lookahead) := by
  cases h with
  | @unread token b hnone hread hrefuses =>
    refine .inl ⟨b, ?_⟩
    unfold Parser.look
    rw [hnone, hread]
    dsimp only
    rw [readings_eq_nil_iff.mpr hrefuses]
  | stuck hlooked hstuck => exact .inr ⟨_, _, hlooked.look_eq, hlooked.lookahead_eq, hstuck⟩

/-- A look leaves the farthest dead end as it is. -/
theorem Looked.farthest_eq {m₁ : Machine τ ν ε σ} (h : Looked p m lookahead m₁) :
    m₁.farthest = m.farthest := by
  cases h with
  | known => rfl
  | ended _ hread | single _ hread => exact (readToken_farthest hread).1
  | several _ hread _ hleave =>
    have hsame := (readToken_farthest hread).1
    obtain ⟨depth, rfl⟩ := leaveChoice_ok hleave
    exact hsame

/-- A machine at which a step stands after its look. -/
inductive AfterLook (p : Parser τ ν β σ) (m : Machine τ ν ε σ) : Machine τ ν ε σ → Prop
  /-- The state accepts no reading of the next token. -/
  | unread {b : Machine τ ν ε σ} (h : p.look (p.stateOn m.stack) m = .refused b) : AfterLook p m b
  /-- The lookahead has been decided. -/
  | decided {lookahead : Lookahead τ} {m₁ : Machine τ ν ε σ} (h : Looked p m lookahead m₁) :
      AfterLook p m { m₁ with forced := none }

/-- Whatever a look finds, it leaves the farthest dead end and the position as they are. -/
theorem AfterLook.farthest_eq {b : Machine τ ν ε σ} (h : AfterLook p m b) :
    b.farthest = m.farthest ∧ b.position = m.position := by
  cases h with
  | unread hlook =>
    obtain ⟨-, token, hread, -⟩ := look_refused hlook
    exact readToken_farthest hread
  | decided hlooked => exact ⟨hlooked.farthest_eq, hlooked.frame.2.2.1⟩

/-- To retreat keeps the farther of the dead end here and those before, and shows it if there is no
choice point to return to. -/
theorem retreat_eq (q : StateId) (b : Machine τ ν ε σ) :
    (∃ m', p.retreat q b = .next m' ∧ m'.farthest = some (fartherOf b.farthest (deadEndAt q b))) ∨
    p.retreat q b = .halt (.error (.rejected (fartherOf b.farthest (deadEndAt q b)).position
      (fartherOf b.farthest (deadEndAt q b)).lookahead
      (p.table.expected (fartherOf b.farthest (deadEndAt q b)).state))) b.cleared := by
  unfold retreat
  dsimp only
  split
  · next m' hback =>
    obtain ⟨⟨way, c, pending⟩, -, rfl⟩ := Option.map_eq_some_iff.mp hback
    exact .inl ⟨_, rfl, rfl⟩
  · exact .inr rfl

/-- A look fails with a failure of the source if this is what reading comes to. -/
theorem look_failed_source {q : StateId} {b : Machine τ ν ε σ} {cause : ε}
    (h : p.look q m = .failed (.source cause) b) : readToken m = (.error cause, b) := by
  unfold look at h
  split at h
  · cases h
  · split at h
    · next e b' hread =>
      obtain ⟨heq, rfl⟩ := Attempt.failed.inj h
      rw [hread, ParseError.source.inj heq]
    · cases h
    · split at h
      · cases h
      · cases h
      · dsimp only at h
        split at h
        · next hleave =>
          obtain ⟨depth, rfl⟩ := leaveChoice_error hleave
          cases (Attempt.failed.inj h).1
        · cases h

/-- A step from a stranded machine retreats from its dead end, after a look. Any other fails to
read, or decides on a lookahead and carries out an action with which there is a way on. -/
theorem strands_cases (p : Parser τ ν β σ) (hwithin : m.position ≤ m.pulled.length) :
    (∃ t b, p.Strands m t ∧ AfterLook p m b ∧
      deadEndAt (p.stateOn m.stack) b = p.strandedAt m t ∧
      p.step m = p.retreat (p.stateOn m.stack) b) ∨
    (∀ t, ¬ p.Strands m t) ∧
      ((∃ e b, p.look (p.stateOn m.stack) m = .failed e b ∧ p.step m = .halt (.error e) b) ∨
      ∃ lookahead m₁, Looked p m lookahead m₁ ∧
        ¬ Stuck p lookahead { m₁ with forced := none } (p.nextAction m₁ lookahead) ∧
        Performed p lookahead { m₁ with forced := none } (p.nextAction m₁ lookahead)
          (p.step m)) := by
  cases hlook : p.look (p.stateOn m.stack) m with
  | failed e b =>
    refine .inr ⟨fun t ht => ?_, .inl ⟨e, b, rfl, ?_⟩⟩
    · rcases ht.look with ⟨b', hb⟩ | ⟨_, m₁, hdone, -⟩
      · cases hlook.symm.trans hb
      · cases hlook.symm.trans hdone
    · rw [step, hlook]
  | refused b =>
    obtain ⟨hnone, token, hread, hways⟩ := look_refused hlook
    refine .inl ⟨Token.terminal token, b, .unread hnone hread (readings_eq_nil_iff.mp hways),
      .unread hlook, ?_, ?_⟩
    · obtain ⟨pulled, source, exhausted, hb⟩ := readToken_eq hread
      have hopen : b.lookahead = none := hb ▸ hnone
      rw [deadEndAt, hopen, currentToken?_of_readToken hwithin hread, strandedAt,
        (readToken_farthest hread).2]
      rfl
    · rw [step, hlook]
  | done m₁ =>
    obtain ⟨lookahead, hl, hlooked⟩ := looked_of_done hlook
    have hstep := hlooked.step_eq
    by_cases hstuck : Stuck p lookahead { m₁ with forced := none } (p.nextAction m₁ lookahead)
    · refine .inl ⟨lookahead.terminal, _, .stuck hlooked hstuck, .decided hlooked, ?_,
        hstep.trans (hstuck.perform_eq _)⟩
      rw [deadEndAt, hl, strandedAt, hlooked.frame.2.2.1]
    · refine .inr ⟨fun t ht => ?_, .inr ⟨lookahead, m₁, hlooked, hstuck, hstep ▸ performed _ _⟩⟩
      rcases ht.look with ⟨b, hb⟩ | ⟨lookahead', m₁', hdone, hl', hstuck'⟩
      · cases hlook.symm.trans hb
      · obtain rfl := Attempt.done.inj (hlook.symm.trans hdone)
        obtain rfl := Option.some.inj (hl.symm.trans hl')
        exact hstuck hstuck'

/-- The step from a stranded machine keeps the farther of its dead end and the one met before. Any
other step leaves the latter as it is, and does not go back in the input. -/
theorem farthest_of_step {m' : Machine τ ν ε σ} (hwithin : m.position ≤ m.pulled.length)
    (h : p.step m = .next m') :
    (∃ t, p.Strands m t ∧ m'.farthest = some (fartherOf m.farthest (p.strandedAt m t))) ∨
    (∀ t, ¬ p.Strands m t) ∧ m'.farthest = m.farthest ∧ m.position ≤ m'.position := by
  rcases strands_cases p hwithin with ⟨t, b, ht, hb, hdead, hstep⟩ |
    ⟨hfree, ⟨e, b, -, hstep⟩ | ⟨lookahead, m₁, hlooked, hopen, hstep⟩⟩
  · refine .inl ⟨t, ht, ?_⟩
    rw [hstep] at h
    rcases retreat_eq (p := p) (p.stateOn m.stack) b with ⟨m₁, hnext, hfarthest⟩ | hhalt
    · obtain rfl := StepResult.next.inj (hnext.symm.trans h)
      rw [hfarthest, hb.farthest_eq.1, hdead]
    · rw [hhalt] at h
      cases h
  · rw [hstep] at h
    cases h
  · rw [h] at hstep
    cases hstep with
    | moved hmoved =>
      obtain ⟨hfarthest, hposition⟩ := hmoved.farthest_eq hopen
      exact .inr ⟨hfree, hfarthest.trans hlooked.farthest_eq,
        Nat.le_trans (Nat.le_of_eq hlooked.frame.2.2.1.symm) hposition⟩

/-- A step that rejects the input does so from a stranded machine, after a look, and shows the
farther of its dead end and the one met before. -/
theorem rejected_of_step {last : Machine τ ν ε σ} {position : Nat} {seen : TerminalId}
    {expected : List TerminalId} (hwithin : m.position ≤ m.pulled.length)
    (h : p.step m = .halt (.error (.rejected position seen expected)) last) :
    ∃ b t d, AfterLook p m b ∧ last = b.cleared ∧ p.Strands m t ∧
      fartherOf m.farthest (p.strandedAt m t) = d ∧
      d.position = position ∧ d.lookahead = seen ∧ p.table.expected d.state = expected := by
  rcases strands_cases p hwithin with ⟨t, b, ht, hb, hdead, hstep⟩ |
    ⟨-, ⟨e, b, hlook, hstep⟩ | ⟨lookahead, m₁, -, hopen, hstep⟩⟩
  · rw [hstep] at h
    rcases retreat_eq (p := p) (p.stateOn m.stack) b with ⟨m₁, hnext, -⟩ | hhalt
    · rw [hnext] at h
      cases h
    · obtain ⟨heq, hlast⟩ := StepResult.halt.inj (hhalt.symm.trans h)
      obtain ⟨hposition, hseen, hexpected⟩ := ParseError.rejected.inj (Except.error.inj heq)
      rw [hb.farthest_eq.1, hdead] at hposition hseen hexpected
      exact ⟨b, t, _, hb, hlast.symm, ht, rfl, hposition, hseen, hexpected⟩
  · obtain ⟨heq, -⟩ := StepResult.halt.inj (hstep.symm.trans h)
    have hnone := look_failed hlook
    rw [Except.error.inj heq] at hnone
    cases hnone
  · rw [h] at hstep
    cases hstep with
    | rejected hstuck => exact absurd hstuck hopen
    | fault he => cases he

/-- A step that ends a parse with a failure of the source has come to it when it asked for a token,
and its machine is not stranded. -/
theorem failed_of_step {last : Machine τ ν ε σ} {cause : ε} (hwithin : m.position ≤ m.pulled.length)
    (h : p.step m = .halt (.error (.source cause)) last) :
    (∀ t, ¬ p.Strands m t) ∧ m.currentToken? = none ∧ m.exhausted = false ∧
      m.source = .error cause :: last.source := by
  rcases strands_cases p hwithin with ⟨t, b, -, -, -, hstep⟩ |
    ⟨hfree, ⟨e, b, hlook, hstep⟩ | ⟨lookahead, m₁, -, -, hstep⟩⟩
  · rw [hstep] at h
    obtain ⟨-, d, hd⟩ := retreat_halt h
    cases hd
  · obtain ⟨heq, rfl⟩ := StepResult.halt.inj (hstep.symm.trans h)
    rw [Except.error.inj heq] at hlook
    exact ⟨hfree, readToken_error (look_failed_source hlook)⟩
  · rw [h] at hstep
    cases hstep with
    | fault he => cases he

namespace Farthest

variable {passed : List (Machine τ ν ε σ)} {d : Option DeadEnd}

/-- A machine that is not stranded leaves what is kept. -/
theorem free (h : p.Farthest passed d) (hm : ∀ t, ¬ p.Strands m t) :
    p.Farthest (passed ++ [m]) d := by
  cases h with
  | nowhere h =>
    refine .nowhere fun x hx => ?_
    rcases List.mem_append.mp hx with hx | hx
    · exact h x hx
    · exact List.mem_singleton.mp hx ▸ hm
  | @first before after x t hpassed hx hbefore hafter =>
    subst hpassed
    have hsplit : before ++ x :: after ++ [m] = before ++ x :: (after ++ [m]) :=
      List.append_assoc _ _ _
    refine .first hsplit hx hbefore fun y hy s hs => ?_
    rcases List.mem_append.mp hy with hy | hy
    · exact hafter y hy s hs
    · exact absurd (List.mem_singleton.mp hy ▸ hs) (hm s)

/-- A machine that is stranded farther than those before it is the one to keep. -/
theorem last {t : TerminalId} (hm : p.Strands m t)
    (hbefore : ∀ x ∈ passed, ∀ s, p.Strands x s → x.position < m.position) :
    p.Farthest (passed ++ [m]) (some (p.strandedAt m t)) := by
  have hafter : ∀ x ∈ ([] : List (Machine τ ν ε σ)), ∀ s, p.Strands x s →
      x.position ≤ m.position := fun _ hx => absurd hx List.not_mem_nil
  exact .first rfl hm hbefore hafter

/-- After a stranded machine, the farther dead end is kept. -/
theorem stranded {t : TerminalId} (h : p.Farthest passed d) (hm : p.Strands m t) :
    p.Farthest (passed ++ [m]) (some (fartherOf d (p.strandedAt m t))) := by
  cases h with
  | nowhere h => exact last hm fun x hx s hs => absurd hs (h x hx s)
  | @first before after x t' hpassed hx hbefore hafter =>
    subst hpassed
    rw [fartherOf]
    split
    · next hlt =>
      refine last hm fun y hy s hs => ?_
      rcases List.mem_append.mp hy with hy | hy
      · exact Nat.lt_trans (hbefore y hy s hs) hlt
      · rcases List.mem_cons.mp hy with rfl | hy
        · exact hlt
        · exact Nat.lt_of_le_of_lt (hafter y hy s hs) hlt
    · next hle =>
      have hsplit : before ++ x :: after ++ [m] = before ++ x :: (after ++ [m]) :=
        List.append_assoc _ _ _
      refine .first hsplit hx hbefore fun y hy s hs => ?_
      rcases List.mem_append.mp hy with hy | hy
      · exact hafter y hy s hs
      · exact List.mem_singleton.mp hy ▸ Nat.le_of_not_lt hle

end Farthest

end Parser

end OperatorLALR
