import OperatorLALR.Proofs.Parser.DeadEnds
import OperatorLALR.Proofs.Parser.Recording
import OperatorLALR.Proofs.Parser.Tokens

/-!
# A rejection shows the farthest place

The position of a parse goes up and down with the choices that it returns to, but the farthest place
that it has examined (`Machine.examined`) only grows: the machine that leaves a position by a
retreat keeps a dead end there. A place is read when it is examined and not before, so that the
answers of the source tell how far the parse has come (`answers_of_reaches`). Hence a rejection
shows the farthest token that was ever looked at, and nothing behind it was asked for
(`rejection_shows_farthest`).
-/

namespace OperatorLALR

variable {τ ν β ε σ : Type}

namespace Machine

/-- How many places of the input have been examined: those up to the farthest dead end, and those up
to the current position. -/
def examined (m : Machine τ ν ε σ) : Nat := max (DeadEnd.extent m.farthest) (m.position + 1)

/-- Of a source, a machine holds what has been read, and what is left. -/
structure Divides (source : List (Except ε τ)) (m : Machine τ ν ε σ) : Prop where
  source : source = m.pulled.map .ok ++ m.source
  exhausted : m.exhausted = true → m.source = []

end Machine

/-- The nodes of a recording maker keep the tokens of the children, as their trees do. -/
theorem NodeMaker.recording_keepsLeaves (maker : NodeMaker τ ν β σ) :
    maker.recording.KeepsLeaves fun n => n.2.leaves := by
  intro r items memory n memory' hmake
  dsimp only
  rw [maker.recording_keeps r items memory n memory' hmake, ParseTree.leaves, ParseTree.leavesOf_eq,
    List.flatMap_map]
  refine congrArg (fun leaves => items.flatMap leaves) (funext fun item => ?_)
  cases item <;> rfl

namespace Parser

variable {p : Parser τ ν β σ} {m m' b : Machine τ ν ε σ} {source : List (Except ε τ)} {memory : σ}

/-- Reading takes a token from the source to the buffer, or finds the end of the source. -/
theorem divides_of_readToken {r : Option τ} (h : m.Divides source)
    (hread : readToken m = (.ok r, b)) : b.Divides source := by
  unfold readToken at hread
  split at hread
  · obtain ⟨-, rfl⟩ := Prod.mk.inj hread
    exact h
  · split at hread
    · obtain ⟨-, rfl⟩ := Prod.mk.inj hread
      exact h
    · next hexhausted =>
      split at hread
      · next hnil =>
        obtain ⟨-, rfl⟩ := Prod.mk.inj hread
        exact ⟨h.source, fun _ => hnil⟩
      · next token rest hcons =>
        obtain ⟨-, rfl⟩ := Prod.mk.inj hread
        refine ⟨?_, fun hex => absurd hex hexhausted⟩
        rw [h.source, hcons, List.map_append, List.append_assoc]
        rfl
      · cases (Prod.mk.inj hread).1

variable [Token τ]

/-- Whatever the maker of nodes is, every machine that a parse reaches divides the source, stands
within what has been read, and knows as lookahead only what comes there. -/
theorem divides_of_reaches (hreach : p.Reaches (.start source memory) m) :
    m.Divides source ∧ m.position ≤ m.pulled.length ∧
      ∀ l, m.lookahead = some l → l.IsAt m.pulled m.exhausted m.position := by
  obtain ⟨m', hreach', rfl⟩ := hreach.exists_recording
  obtain ⟨saved, h⟩ := Retained.of_reaches p.maker.recording_keepsLeaves hreach'
  exact ⟨⟨h.source, h.exhausted⟩, h.stands.position_le, h.stands.lookahead⟩

/-- A machine that need not ask has got an answer for each place up to its position. -/
theorem position_lt_answers (hreach : p.Reaches (.start source memory) m) (h : m.asks = false) :
    m.position < m.answers := by
  obtain ⟨-, hposition, hknown⟩ := divides_of_reaches hreach
  unfold Machine.answers
  cases hl : m.lookahead with
  | some l =>
    have hat := hknown l hl
    cases l with
    | token view => exact Nat.lt_add_right _ (List.getElem?_eq_some_iff.mp hat.1).1
    | inputEnd =>
      obtain ⟨hexhausted, hend⟩ := hat
      rw [hexhausted, hend]
      exact Nat.lt_succ_self _
  | none =>
    have hbehind : m.isBehindInput = false := Machine.asks_of_lookahead hl ▸ h
    cases htoken : m.currentToken? with
    | some token => exact Nat.lt_add_right _ (List.getElem?_eq_some_iff.mp htoken).1
    | none =>
      have hexhausted : m.exhausted = true := by simpa [Machine.isBehindInput, htoken] using hbehind
      rw [hexhausted]
      exact Nat.lt_succ_of_le hposition

/-- After a look, an answer is there for each place up to the current one. -/
theorem answers_asking (hreach : p.Reaches (.start source memory) m) :
    m.answers + m.asks.toNat = max m.answers (m.position + 1) := by
  cases hasks : m.asks with
  | false => exact (Nat.max_eq_left (position_lt_answers hreach hasks)).symm
  | true =>
    obtain ⟨-, hposition, -⟩ := divides_of_reaches hreach
    obtain ⟨htoken, hexhausted⟩ :=
      Bool.and_eq_true_iff.mp (Bool.and_eq_true_iff.mp hasks).2
    have hle := List.getElem?_eq_none_iff.mp (Option.isNone_iff_eq_none.mp htoken)
    have hanswers : m.answers = m.position := by
      rw [Machine.answers, (by simpa using hexhausted : m.exhausted = false)]
      exact Nat.le_antisymm hle hposition
    rw [hanswers, Bool.toNat_true, Nat.max_eq_right (Nat.le_succ _)]

/-- A look divides the source between what has been read and what is left. -/
theorem Looked.divides {lookahead : Lookahead τ} {m₁ : Machine τ ν ε σ}
    (h : Looked p m lookahead m₁) (hdivides : m.Divides source) : m₁.Divides source := by
  cases h with
  | known => exact hdivides
  | ended _ hread | single _ hread =>
    have hb := divides_of_readToken hdivides hread
    exact ⟨hb.source, hb.exhausted⟩
  | several _ hread _ hleave =>
    have hb := divides_of_readToken hdivides hread
    obtain ⟨depth, rfl⟩ := leaveChoice_ok hleave
    exact ⟨hb.source, hb.exhausted⟩

/-- After its look a step has got an answer if it asks. -/
theorem AfterLook.answers (h : AfterLook p m b) (hdivides : m.Divides source) :
    b.answers = m.answers + m.asks.toNat ∧ b.Divides source := by
  cases h with
  | unread hlook =>
    obtain ⟨hnone, token, hread, -⟩ := look_refused hlook
    exact ⟨Machine.asks_of_lookahead hnone ▸ answers_of_readToken hread,
      divides_of_readToken hdivides hread⟩
  | decided hlooked =>
    have hb := hlooked.divides hdivides
    exact ⟨hlooked.answers, hb.source, hb.exhausted⟩

/-- A step examines no fewer places than before: it goes back from a dead end only, and keeps one
that is as far. -/
theorem examined_le_of_step (hreach : p.Reaches (.start source memory) m)
    (h : p.step m = .next m') : m.examined ≤ m'.examined := by
  unfold Machine.examined
  rcases farthest_of_step (divides_of_reaches hreach).2.1 h with
    ⟨t, -, hkept⟩ | ⟨-, hsame, hposition⟩
  · rw [hkept, extent_fartherOf]
    exact Nat.le_max_left _ _
  · rw [hsame]
    omega

/-- During a run, the number of places that have been examined only grows. -/
theorem Reaches.examined_le (hreach : p.Reaches (.start source memory) m) (h : p.Reaches m m') :
    m.examined ≤ m'.examined := by
  induction h with
  | refl => exact Nat.le_refl _
  | tail hm hstep ih => exact Nat.le_trans ih (examined_le_of_step (hreach.trans hm) hstep)

/-- The source has answered for each place up to the farthest dead end, and for no place that has
not been examined. -/
theorem answers_of_reaches (hreach : p.Reaches (.start source memory) m) :
    DeadEnd.extent m.farthest ≤ m.answers ∧ m.answers ≤ m.examined := by
  induction hreach with
  | refl => exact ⟨Nat.le_refl 0, Nat.zero_le _⟩
  | @tail m m' hreach hstep ih =>
    obtain ⟨hfarthest, hanswers⟩ := ih
    have hnext := (answers_of_step hstep).trans (answers_asking hreach)
    have hexamined := examined_le_of_step hreach hstep
    -- the answers now reach up to the place of the look, where a dead end is if there is one
    refine ⟨?_, ?_⟩
    · rw [hnext]
      rcases farthest_of_step (divides_of_reaches hreach).2.1 hstep with
        ⟨t, -, hkept⟩ | ⟨-, hsame, -⟩
      · rw [hkept, extent_fartherOf]
        exact Nat.max_le.mpr ⟨Nat.le_trans hfarthest (Nat.le_max_left _ _), Nat.le_max_right _ _⟩
      · rw [hsame]
        exact Nat.le_trans hfarthest (Nat.le_max_left _ _)
    · unfold Machine.examined at *
      omega

/-- A machine of a run comes before the one at which the run ends. -/
theorem Reaches.of_halt {first last : Machine τ ν ε σ} {r : Except (ParseError ε β) ν}
    (h : p.Reaches first m) (hend : p.Reaches first m') (hhalt : p.step m' = .halt r last) :
    p.Reaches m m' := by
  have hunique : Relator.RightUnique fun b b' : Machine τ ν ε σ => p.step b = .next b' :=
    fun _ _ _ hb hc => StepResult.next.inj (hb.symm.trans hc)
  rcases Relation.ReflTransGen.total_of_right_unique hunique h hend with hbefore | hbehind
  · exact hbefore
  · rcases Relation.ReflTransGen.cases_head hbehind with rfl | ⟨b, hstep, -⟩
    · exact .refl
    · rw [hhalt] at hstep
      cases hstep

/-- During a run, the source gives no fewer answers. -/
theorem Reaches.answers_le (h : p.Reaches m m') : m.answers ≤ m'.answers := by
  obtain ⟨k, hasking⟩ := reaches_iff_asking.mp h
  exact hasking.answers ▸ Nat.le_add_right _ _

/-- When a stranded machine has been left, the source has answered for its place. -/
theorem position_lt_answers_of_strands {t : TerminalId}
    (hreach : p.Reaches (.start source memory) m) (ht : p.Strands m t) (h : p.Reaches m m')
    (hfree : ∀ t, ¬ p.Strands m' t) : m.position < m'.answers := by
  rcases Relation.ReflTransGen.cases_head h with rfl | ⟨m₁, hstep, hlater⟩
  · exact absurd ht (hfree t)
  · rcases farthest_of_step (divides_of_reaches hreach).2.1 hstep with
      ⟨s, -, hfarthest⟩ | ⟨hno, -⟩
    · have hkept := (answers_of_reaches (hreach.tail hstep)).1
      rw [hfarthest, extent_fartherOf] at hkept
      have hplace : m.position + 1 ≤ m₁.answers := Nat.le_trans (Nat.le_max_right _ _) hkept
      exact Nat.le_trans hplace (Reaches.answers_le hlater)
    · exact absurd ht (hno t)

/-- During a run, what is kept is the farthest dead end of the machines that have been passed. -/
theorem Farthest.run {passed : List (Machine τ ν ε σ)} {n : Nat} {last : Machine τ ν ε σ}
    {r : Except (ParseError ε β) ν} (h : p.Farthest passed m.farthest)
    (hreach : p.Reaches (.start source memory) m) (hrun : p.run n m = some (r, last)) :
    ∃ m' later, p.Reaches m m' ∧ p.step m' = .halt r last ∧
      p.machines n m = later ++ [m'] ∧ p.Farthest (passed ++ later) m'.farthest := by
  induction n generalizing m passed with
  | zero => cases hrun
  | succ n ih =>
    rw [Parser.run] at hrun
    rw [machines]
    cases hstep : p.step m with
    | next m₁ =>
      rw [hstep] at hrun
      have hkept : p.Farthest (passed ++ [m]) m₁.farthest := by
        rcases farthest_of_step (divides_of_reaches hreach).2.1 hstep with
          ⟨t, ht, hfarthest⟩ | ⟨hfree, hfarthest, -⟩
        · exact hfarthest ▸ h.stranded ht
        · exact hfarthest ▸ h.free hfree
      obtain ⟨m', later, hlater, hlast, hmachines, hend⟩ := ih hkept (hreach.tail hstep) hrun
      refine ⟨m', m :: later, .head hstep hlater, hlast, ?_, ?_⟩
      · dsimp only
        rw [hmachines, List.cons_append]
      · rwa [List.append_assoc] at hend
    | halt r' last' =>
      rw [hstep] at hrun
      obtain ⟨rfl, rfl⟩ := Prod.mk.inj (Option.some.inj hrun)
      exact ⟨m, [], .refl, hstep, rfl, by rwa [List.append_nil]⟩

section Rejections

variable {last : Machine τ ν ε σ} {position : Nat} {seen : TerminalId} {expected : List TerminalId}

/-- If a parse rejects the input, the places that were examined are those up to the position shown,
and the tokens there, or all if there are fewer, were taken from the source. -/
theorem examined_of_rejected (hreach : p.Reaches (.start source memory) m)
    (hstep : p.step m = .halt (.error (.rejected position seen expected)) last) :
    m.examined = position + 1 ∧ ∃ tokens : List τ, source = tokens.map .ok ++ last.source ∧
      tokens.length = min (position + 1) source.length := by
  obtain ⟨hdivides, hwithin, -⟩ := divides_of_reaches hreach
  obtain ⟨b, t, d, hafter, rfl, -, hd, hposition, -⟩ := rejected_of_step hwithin hstep
  obtain ⟨hanswers, hb⟩ := hafter.answers hdivides
  obtain ⟨hfarthest, hexamined⟩ := answers_of_reaches hreach
  have hextent : DeadEnd.extent (some (fartherOf m.farthest (p.strandedAt m t))) =
      max (DeadEnd.extent m.farthest) (m.position + 1) := extent_fartherOf _ _
  have hshown : DeadEnd.extent (some d) = position + 1 := congrArg (· + 1) hposition
  rw [hd] at hextent
  rw [answers_asking hreach] at hanswers
  unfold Machine.examined at *
  refine ⟨by omega, b.pulled, hb.source, ?_⟩
  have hlength : source.length = b.pulled.length + b.source.length := by
    rw [hb.source, List.length_append, List.length_map]
  have hcount : b.pulled.length + b.exhausted.toNat = position + 1 := by
    rw [← Machine.answers]
    omega
  cases hexhausted : b.exhausted with
  | true =>
    rw [hb.exhausted hexhausted, List.length_nil] at hlength
    rw [hexhausted, Bool.toNat_true] at hcount
    omega
  | false =>
    rw [hexhausted, Bool.toNat_false] at hcount
    omega

/-- A parse that rejects the input at a token depends on the source up to this token only. -/
theorem parse_of_rejected {k : Nat} {e : ParseError ε β} {tokens : List τ}
    (hparse : p.parse k source memory = some (.error e, last))
    (hpositions : ∀ m, p.Reaches (.start source memory) m → m.position ≤ position)
    (hsource : source = tokens.map .ok ++ last.source) (hlt : position < source.length)
    (hlength : tokens.length = min (position + 1) source.length) (rest : List (Except ε τ)) :
    p.parse k (source.take (position + 1) ++ rest) memory =
      some (.error e, last.withSource rest) := by
  -- with nothing left to ask for, the machine would stand behind all of the source
  have hasks : ∀ m, p.Reaches (.start source memory) m → m.asks = true → m.source ≠ [] := by
    intro m hm hask hnil
    obtain ⟨hdivides, -⟩ := divides_of_reaches hm
    have hbehind := (Bool.and_eq_true_iff.mp (Bool.and_eq_true_iff.mp hask).2).1
    have hle := List.getElem?_eq_none_iff.mp (Option.isNone_iff_eq_none.mp hbehind)
    have hall : source.length = m.pulled.length := by
      rw [hdivides.source, hnil, List.append_nil, List.length_map]
    have hposition := hpositions m hm
    omega
  obtain ⟨read, hread, hrun⟩ := run_withSource hparse hasks
  have hsame : read = tokens.map .ok := List.append_cancel_right (hread.symm.trans hsource)
  have htake : source.take (position + 1) = read := by
    rw [hsource, hsame]
    refine List.take_left' ?_
    rw [List.length_map]
    omega
  rw [htake]
  exact hrun rest

end Rejections

/-- Whatever the table, the source and the maker of nodes are, a rejection shows the farthest token
that was examined. No machine of the parse is at a greater position; the tokens up to that position,
or all if there are fewer, have been taken from the source, so that the parse would be the same with
anything else behind them; and the first machine of the parse that is stranded at that position is
so on the terminal shown, and its state expects the terminals shown. If the parse ends with a
failure of the source instead, all machines stand within the tokens before it, and those that are
stranded stand before one of them. -/
theorem rejection_shows_farthest {k : Nat} {e : ParseError ε β} {last : Machine τ ν ε σ}
    (hparse : p.parse k source memory = some (.error e, last)) :
    (∀ position seen expected, e = .rejected position seen expected →
      (∀ m, p.Reaches (.start source memory) m → m.position ≤ position) ∧
      (∃ tokens : List τ, source = tokens.map .ok ++ last.source ∧
        tokens.length = min (position + 1) source.length) ∧
      (position < source.length → ∀ rest,
        p.parse k (source.take (position + 1) ++ rest) memory =
          some (.error e, last.withSource rest)) ∧
      ∃ before m after, p.machines k (.start source memory) = before ++ m :: after ∧
        (∀ x ∈ before, ∀ t, p.Strands x t → x.position < position) ∧
        m.position = position ∧ p.Strands m seen ∧
        p.table.expected (p.stateOn m.stack) = expected) ∧
    ∀ cause, e = .source cause →
      ∃ tokens : List τ, source = tokens.map .ok ++ .error cause :: last.source ∧
        (∀ m t, p.Reaches (.start source memory) m → p.Strands m t →
          m.position < tokens.length) ∧
        ∀ m, p.Reaches (.start source memory) m → m.position ≤ tokens.length := by
  have hstart : p.Farthest ([] : List (Machine τ ν ε σ)) none :=
    .nowhere fun _ hx => absurd hx List.not_mem_nil
  obtain ⟨mf, passed, hreach, hstep, hmachines, hkept⟩ :=
    Farthest.run (m := .start source memory) hstart .refl hparse
  obtain ⟨hdivides, hwithin, -⟩ := divides_of_reaches hreach
  have hexamines : ∀ m, p.Reaches (.start source memory) m → m.position + 1 ≤ mf.examined :=
    fun m hm => Nat.le_trans (Nat.le_max_right _ _) (hm.examined_le (hm.of_halt hreach hstep))
  constructor
  · rintro position seen expected rfl
    obtain ⟨hexamined, tokens, hsource, hlength⟩ := examined_of_rejected hreach hstep
    have hpositions : ∀ m, p.Reaches (.start source memory) m → m.position ≤ position := by
      intro m hm
      have hle := hexamines m hm
      omega
    refine ⟨hpositions, ⟨tokens, hsource, hlength⟩, fun hlt rest =>
      parse_of_rejected hparse hpositions hsource hlt hlength rest, ?_⟩
    obtain ⟨b, t, d, -, -, ht, hd, hposition, hseen, hexpected⟩ := rejected_of_step hwithin hstep
    -- the dead end of the last step is compared with the one that was kept
    have hshown : p.Farthest (passed ++ [mf]) (some d) := hd ▸ hkept.stranded ht
    rw [← hmachines] at hshown
    cases hshown with
    | @first before after m s hpassed hm hbefore _ =>
      obtain rfl : s = seen := hseen
      obtain rfl : m.position = position := hposition
      exact ⟨before, m, after, hpassed, hbefore, rfl, hm, hexpected⟩
  · rintro cause rfl
    obtain ⟨hfree, htoken, hexhausted, hfailure⟩ := failed_of_step hwithin hstep
    have hanswers : mf.answers = mf.pulled.length := by
      rw [Machine.answers, hexhausted]
      rfl
    obtain ⟨hanswered, -⟩ := answers_of_reaches hreach
    refine ⟨mf.pulled, hfailure ▸ hdivides.source, fun m t hm ht => ?_, fun m hm => ?_⟩
    · rw [← hanswers]
      exact position_lt_answers_of_strands hm ht (hm.of_halt hreach hstep) hfree
    · have hle := hexamines m hm
      unfold Machine.examined at hle
      omega

/-- On `a c c` the first guess gets stranded at the first `c`, where its state expects `d`, and the
second at the second, where its state expects the end. This is shown, and the failure of the source
behind it does not come to light; on `a` it does. -/
theorem rejection_shows_farthest_guess :
    (guessingTable.expected ⟨4⟩ = [⟨3⟩] ∧
      ∃ last : Machine TerminalId RuleId Unit Unit,
      (Parser.ofTable guessingTable ruleMaker none).parse 9
        [.ok ⟨1⟩, .ok ⟨2⟩, .ok ⟨2⟩, .error ()] () =
          some (.error (.rejected 2 ⟨2⟩ [endOfInput]), last) ∧
      ∃ before m after, (Parser.ofTable guessingTable ruleMaker none).machines 9
          (.start [.ok ⟨1⟩, .ok ⟨2⟩, .ok ⟨2⟩, .error ()] () : Machine TerminalId RuleId Unit Unit) =
            before ++ m :: after ∧
        (∀ x ∈ before, ∀ t, (Parser.ofTable guessingTable ruleMaker none).Strands x t →
          x.position < 2) ∧
        m.position = 2 ∧ (Parser.ofTable guessingTable ruleMaker none).Strands m ⟨2⟩ ∧
        guessingTable.expected ((Parser.ofTable guessingTable ruleMaker none).stateOn m.stack) =
          [endOfInput]) ∧
    ∃ last : Machine TerminalId RuleId Unit Unit,
      (Parser.ofTable guessingTable ruleMaker none).parse 9 [.ok ⟨1⟩, .error ()] () =
        some (.error (.source ()), last) ∧
      ∃ tokens : List TerminalId,
        [.ok ⟨1⟩, .error ()] = tokens.map .ok ++ .error () :: last.source ∧
        ∀ m : Machine TerminalId RuleId Unit Unit,
          (Parser.ofTable guessingTable ruleMaker none).Reaches
            (.start [.ok ⟨1⟩, .error ()] ()) m → m.position ≤ tokens.length := by
  have hrejected : (Parser.ofTable guessingTable ruleMaker none).parse 9
      [.ok ⟨1⟩, .ok ⟨2⟩, .ok ⟨2⟩, .error ()] () =
        some (.error (.rejected 2 ⟨2⟩ [endOfInput]), (_ : Machine TerminalId RuleId Unit Unit)) :=
    rfl
  have hfailed : (Parser.ofTable guessingTable ruleMaker none).parse 9 [.ok ⟨1⟩, .error ()] () =
      some (.error (.source ()), (_ : Machine TerminalId RuleId Unit Unit)) := rfl
  obtain ⟨-, -, -, hshown⟩ := (rejection_shows_farthest hrejected).1 2 ⟨2⟩ [endOfInput] rfl
  obtain ⟨tokens, hsource, -, hpositions⟩ := (rejection_shows_farthest hfailed).2 () rfl
  exact ⟨⟨rfl, _, hrejected, hshown⟩, _, hfailed, tokens, hsource, hpositions⟩

end Parser

end OperatorLALR
