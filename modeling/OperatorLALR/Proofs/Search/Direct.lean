import OperatorLALR.Proofs.Completeness.Outcomes

/-!
# Rejections of a parser without a choice

A parser that never has a choice leaves no choice points, and the only dead end that it meets is the
one at which it rejects the input (`Parser.direct_of_reaches`). It reports this dead end, which is
where the only run of the nondeterministic parser gets stuck (`Parser.exists_stuck_of_parse`).
-/

namespace OperatorLALR

variable {τ ν β ε σ : Type}

/-- A machine has no choice point pending and has met no dead end. -/
structure Machine.Direct (m : Machine τ ν ε σ) : Prop where
  choices : m.choices = []
  farthest : m.farthest = none

/-- The terminal in front of which a branch is: that of the lookahead, if it has decided on one, or
else of the next token. -/
def Branch.seen [Token τ] (tokens : List τ) (b : Branch τ) : TerminalId :=
  match b.lookahead with
  | some lookahead => lookahead.terminal
  | none => (tokens[b.position]?.map Token.terminal).getD endOfInput

/-- A token that has been read is the one at the position of the parser. -/
theorem Fed.currentToken?_eq {tokens : List τ} {m : Machine τ ν ε σ} (h : Fed tokens m)
    (hlt : m.position < m.pulled.length) : m.currentToken? = tokens[m.position]? := by
  rw [Machine.currentToken?, ← h.source, List.getElem?_append_left hlt]

namespace Machine.Direct

variable {m m' : Machine τ ν ε σ}

/-- There is no choice point to return to. -/
theorem backtrack?_eq_none (h : m.Direct) (deadEnd : Option DeadEnd) :
    backtrack? { m with farthest := deadEnd } = none := by
  rw [backtrack?, h.choices]
  rfl

/-- Reading a token leaves no choice point. -/
theorem readToken (h : m.Direct) {r : Except ε (Option τ)}
    (hread : Parser.readToken m = (r, m')) : m'.Direct := by
  obtain ⟨pulled, source, exhausted, rfl⟩ := Parser.readToken_eq hread
  exact ⟨h.choices, h.farthest⟩

variable [Token τ]

/-- A retreat rejects the input where the machine stands. -/
theorem retreat_eq (h : m.Direct) (p : Parser τ ν β σ) (q : StateId) :
    p.retreat q m = .halt (.error (.rejected m.position (Parser.deadEndAt q m).lookahead
      (p.table.expected q))) m.cleared := by
  rw [Parser.retreat, h.backtrack?_eq_none, h.farthest]
  rfl

variable {p : Parser τ ν β σ} {tokens : List τ} {m₁ : Machine τ ν ε σ}
  {saved : List (Machine τ ν ε σ)} {b : Branch τ} {rest : List (Branch τ)} {lookahead : Lookahead τ}

/-- A look without a choice leaves no choice point. -/
theorem looked (h : m.Direct) (hfollows : Follows p tokens m saved b rest)
    (hone : (b.next p.overTrees tokens).length ≤ 1) (hlooked : Parser.Looked p m lookahead m₁) :
    m₁.Direct := by
  cases hlooked with
  | known => exact h
  | ended _ hread | single _ hread =>
    have hdirect := h.readToken hread
    exact ⟨hdirect.choices, hdirect.farthest⟩
  | several hnone hread hways =>
    obtain ⟨-, hnext⟩ := hfollows.next_eq hnone hread
    rw [hnext, hways, List.length_map, List.length_cons, List.length_cons] at hone
    omega

/-- A move without a choice leaves no choice point. -/
theorem moved (h : m.Direct) (hfollows : Follows p tokens m saved b rest)
    (hone : (b.next p.overTrees tokens).length ≤ 1) (hl : m.lookahead = some lookahead)
    (hmoved : Parser.Moved p lookahead { m with forced := none } (p.nextAction m lookahead) m') :
    m'.Direct := by
  have hopens : ∀ as, p.openActions m.stack lookahead (p.nextAction m lookahead) = some as →
      b.next p.overTrees tokens = as.map fun a => { b with forced := some a } :=
    fun _ hopen => (hfollows.next_of_open hl hopen).2
  generalize p.nextAction m lookahead = action at hmoved hopens
  cases hmoved with
  | shift | only => exact ⟨h.choices, h.farthest⟩
  | reduce hr =>
    obtain ⟨shape, priority, node, memory, next, -, -, -, -, -, rfl⟩ := Parser.reduce_done hr
    exact ⟨h.choices, h.farthest⟩
  | branch hopen =>
    rw [hopens _ hopen, List.length_map, List.length_cons, List.length_cons] at hone
    omega
  | back _ hback =>
    have hdirect : Direct { m with forced := none } := ⟨h.choices, h.farthest⟩
    rw [hdirect.backtrack?_eq_none] at hback
    cases hback

end Machine.Direct

namespace Parser

variable [Token τ] {p : Parser τ ν β σ} {tokens : List τ} {m last : Machine τ ν ε σ} {memory : σ}
  (hfew : ∀ b, Search.Reaches (Branch.next p.overTrees tokens) .start b →
    (b.next p.overTrees tokens).length ≤ 1)

include hfew

/-- A parser that never has a choice leaves no choice point. -/
theorem direct_of_reaches (h : p.Reaches (.start (tokens.map .ok) memory) m) : m.Direct := by
  induction h with
  | refl => exact ⟨rfl, rfl⟩
  | @tail m m' hreach hstep ih =>
    obtain ⟨saved, b, rest, hsearch, hfollows⟩ := Follows.of_reaches hreach
    have hone := hfew b (hsearch.reaches b List.mem_cons_self)
    rcases step_next hstep with
      ⟨lookahead, m₁, hl, hlooked, hmoved⟩ | ⟨m₁, deadEnd, hrefused, hback⟩
    · obtain ⟨saved₁, b₁, rest₁, hsearch₁, h₁⟩ := hfollows.looked hlooked
      have hone₁ := hfew b₁ ((hsearch.trans hsearch₁).reaches b₁ List.mem_cons_self)
      exact (ih.looked hfollows hone hlooked).moved h₁ hone₁ hl hmoved
    · obtain ⟨-, token, hread, -⟩ := look_refused hrefused
      rw [(ih.readToken hread).backtrack?_eq_none] at hback
      cases hback

/-- Where a parser that never has a choice rejects the input, a run of the nondeterministic parser
gets stuck, at the position and in front of the terminal that are reported. -/
theorem exists_stuck_of_parse {n position : Nat} {seen : TerminalId} {expected : List TerminalId}
    (h : p.parse n (tokens.map .ok : List (Except ε τ)) memory =
      some (.error (.rejected position seen expected), last)) :
    ∃ b, Search.Reaches (Branch.next p.overTrees tokens) .start b ∧
      b.next p.overTrees tokens = [] ∧ b.position = position ∧ b.seen tokens = seen := by
  obtain ⟨m, hreach, hstep⟩ := run_eq_some h
  obtain ⟨saved, b, rest, hsearch, hfollows⟩ := Follows.of_reaches hreach
  have hone := hfew b (hsearch.reaches b List.mem_cons_self)
  have hdirect := direct_of_reaches hfew hreach
  rcases step_retreats rfl hstep with
    ⟨lookahead, m₁, hl, hlooked, hstuck, hretreat⟩ | ⟨m₁, hrefused, hretreat⟩
  · obtain ⟨saved₁, b₁, rest₁, hsearch₁, h₁⟩ := hfollows.looked hlooked
    have hdirect₁ := hdirect.looked hfollows hone hlooked
    have hforced : Machine.Direct { m₁ with forced := none } :=
      ⟨hdirect₁.choices, hdirect₁.farthest⟩
    rw [hforced.retreat_eq] at hretreat
    obtain ⟨heq, -⟩ := StepResult.halt.inj hretreat
    obtain ⟨rfl, rfl, -⟩ := ParseError.rejected.inj (Except.error.inj heq)
    refine ⟨b₁, (hsearch.trans hsearch₁).reaches b₁ List.mem_cons_self,
      (h₁.mirrors.stuck tokens hl hstuck).2, h₁.mirrors.position, ?_⟩
    rw [Branch.seen, h₁.lookahead_eq hl, deadEndAt]
    dsimp only
    rw [hl]
    exact Lookahead.terminal_timeless _
  · obtain ⟨hnone, token, hread, hways⟩ := look_refused hrefused
    obtain ⟨hb, hnext⟩ := hfollows.next_eq hnone hread
    rw [hways] at hnext
    obtain ⟨h₁, htoken, hlt, hnone₁⟩ := hfollows.readToken hread
    rw [(hdirect.readToken hread).retreat_eq] at hretreat
    obtain ⟨heq, -⟩ := StepResult.halt.inj hretreat
    obtain ⟨rfl, rfl, -⟩ := ParseError.rejected.inj (Except.error.inj heq)
    refine ⟨b, hsearch.reaches b List.mem_cons_self, hnext, h₁.mirrors.position, ?_⟩
    rw [Branch.seen, hb, deadEndAt, hnone₁, hnone]
    dsimp only
    rw [h₁.fed.currentToken?_eq hlt, h₁.mirrors.position]

end Parser

end OperatorLALR
