import OperatorLALR.Proofs.Parser.Requests
import OperatorLALR.Proofs.Parser.Restoring

/-!
# Where the tokens are

At every moment of a parse the tokens before the current position are on the stack, in the order of
the input and each once; those behind it that have been read are kept in the buffer until the
parser comes to them again. `Stands` says this of a stack at a position of the buffer. It holds of
the machine and of each machine behind a pending choice point (`Retained`), so that it still holds
after returning to one, and every step keeps it. With the number of requests this gives
`tokens_kept`: backtracking loses no token, reads none twice and changes the place of none.
-/

namespace OperatorLALR

variable {τ ν β ε σ : Type} {nodeLeaves : ν → List (τ × Nat)}

/-- The tokens of a part of a handle with their places, given those of nodes. -/
def HandleItem.leaves (nodeLeaves : ν → List (τ × Nat)) : HandleItem τ ν → List (τ × Nat)
  | .token view => [(view.token, view.position)]
  | .node n => nodeLeaves n

/-- A maker of nodes keeps the tokens of the children, in order. -/
def NodeMaker.KeepsLeaves (maker : NodeMaker τ ν β σ) (nodeLeaves : ν → List (τ × Nat)) : Prop :=
  ∀ r items memory n memory', maker.reduce r items memory = (.ok n, memory') →
    nodeLeaves n = items.flatMap (HandleItem.leaves nodeLeaves)

/-- The tokens on a stack with their places, from the bottom to the top. -/
def stackLeaves (nodeLeaves : ν → List (τ × Nat)) (stack : List (StackEntry τ ν)) :
    List (τ × Nat) :=
  stack.reverse.flatMap fun e => e.item.leaves nodeLeaves

/-- An entry on top adds its tokens at the end. -/
theorem stackLeaves_cons (e : StackEntry τ ν) (stack : List (StackEntry τ ν)) :
    stackLeaves nodeLeaves (e :: stack) =
      stackLeaves nodeLeaves stack ++ e.item.leaves nodeLeaves := by
  rw [stackLeaves, List.reverse_cons, List.flatMap_append, List.flatMap_singleton, ← stackLeaves]

/-- Some entries on top add the tokens of the handle that they are. -/
theorem stackLeaves_append (top below : List (StackEntry τ ν)) :
    stackLeaves nodeLeaves (top ++ below) = stackLeaves nodeLeaves below ++
      (top.reverse.map StackEntry.item).flatMap (HandleItem.leaves nodeLeaves) := by
  rw [stackLeaves, List.reverse_append, List.flatMap_append, ← stackLeaves, List.flatMap_map]

/-- A lookahead is what comes at a position of the buffer: the token there, or the end of the input
behind all tokens. -/
def Lookahead.IsAt (pulled : List τ) (exhausted : Bool) (position : Nat) : Lookahead τ → Prop
  | .token view => pulled[position]? = some view.token ∧ view.position = position
  | .inputEnd => exhausted = true ∧ position = pulled.length

/-- A stack at a position of the buffer holds the tokens before it, each once and in order, and the
lookahead is what comes there. -/
structure Stands (nodeLeaves : ν → List (τ × Nat)) (pulled : List τ) (exhausted : Bool)
    (stack : List (StackEntry τ ν)) (position : Nat) (lookahead : Option (Lookahead τ)) :
    Prop where
  position_le : position ≤ pulled.length
  stack : stackLeaves nodeLeaves stack = (pulled.take position).zipIdx
  lookahead : ∀ l, lookahead = some l → l.IsAt pulled exhausted position

namespace Stands

variable {pulled pulled' : List τ} {exhausted exhausted' : Bool} {stack : List (StackEntry τ ν)}
  {position : Nat} {lookahead : Option (Lookahead τ)}

/-- More may be read where the end has not been found. -/
theorem mono (h : Stands nodeLeaves pulled exhausted stack position lookahead)
    (hpulled : pulled <+: pulled')
    (hend : exhausted = true → exhausted' = true ∧ pulled' = pulled) :
    Stands nodeLeaves pulled' exhausted' stack position lookahead := by
  obtain ⟨more, rfl⟩ := hpulled
  refine ⟨Nat.le_trans h.position_le (by simp), ?_, fun l hl => ?_⟩
  · rw [List.take_append_of_le_length h.position_le]
    exact h.stack
  · have hat := h.lookahead l hl
    cases l with
    | token view =>
      obtain ⟨htoken, hposition⟩ := hat
      refine ⟨?_, hposition⟩
      rw [List.getElem?_append_left (List.getElem?_eq_some_iff.mp htoken).1]
      exact htoken
    | inputEnd =>
      obtain ⟨hexhausted, hposition⟩ := hat
      obtain ⟨hexhausted', hsame⟩ := hend hexhausted
      exact ⟨hexhausted', by rw [hsame]; exact hposition⟩

/-- Another lookahead may be found at the position. -/
theorem look (h : Stands nodeLeaves pulled exhausted stack position lookahead) {l : Lookahead τ}
    (hl : l.IsAt pulled exhausted position) :
    Stands nodeLeaves pulled exhausted stack position (some l) := by
  refine ⟨h.position_le, h.stack, fun l' hl' => ?_⟩
  rw [← Option.some.inj hl']
  exact hl

/-- The token that comes next goes on the stack. -/
theorem shift {view : TokenView τ}
    (h : Stands nodeLeaves pulled exhausted stack position (some (.token view))) (next : StateId)
    (stamp : Nat) :
    Stands nodeLeaves pulled exhausted (⟨next, .token view, 0, stamp⟩ :: stack) (position + 1)
      none := by
  obtain ⟨htoken, hposition⟩ := h.lookahead _ rfl
  refine ⟨(List.getElem?_eq_some_iff.mp htoken).1, ?_, nofun⟩
  rw [stackLeaves_cons, h.stack, List.take_add_one, htoken, List.zipIdx_append,
    List.length_take_of_le h.position_le, HandleItem.leaves, hposition]
  simp

/-- A handle becomes a node that keeps its tokens. -/
theorem reduce {maker : NodeMaker τ ν β σ} (hmaker : maker.KeepsLeaves nodeLeaves) {r : RuleId}
    {n : ν} {memory memory' : σ} {top below : List (StackEntry τ ν)}
    (h : Stands nodeLeaves pulled exhausted (top ++ below) position lookahead)
    (hmake : maker.reduce r (top.reverse.map StackEntry.item) memory = (.ok n, memory'))
    (next : StateId) (priority stamp : Nat) :
    Stands nodeLeaves pulled exhausted (⟨next, .node n, priority, stamp⟩ :: below) position
      lookahead := by
  refine ⟨h.position_le, ?_, h.lookahead⟩
  rw [stackLeaves_cons, HandleItem.leaves, hmaker _ _ _ _ _ hmake, ← stackLeaves_append, h.stack]

/-- The lookahead may be read in another way. -/
theorem reread {lookahead : Lookahead τ}
    (h : Stands nodeLeaves pulled exhausted stack position (some lookahead)) (reading : Reading)
    (stamp : Nat) :
    Stands nodeLeaves pulled exhausted stack position (some (lookahead.reread reading stamp)) := by
  refine h.look ?_
  have hat := h.lookahead _ rfl
  cases lookahead with
  | token view => exact hat
  | inputEnd => exact hat

end Stands

/-- The machine and all machines behind pending choice points hold the tokens before their
positions; what has been read is the beginning of the source, all of it if its end was found. -/
structure Retained (nodeLeaves : ν → List (τ × Nat)) (source : List (Except ε τ))
    (m : Machine τ ν ε σ) (saved : List (Machine τ ν ε σ)) : Prop where
  timely : Timely m saved
  source : source = m.pulled.map .ok ++ m.source
  exhausted : m.exhausted = true → m.source = []
  stands : Stands nodeLeaves m.pulled m.exhausted m.stack m.position m.lookahead
  choices : List.Forall₂ (fun (c : ChoicePoint τ) (s : Machine τ ν ε σ) =>
    Stands nodeLeaves m.pulled m.exhausted s.stack c.position (some c.lookahead)) m.choices saved

namespace Retained

variable {p : Parser τ ν β σ} {source : List (Except ε τ)} {m m₁ m' : Machine τ ν ε σ}
  {saved : List (Machine τ ν ε σ)}

/-- A parse begins without tokens on the stack. -/
theorem start (source : List (Except ε τ)) (memory : σ) :
    Retained nodeLeaves source (.start source memory : Machine τ ν ε σ) [] where
  timely := .start source memory
  source := rfl
  exhausted := nofun
  stands := ⟨Nat.le_refl 0, rfl, nofun⟩
  choices := .nil

/-- More may be read where the end has not been found. -/
theorem read {pulled : List τ} {exhausted : Bool} {rest : List (Except ε τ)}
    (h : Retained nodeLeaves source m saved) (hpulled : m.pulled <+: pulled)
    (hend : m.exhausted = true → exhausted = true ∧ pulled = m.pulled)
    (hsource : source = pulled.map .ok ++ rest) (hexhausted : exhausted = true → rest = []) :
    Retained nodeLeaves source { m with pulled := pulled, exhausted := exhausted, source := rest }
      saved where
  timely := h.timely.congr rfl rfl rfl rfl
  source := hsource
  exhausted := hexhausted
  stands := h.stands.mono hpulled hend
  choices := h.choices.imp fun _ _ hc => hc.mono hpulled hend

/-- What is read at the current position is what comes there. -/
theorem readToken {r : Option τ} (h : Retained nodeLeaves source m saved)
    (hread : Parser.readToken m = (.ok r, m')) :
    Retained nodeLeaves source m' saved ∧
      match r with
      | some token => m'.pulled[m'.position]? = some token
      | none => m'.exhausted = true ∧ m'.position = m'.pulled.length := by
  unfold Parser.readToken at hread
  split at hread
  · next token htoken =>
    obtain ⟨hr, rfl⟩ := Prod.mk.inj hread
    obtain rfl := Except.ok.inj hr
    exact ⟨h, htoken⟩
  · next htoken =>
    have hposition : m.position = m.pulled.length :=
      Nat.le_antisymm h.stands.position_le (List.getElem?_eq_none_iff.mp htoken)
    split at hread
    · next hexhausted =>
      obtain ⟨hr, rfl⟩ := Prod.mk.inj hread
      obtain rfl := Except.ok.inj hr
      exact ⟨h, hexhausted, hposition⟩
    · next hexhausted =>
      split at hread
      · next hnil =>
        obtain ⟨hr, rfl⟩ := Prod.mk.inj hread
        obtain rfl := Except.ok.inj hr
        refine ⟨h.read List.prefix_rfl (fun hex => absurd hex hexhausted) h.source fun _ => hnil,
          rfl, hposition⟩
      · next token rest hcons =>
        obtain ⟨hr, rfl⟩ := Prod.mk.inj hread
        obtain rfl := Except.ok.inj hr
        refine ⟨h.read (List.prefix_append _ _) (fun hex => absurd hex hexhausted) ?_
          fun hex => absurd hex hexhausted, ?_⟩
        · rw [h.source, hcons, List.map_append, List.append_assoc]
          rfl
        · dsimp only
          rw [hposition, List.getElem?_concat_length]
      · cases (Prod.mk.inj hread).1

/-- A lookahead may be decided on where it comes at the position. -/
theorem decide {lookahead : Lookahead τ} (h : Retained nodeLeaves source m saved)
    (hl : lookahead.IsAt m.pulled m.exhausted m.position) :
    Retained nodeLeaves source { m with lookahead := some lookahead } saved where
  timely := h.timely.congr rfl rfl rfl rfl
  source := h.source
  exhausted := h.exhausted
  stands := h.stands.look hl
  choices := h.choices

/-- A choice point is left where its lookahead comes at the position. -/
theorem leave {lookahead : Lookahead τ} {ways : OpenWays} (h : Retained nodeLeaves source m saved)
    (hl : lookahead.IsAt m.pulled m.exhausted m.position) (hways : ways.isEmpty = false)
    (hleave : p.leaveChoice m lookahead ways = .ok m') :
    Retained nodeLeaves source m' (m :: saved) := by
  have htimely := h.timely.leave hways hleave
  obtain ⟨depth, rfl⟩ := Parser.leaveChoice_ok hleave
  exact ⟨htimely, h.source, h.exhausted, h.stands, .cons (h.stands.look hl) h.choices⟩

/-- To return to a choice point brings back a stack with its position and lookahead. -/
theorem back {deadEnd : DeadEnd} (h : Retained nodeLeaves source m saved)
    (hback : Machine.backtrack? { m with farthest := some deadEnd } = some m') :
    ∃ saved', Retained nodeLeaves source m' saved' := by
  have htimely : Timely { m with farthest := some deadEnd } saved := h.timely.congr rfl rfl rfl rfl
  obtain ⟨c, s, earlier, way, rest, hchoices, rfl, hpop, hundo, rfl, htimely'⟩ :=
    htimely.backtrack hback
  have hchoices' : m.choices = c :: s.choices := hchoices
  have hall := h.choices
  rw [hchoices', List.forall₂_cons] at hall
  refine ⟨_, htimely', h.source, h.exhausted, ?_, ?_⟩
  · cases way with
    | action a => exact hall.1
    | reading r => exact hall.1.reread r _
  · cases hrest : rest.isEmpty with
    | true =>
      simp only [Machine.backAt, hrest, if_true]
      exact hall.2
    | false =>
      simp only [Machine.backAt, hrest, Bool.false_eq_true, if_false]
      exact .cons hall.1 hall.2

/-- A move keeps the tokens. -/
theorem moved {lookahead : Lookahead τ} {a : Action} (hmaker : p.maker.KeepsLeaves nodeLeaves)
    (h : Retained nodeLeaves source m saved) (hl : m.lookahead = some lookahead)
    (hmoved : Parser.Moved p lookahead m a m') :
    ∃ saved', Retained nodeLeaves source m' saved' := by
  have hstands := h.stands
  rw [hl] at hstands
  cases hmoved with
  | shift hview =>
    subst hview
    exact ⟨saved, h.timely.shift _ _, h.source, h.exhausted, hstands.shift _ _, h.choices⟩
  | reduce hr =>
    have htimely := h.timely.reduce hr
    obtain ⟨shape, priority, node, memory, next, -, -, -, hmake, -, rfl⟩ := Parser.reduce_done hr
    refine ⟨saved, htimely, h.source, h.exhausted, ?_, h.choices⟩
    have hsplit := h.stands
    rw [← List.take_append_drop shape.length m.stack] at hsplit
    exact hsplit.reduce hmaker hmake next priority m.clock
  | only =>
    exact ⟨saved, h.timely.congr rfl rfl rfl rfl, h.source, h.exhausted, h.stands, h.choices⟩
  | branch _ hleave =>
    have hleft := h.leave (hstands.lookahead _ rfl) rfl hleave
    exact ⟨_, hleft.timely.congr rfl rfl rfl rfl, hleft.source, hleft.exhausted, hleft.stands,
      hleft.choices⟩
  | back _ hback => exact h.back hback

variable [Token τ]

/-- A look finds what comes at the position. -/
theorem looked {lookahead : Lookahead τ} (h : Retained nodeLeaves source m saved)
    (hlooked : Parser.Looked p m lookahead m₁) :
    ∃ saved', Retained nodeLeaves source m₁ saved' := by
  cases hlooked with
  | known => exact ⟨saved, h⟩
  | ended hnone hread =>
    obtain ⟨hb, hend⟩ := h.readToken hread
    exact ⟨saved, hb.decide hend⟩
  | single hnone hread hways =>
    obtain ⟨hb, htoken⟩ := h.readToken hread
    exact ⟨saved, hb.decide ⟨htoken, rfl⟩⟩
  | @several b _ token reading _ _ hnone hread hways hleave =>
    obtain ⟨hb, htoken⟩ := h.readToken hread
    have hat : (Lookahead.token ⟨token, reading, b.position, b.clock⟩).IsAt b.pulled b.exhausted
        b.position := ⟨htoken, rfl⟩
    have hleft := hb.leave hat rfl hleave
    refine ⟨_, hleft.decide ?_⟩
    obtain ⟨depth, rfl⟩ := Parser.leaveChoice_ok hleave
    exact hat

/-- A step keeps the tokens. -/
theorem step (hmaker : p.maker.KeepsLeaves nodeLeaves) (h : Retained nodeLeaves source m saved)
    (hstep : p.step m = .next m') : ∃ saved', Retained nodeLeaves source m' saved' := by
  rcases Parser.step_next hstep with ⟨lookahead, m₁, hl, hlooked, hmoved⟩ | ⟨b, d, hlook, hback⟩
  · obtain ⟨saved₁, h₁⟩ := h.looked hlooked
    have hfree : Retained nodeLeaves source { m₁ with forced := none } saved₁ :=
      ⟨h₁.timely.congr rfl rfl rfl rfl, h₁.source, h₁.exhausted, h₁.stands, h₁.choices⟩
    exact hfree.moved hmaker hl hmoved
  · obtain ⟨-, token, hread, -⟩ := Parser.look_refused hlook
    exact (h.readToken hread).1.back hback

/-- Every machine that a parse reaches holds its tokens. -/
theorem of_reaches {memory : σ} (hmaker : p.maker.KeepsLeaves nodeLeaves)
    (hreach : p.Reaches (.start source memory) m) :
    ∃ saved, Retained nodeLeaves source m saved := by
  induction hreach with
  | refl => exact ⟨[], .start source memory⟩
  | tail _ hstep ih =>
    obtain ⟨saved, h⟩ := ih
    exact h.step hmaker hstep

end Retained

/-- What has been read is the beginning of the source, all of it if its end was found, and the
tokens before the current position are on the stack, each once and in order. -/
structure Machine.HoldsTokens (nodeLeaves : ν → List (τ × Nat)) (source : List (Except ε τ))
    (m : Machine τ ν ε σ) : Prop where
  source : source = m.pulled.map .ok ++ m.source
  exhausted : m.exhausted = true → m.source = []
  stands : Stands nodeLeaves m.pulled m.exhausted m.stack m.position m.lookahead

/-- The tokens that a machine keeps are held by it. -/
theorem Retained.holdsTokens {source : List (Except ε τ)} {m : Machine τ ν ε σ}
    {saved : List (Machine τ ν ε σ)} (h : Retained nodeLeaves source m saved) :
    m.HoldsTokens nodeLeaves source :=
  ⟨h.source, h.exhausted, h.stands⟩

namespace Parser

variable [Token τ] {p : Parser τ ν β σ} {source : List (Except ε τ)} {m : Machine τ ν ε σ}

/-- Whatever the table, the source and the operators are, at every step of a parse the tokens before
the current position are on the stack, each once, in order and with its own place, also when the
lookahead has been decided, which is what comes at the position. The source has been asked once
for each token that has been read, and once for its end if that was found; any step that does not
ask does not depend on what the source holds. -/
theorem tokens_kept {memory : σ} {k : Nat} (hmaker : p.maker.KeepsLeaves nodeLeaves)
    (hreach : p.ReachesAsking (.start source memory) k m) :
    m.HoldsTokens nodeLeaves source ∧
    (∀ m₁, p.look (p.stateOn m.stack) m = .done m₁ → m₁.HoldsTokens nodeLeaves source) ∧
    k = m.pulled.length + m.exhausted.toNat ∧
    (m.exhausted = true → m.asks = false) ∧
    (m.asks = false → ∀ other, p.step (m.withSource other) = (p.step m).withSource other) := by
  obtain ⟨saved, h⟩ := Retained.of_reaches hmaker (reaches_iff_asking.mpr ⟨k, hreach⟩)
  refine ⟨h.holdsTokens, fun m₁ hlook => ?_, ?_, fun hexhausted => ?_, fun hasks other =>
    step_withSource other hasks⟩
  · obtain ⟨lookahead, -, hlooked⟩ := looked_of_done hlook
    obtain ⟨saved₁, h₁⟩ := h.looked hlooked
    exact h₁.holdsTokens
  · have hanswers := hreach.answers
    rw [Machine.answers, Machine.answers] at hanswers
    simpa [Machine.start] using hanswers.symm
  · simp [Machine.asks, Machine.isBehindInput, hexhausted]

/-- The maker of nodes that keeps the tokens of the children and nothing else. -/
def leafMaker : NodeMaker TerminalId (List (TerminalId × Nat)) Empty Unit :=
  ⟨fun _ items memory => (.ok (items.flatMap (HandleItem.leaves id)), memory)⟩

/-- A parser that has guessed wrongly on `a c` and is back at the guess holds `a` on its stack, and
`c` comes next; it has asked for these two tokens. -/
theorem tokens_kept_guess :
    ∃ (k : Nat) (m : Machine TerminalId (List (TerminalId × Nat)) Empty Unit),
      (Parser.ofTable guessingTable leafMaker none).ReachesAsking
        (.start [.ok ⟨1⟩, .ok ⟨2⟩] ()) k m ∧
      m.counts.backtracks = 1 ∧ k = 2 ∧ m.position = 1 ∧
      m.HoldsTokens id [.ok ⟨1⟩, .ok ⟨2⟩] := by
  have hmaker : leafMaker.KeepsLeaves id := by
    intro r items memory n memory' hmake
    exact (Except.ok.inj (Prod.mk.inj hmake).1).symm
  have hreach : (Parser.ofTable guessingTable leafMaker none).ReachesAsking (ε := Empty)
      (.start [.ok ⟨1⟩, .ok ⟨2⟩] ()) _ _ := .step (.step (.step (.step .start rfl) rfl) rfl) rfl
  exact ⟨_, _, hreach, rfl, rfl, rfl, (tokens_kept hmaker hreach).1⟩

end Parser

end OperatorLALR
