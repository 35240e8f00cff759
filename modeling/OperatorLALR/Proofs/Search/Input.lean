import OperatorLALR.Proofs.Parser.Moves

/-!
# What a parser has read

Tokens are read once and stay in a buffer when the parser goes back. A source gives tokens until it
ends or fails. A machine is `Fed` with a list of tokens if buffer and source together give that
list, and if every position to which it may return lies within the buffer; then reading gives the
token at the current position of the list.
-/

namespace OperatorLALR

variable {τ ν β ε σ : Type}

/-- How many tokens a lookahead takes. -/
def Lookahead.width : Lookahead τ → Nat
  | .token _ => 1
  | .inputEnd => 0

/-- A lookahead in another reading takes as many tokens. -/
@[simp] theorem Lookahead.width_reread (reading : Reading) (stamp : Nat) (lookahead : Lookahead τ) :
    (lookahead.reread reading stamp).width = lookahead.width := by
  cases lookahead <;> rfl

/-- The tokens that a source gives before it ends or fails. -/
def given : List (Except ε τ) → List τ
  | .ok token :: source => token :: given source
  | .error _ :: _ => []
  | [] => []

/-- A source without failures gives all its tokens. -/
@[simp] theorem given_map_ok (tokens : List τ) :
    given (tokens.map (.ok : τ → Except ε τ)) = tokens := by
  induction tokens with
  | nil => rfl
  | cons token tokens ih => rw [List.map_cons, given, ih]

/-- Buffer and source give a list of tokens, and all lookaheads come from the buffer. -/
structure Fed (tokens : List τ) (m : Machine τ ν ε σ) : Prop where
  source : m.pulled ++ given m.source = tokens
  exhausted : m.exhausted = true → m.source = []
  position_le : m.position + m.lookahead.elim 0 Lookahead.width ≤ m.pulled.length
  choices_le : ∀ c ∈ m.choices, c.position + c.lookahead.width ≤ m.pulled.length

namespace Fed

variable {tokens : List τ} {m b : Machine τ ν ε σ}

/-- A parse begins with its tokens in the source. -/
theorem start (source : List (Except ε τ)) (memory : σ) :
    Fed (given source) (.start source memory : Machine τ ν ε σ) where
  source := rfl
  exhausted := nofun
  position_le := Nat.le_refl 0
  choices_le := by simp [Machine.start]

/-- Only what has been read, the position, the lookahead and the choice points matter. -/
theorem congr (h : Fed tokens m) (hpulled : b.pulled = m.pulled) (hsource : b.source = m.source)
    (hexhausted : b.exhausted = m.exhausted)
    (hposition : b.position + b.lookahead.elim 0 Lookahead.width ≤ m.pulled.length)
    (hchoices : ∀ c ∈ b.choices, c.position + c.lookahead.width ≤ m.pulled.length) :
    Fed tokens b where
  source := by
    rw [hpulled, hsource]
    exact h.source
  exhausted := by
    rw [hexhausted, hsource]
    exact h.exhausted
  position_le := by rwa [hpulled]
  choices_le := by
    rw [hpulled]
    exact hchoices

/-- Pulling a token from the source into the buffer. -/
theorem pull {token : τ} {source : List (Except ε τ)} (h : Fed tokens m)
    (hsource : m.source = .ok token :: source) :
    tokens[m.pulled.length]? = some token ∧
      Fed tokens { m with pulled := m.pulled ++ [token], source := source } := by
  have htokens : m.pulled ++ token :: given source = tokens := by
    rw [← h.source, hsource, given]
  have hle : m.pulled.length ≤ (m.pulled ++ [token]).length := by simp
  refine ⟨?_, ?_, ?_, Nat.le_trans h.position_le hle, ?_⟩
  · rw [← htokens, List.getElem?_append_right (Nat.le_refl _), Nat.sub_self]
    rfl
  · rw [← htokens, List.append_assoc]
    rfl
  · intro hex
    have hnil := h.exhausted hex
    rw [hsource] at hnil
    cases hnil
  · exact fun c hc => Nat.le_trans (h.choices_le c hc) hle

/-- If nothing is left in the source, the buffer holds all tokens. -/
theorem pulled_eq (h : Fed tokens m) (hend : m.exhausted = true ∨ m.source = []) :
    m.pulled = tokens := by
  have hnil : m.source = [] := by
    rcases hend with hex | hnil
    · exact h.exhausted hex
    · exact hnil
  rw [← h.source, hnil, given, List.append_nil]

/-- What is read is the token at the current position, or nothing at the end. -/
theorem readToken {read : Option τ} (h : Fed tokens m)
    (hread : Parser.readToken m = (.ok read, b)) :
    read = tokens[m.position]? ∧ Fed tokens b ∧
      b.position + read.elim 0 (fun _ => 1) ≤ b.pulled.length := by
  have hposition : m.position ≤ m.pulled.length := Nat.le_of_add_right_le h.position_le
  unfold Parser.readToken at hread
  split at hread
  · next token htoken =>
    obtain ⟨hr, rfl⟩ := Prod.mk.inj hread
    obtain rfl := Except.ok.inj hr
    have hlt : m.position < m.pulled.length := List.getElem?_eq_some_iff.mp htoken |>.1
    refine ⟨?_, h, hlt⟩
    rw [← h.source, List.getElem?_append_left hlt]
    exact htoken.symm
  · next htoken =>
    have hend : m.position = m.pulled.length :=
      Nat.le_antisymm hposition (List.getElem?_eq_none_iff.mp htoken)
    split at hread
    · next hex =>
      obtain ⟨hr, rfl⟩ := Prod.mk.inj hread
      obtain rfl := Except.ok.inj hr
      refine ⟨?_, h, hposition⟩
      rw [← h.pulled_eq (.inl hex), hend, List.getElem?_length]
    · split at hread
      · next hnil =>
        obtain ⟨hr, rfl⟩ := Prod.mk.inj hread
        obtain rfl := Except.ok.inj hr
        have hall := h.pulled_eq (.inr hnil)
        refine ⟨?_, ⟨h.source, fun _ => hnil, h.position_le, h.choices_le⟩, hposition⟩
        rw [← hall, hend, List.getElem?_length]
      · next token source hcons =>
        obtain ⟨hr, rfl⟩ := Prod.mk.inj hread
        obtain rfl := Except.ok.inj hr
        obtain ⟨htoken, hpulled⟩ := h.pull hcons
        refine ⟨?_, hpulled, ?_⟩
        · rw [hend, htoken]
        · rw [hend]
          simp
      · cases (Prod.mk.inj hread).1

end Fed

end OperatorLALR
