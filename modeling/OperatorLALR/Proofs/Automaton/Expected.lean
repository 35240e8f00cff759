import OperatorLALR.Proofs.Automaton.Propagation

/-!
# What items expect

An item expects the symbols from its dot on. A lookahead behind an item that expects nothing more,
going by what vanishes, is the beginning of what some item of the state expects, or comes from an
item that is behind its first symbol already, or of the augmented start symbol
(`Grammar.Built.exists_source`).
-/

namespace OperatorLALR

namespace Grammar

variable {g : Grammar} {a : Analysis} {t : TerminalId} {xs : List Symbol}

/-- Only nonterminals vanish. -/
theorem vanishes_cons {symbol : Symbol} (h : g.Vanishes (symbol :: xs)) :
    ∃ n, symbol = .nonterminal n ∧ g.Vanishes [.nonterminal n] ∧ g.Vanishes xs := by
  obtain ⟨hsymbol, hxs⟩ := vanishes_append.mp (show g.Vanishes ([symbol] ++ xs) from h)
  cases symbol with
  | terminal t =>
    obtain ⟨_, hcons⟩ := derives_terminal_cons hsymbol
    cases hcons
  | nonterminal n => exact ⟨n, rfl, hsymbol, hxs⟩

/-- What an item expects: the symbols from its dot on. -/
def ahead (g : Grammar) (item : Item) : List Symbol := (g.body item.rule).drop item.dot

/-- An item expects the symbol behind its dot, and then the rest. -/
theorem ahead_eq {item : Item} {symbol : Symbol} (h : item.next? g = some symbol) :
    g.ahead item = symbol :: item.rest g := by
  obtain ⟨hlt, hget⟩ := List.getElem?_eq_some_iff.mp h
  rw [ahead, List.drop_eq_getElem_cons hlt, hget]
  rfl

/-- An item that expects some symbol has it behind its dot. -/
theorem next?_eq {item : Item} {symbol : Symbol} (h : g.ahead item = symbol :: xs) :
    item.next? g = some symbol ∧ item.rest g = xs := by
  have hnext : item.next? g = some symbol := by
    rw [Item.next?, ← List.head?_drop]
    exact congrArg List.head? h
  rw [ahead_eq hnext] at h
  exact ⟨hnext, (List.cons.inj h).2⟩

/-- What an item expects does not begin with the end of the input. -/
theorem not_begins_ahead (hg : g.WellFormed) (item : Item) :
    ¬ g.Begins (g.ahead item) endOfInput :=
  not_begins_endOfInput hg fun symbol hsymbol =>
    hg.declares_body item.rule symbol (List.mem_of_mem_drop hsymbol)

variable {q : StateId} {item : Item}

/-- Where an item is looked for on a terminal with nothing more expected, the terminal begins what
some item of the state expects, or some item that is behind its first symbol already, or is of the
augmented start symbol, is looked for as well with nothing more expected. -/
theorem Built.exists_source (hlook : (g.automaton a).Look g q item t)
    (hvanishes : g.Vanishes (g.ahead item)) :
    (∃ item, (g.automaton a).Has q item ∧ g.Begins (g.ahead item) t) ∨
      ∃ item, (g.automaton a).Look g q item t ∧ g.Vanishes (g.ahead item) ∧
        (item.rule = acceptRule ∨ 0 < item.dot) := by
  have hleft : ∀ {n : NonterminalId} {r : RuleId}, r ∈ g.rulesOf n → g.Vanishes (g.ahead ⟨r, 0⟩) →
      g.Vanishes [.nonterminal n] := by
    intro n r hr hbody
    obtain ⟨rule, hrule, rfl⟩ := mem_rulesOf.mp hr
    have hsame : g.ahead ⟨r, 0⟩ = rule.body := body_eq hrule
    exact vanishes_rule hrule (hsame ▸ hbody)
  induction hlook with
  | start => exact .inr ⟨_, .start, hvanishes, .inl rfl⟩
  | @spring p item n r t hitem hnext hr ht =>
    refine .inl ⟨item, hitem, ?_⟩
    rw [ahead_eq hnext]
    exact begins_append.mpr (.inr ⟨hleft hr hvanishes, ht⟩)
  | pass _ hnext hrest hr ih =>
    refine ih ?_
    rw [ahead_eq hnext]
    exact vanishes_append.mpr ⟨hleft hr hvanishes, hrest⟩
  | shift hlook hnext hgoes =>
    exact .inr ⟨_, .shift hlook hnext hgoes, hvanishes, .inr (Nat.succ_pos _)⟩

end Grammar

end OperatorLALR
