import OperatorLALR.Proofs.Precedence.Grammars

/-!
# Operands with operators between them

The grammar `E := ATOM | E op E` derives the words in which atoms and operators take turns, with an
atom at both ends (`Infix.derives_iff`). Replacing an operand by the body of a rule keeps what takes
turns (`Infix.alternates_of_rewrites`), because the bodies themselves are of this kind.
-/

namespace OperatorLALR

/-- There are operands in the list, with an operator between each two of them. -/
inductive Alternates {α : Type} (operand operator : α → Prop) : List α → Prop
  | last {x : α} (hx : operand x) : Alternates operand operator [x]
  | cons {x op : α} {rest : List α} (hx : operand x) (hop : operator op)
      (hrest : Alternates operand operator rest) : Alternates operand operator (x :: op :: rest)

namespace Alternates

variable {α β : Type} {operand operator : α → Prop}

/-- Two lists of operands may stand on both sides of an operator. -/
theorem append {xs ys : List α} {op : α} (h : Alternates operand operator xs) (hop : operator op)
    (h' : Alternates operand operator ys) : Alternates operand operator (xs ++ op :: ys) := by
  induction h with
  | last hx => exact .cons hx hop h'
  | cons hx hop' _ ih => exact .cons hx hop' ih

/-- Elements take turns if their images do. -/
theorem of_map {operand' operator' : β → Prop} {f : β → α} {xs : List β}
    (h : Alternates operand operator (xs.map f)) (hoperand : ∀ x, operand (f x) → operand' x)
    (hoperator : ∀ x, operator (f x) → operator' x) : Alternates operand' operator' xs := by
  generalize hys : xs.map f = ys at h
  induction h generalizing xs with
  | last hx =>
    obtain ⟨x, rfl, rfl⟩ := List.map_eq_singleton_iff.mp hys
    exact .last (hoperand x hx)
  | cons hx hop _ ih =>
    obtain ⟨x, _, rfl, rfl, htail⟩ := List.map_eq_cons_iff.mp hys
    obtain ⟨op, rest, rfl, rfl, hrest⟩ := List.map_eq_cons_iff.mp htail
    exact .cons (hoperand x hx) (hoperator op hop) (ih hrest)

end Alternates

namespace Grammar.Infix

variable {g : Grammar} {atom : TerminalId} {operators : List TerminalId}

/-- A symbol that stands for an operand. -/
def Operand (g : Grammar) (atom : TerminalId) (symbol : Symbol) : Prop :=
  symbol = .nonterminal g.start ∨ symbol = .terminal atom

/-- A symbol that is an operator. -/
def Operator (operators : List TerminalId) (symbol : Symbol) : Prop :=
  ∃ op ∈ operators, symbol = .terminal op

variable (h : g.Infix atom operators)

include h

/-- The rules of the start symbol derive operands with operators between them. -/
theorem alternates_body {r : RuleId} {rule : Rule} (hrule : g.rule? r = some rule)
    (hleft : Operand g atom (.nonterminal rule.left)) :
    Alternates (Operand g atom) (Operator operators) rule.body := by
  have hstart : rule.left = g.start := by
    rcases hleft with heq | heq
    · exact Symbol.nonterminal.inj heq
    · cases heq
  rcases h.rule_cases_of_left hrule hstart with ⟨-, rfl⟩ | ⟨op, hop, -, rfl⟩
  · exact .last (.inr rfl)
  · exact .cons (.inl rfl) ⟨op, hop, rfl⟩ (.last (.inl rfl))

/-- What replaces operands with operators between them is of this kind. -/
theorem alternates_of_rewrites {xs ys : List Symbol}
    (hxs : Alternates (Operand g atom) (Operator operators) xs) (hrewrites : g.Rewrites xs ys) :
    Alternates (Operand g atom) (Operator operators) ys := by
  -- the first operand is replaced, or the replacement takes place behind the first operator
  induction hxs generalizing ys with
  | last hx =>
    cases hrewrites with
    | head hrule =>
      rw [List.append_nil]
      exact h.alternates_body hrule hx
    | tail _ hnone => cases hnone
  | cons hx hop hrest ih =>
    cases hrewrites with
    | head hrule => exact (h.alternates_body hrule hx).append hop hrest
    | tail _ hlater =>
      cases hlater with
      | head =>
        obtain ⟨op, -, heq⟩ := hop
        cases heq
      | tail _ hlater => exact .cons hx hop (ih hlater)

/-- What the start symbol derives are operands with operators between them. -/
theorem alternates_of_derives {ys : List Symbol} (hderives : g.Derives [.nonterminal g.start] ys) :
    Alternates (Operand g atom) (Operator operators) ys := by
  induction hderives with
  | refl => exact .last (.inl rfl)
  | tail _ hstep ih => exact h.alternates_of_rewrites ih hstep

/-- The words of the language are atoms with operators between them. -/
theorem derives_iff {w : List TerminalId} :
    g.Derives [.nonterminal g.start] (w.map .terminal) ↔
      Alternates (· = atom) (· ∈ operators) w := by
  constructor
  · intro hderives
    refine (h.alternates_of_derives hderives).of_map (fun t ht => ?_) fun t ht => ?_
    · rcases ht with heq | heq
      · cases heq
      · exact Symbol.terminal.inj heq
    · obtain ⟨op, hop, heq⟩ := ht
      exact Symbol.terminal.inj heq ▸ hop
  · intro hw
    have hatom : g.Derives [.nonterminal g.start] [.terminal atom] := .rule h.rule?_lone .refl
    induction hw with
    | last hx => exact hx ▸ hatom
    | @cons x op rest hx hop _ ih =>
      have hbody : g.Derives ([.nonterminal g.start] ++ ([.terminal op] ++ [.nonterminal g.start]))
          ([.terminal atom] ++ ([.terminal op] ++ rest.map .terminal)) :=
        hatom.append (.append .refl ih)
      exact hx ▸ .rule (h.rule?_binary hop) hbody

end Grammar.Infix

end OperatorLALR
