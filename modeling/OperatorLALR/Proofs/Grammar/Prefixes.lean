import OperatorLALR.Proofs.Grammar.Derivation

/-!
# Words in front of what symbols derive

A list of symbols may derive a list with some word of terminals in front, and whatever symbols
behind it. The word is then found from the left: each symbol stands for a part of it, and the symbol
that the word ends in need not be derived any further (`leads_iff`).
-/

namespace OperatorLALR.Grammar

variable {g : Grammar} {t : TerminalId} {w : List TerminalId} {xs ys symbols : List Symbol}

/-- Symbols derive the same behind a symbol that stays. -/
theorem Derives.cons (h : g.Derives xs ys) (symbol : Symbol) :
    g.Derives (symbol :: xs) (symbol :: ys) :=
  Derives.append (.refl : g.Derives [symbol] [symbol]) h

/-- How a word comes to stand in front: the terminal in front is its first, or the word stands in
front of a rule of the nonterminal in front, or that nonterminal derives some of the word, and the
symbols behind it lead to the others. -/
inductive Leads (g : Grammar) : List TerminalId → List Symbol → Prop
  | nil (symbols : List Symbol) : Leads g [] symbols
  | terminal (t : TerminalId) {w : List TerminalId} {rest : List Symbol} (h : Leads g w rest) :
      Leads g (t :: w) (.terminal t :: rest)
  | enter {r : RuleId} {rule : Rule} {w : List TerminalId} (hrule : g.rule? r = some rule)
      (h : Leads g w rule.body) (rest : List Symbol) : Leads g w (.nonterminal rule.left :: rest)
  | pass {n : NonterminalId} {v w : List TerminalId} {t : TerminalId} {rest : List Symbol}
      (hn : g.Derives [.nonterminal n] (v.map .terminal)) (h : Leads g (t :: w) rest) :
      Leads g (v ++ t :: w) (.nonterminal n :: rest)

/-- What leads two lists leads the first, or the second behind what the first derives. -/
theorem Leads.of_append (h : g.Leads w (xs ++ ys)) :
    g.Leads w xs ∨ ∃ v t w', w = v ++ t :: w' ∧ g.Derives xs (v.map .terminal) ∧
      g.Leads (t :: w') ys := by
  induction xs generalizing w with
  | nil =>
    cases w with
    | nil => exact .inl (.nil [])
    | cons t w => exact .inr ⟨[], t, w, rfl, .refl, h⟩
  | cons symbol xs ih =>
    cases h with
    | nil => exact .inl (.nil _)
    | terminal t h =>
      rcases ih h with hxs | ⟨v, t', w', rfl, hxs, hys⟩
      · exact .inl (.terminal t hxs)
      · exact .inr ⟨t :: v, t', w', rfl, hxs.cons (.terminal t), hys⟩
    | enter hrule h => exact .inl (.enter hrule h xs)
    | @pass n u w t _ hn h =>
      rcases ih h with hxs | ⟨v, t', w', heq, hxs, hys⟩
      · exact .inl (.pass hn hxs)
      · refine .inr ⟨u ++ v, t', w', ?_, ?_, hys⟩
        · rw [heq, List.append_assoc]
        · rw [List.map_append]
          exact hn.append hxs

/-- What leads symbols after a replacement leads them before. -/
theorem Leads.of_rewrites (hrewrites : g.Rewrites xs ys) (h : g.Leads w ys) : g.Leads w xs := by
  induction hrewrites generalizing w with
  | head hrule rest =>
    rcases h.of_append with hbody | ⟨v, t, w', rfl, hbody, hrest⟩
    · exact .enter hrule hbody rest
    · exact .pass (hbody.rule hrule) hrest
  | tail symbol _ ih =>
    cases h with
    | nil => exact .nil _
    | terminal t h => exact .terminal t (ih h)
    | enter hrule h => exact .enter hrule h _
    | pass hn h => exact .pass hn (ih h)

/-- What leads symbols stands in front of something that they derive. -/
theorem Leads.derives (h : g.Leads w symbols) :
    ∃ rest, g.Derives symbols (w.map .terminal ++ rest) := by
  induction h with
  | nil symbols => exact ⟨symbols, .refl⟩
  | terminal t _ ih =>
    obtain ⟨rest, hrest⟩ := ih
    exact ⟨rest, hrest.cons (.terminal t)⟩
  | enter hrule _ rest ih =>
    obtain ⟨more, hbody⟩ := ih
    refine ⟨more ++ rest, ?_⟩
    rw [← List.append_assoc]
    exact (hbody.rule hrule).append .refl
  | pass hn _ ih =>
    obtain ⟨more, hrest⟩ := ih
    refine ⟨more, ?_⟩
    rw [List.map_append, List.append_assoc]
    exact hn.append hrest

/-- A word leads symbols if and only if they derive a list with the word in front. -/
theorem leads_iff : g.Leads w symbols ↔ ∃ rest, g.Derives symbols (w.map .terminal ++ rest) := by
  refine ⟨Leads.derives, ?_⟩
  rintro ⟨rest, h⟩
  induction h using Relation.ReflTransGen.head_induction_on with
  | refl =>
    induction w with
    | nil => exact .nil _
    | cons t w ih => exact .terminal t ih
  | head hrewrites _ ih => exact ih.of_rewrites hrewrites

/-- The first terminal of a word that leads symbols begins them. -/
theorem Leads.begins (h : g.Leads (t :: w) symbols) : g.Begins symbols t := by
  obtain ⟨rest, h⟩ := h.derives
  exact ⟨w.map Symbol.terminal ++ rest, h⟩

/-- What begins symbols leads them. -/
theorem leads_of_begins (h : g.Begins symbols t) : g.Leads [t] symbols := leads_iff.mpr h

end OperatorLALR.Grammar
