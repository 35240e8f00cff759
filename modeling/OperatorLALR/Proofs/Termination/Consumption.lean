import OperatorLALR.Proofs.Termination.Parses

/-!
# Grammars without vanishing symbols

Where every rule has a terminal in its body, no symbol vanishes, so that no nonterminal hides
another (`Grammar.Consumes.not_hides`). So all runs over the table of such a grammar end, whatever
ways they take (`Branch.ends_of_consumes`).
-/

namespace OperatorLALR

namespace Grammar

variable {g : Grammar} {symbols rest : List Symbol} {symbol : Symbol}

/-- Every rule has a terminal in its body, except for that of the augmented start symbol. -/
def Consumes (g : Grammar) : Prop :=
  ∀ r rule, g.rule? r = some rule → r ≠ acceptRule → ∃ t, Symbol.terminal t ∈ rule.body

/-- Nothing with a terminal in it vanishes. -/
theorem not_vanishes_of_mem {t : TerminalId} (ht : Symbol.terminal t ∈ symbols) :
    ¬ g.Vanishes symbols := by
  intro hvanishes
  obtain ⟨front, back, rfl⟩ := List.append_of_mem ht
  obtain ⟨n, hn, -⟩ := vanishes_cons (vanishes_append.mp hvanishes).2
  cases hn

/-- A nonterminal vanishes by one of its rules. -/
theorem exists_rule_of_vanishes {n : NonterminalId} (h : g.Vanishes [.nonterminal n]) :
    ∃ r rule, g.rule? r = some rule ∧ rule.left = n ∧ g.Vanishes rule.body := by
  rcases Relation.ReflTransGen.cases_head h with hnil | ⟨body, hstep, hbody⟩
  · cases hnil
  · cases hstep with
    | @head r rule hrule _ =>
      rw [List.append_nil] at hbody
      exact ⟨r, rule, hrule, rfl, hbody⟩
    | tail _ hstep => cases hstep

namespace Consumes

/-- No symbol vanishes. -/
theorem not_vanishes (h : g.Consumes) (hg : g.WellFormed) : ¬ g.Vanishes (symbol :: rest) := by
  have hproper : ∀ r rule, g.rule? r = some rule → r ≠ acceptRule → ¬ g.Vanishes rule.body := by
    intro r rule hrule hr
    obtain ⟨t, ht⟩ := h r rule hrule hr
    exact not_vanishes_of_mem ht
  intro hvanishes
  obtain ⟨n, -, hn, -⟩ := vanishes_cons hvanishes
  obtain ⟨r, rule, hrule, -, hbody⟩ := exists_rule_of_vanishes hn
  by_cases hr : r = acceptRule
  · -- the start symbol has a rule of its own
    subst hr
    obtain rfl := Option.some.inj (hg.accept.symm.trans hrule)
    have hstart : g.Declares (.nonterminal g.start) :=
      hg.body acceptRule _ hg.accept _ (List.mem_singleton_self _)
    obtain ⟨r, rule, hrule, hleft, hbody⟩ := exists_rule_of_vanishes hbody
    refine hproper r rule hrule ?_ hbody
    rintro rfl
    obtain rfl := Option.some.inj (hg.accept.symm.trans hrule)
    exact hstart.1 hleft.symm
  · exact hproper r rule hrule hr hbody

/-- No nonterminal hides another. -/
theorem not_hides (h : g.Consumes) (hg : g.WellFormed) (upper lower : NonterminalId) :
    ¬ g.Hides upper lower := by
  rintro ⟨hidden, rest, hne, hvanishes, -⟩
  obtain ⟨symbol, hidden, rfl⟩ := List.exists_cons_of_ne_nil hne
  exact h.not_vanishes hg hvanishes

end Consumes

end Grammar

/-- All runs over the table of a grammar end if every rule has a terminal in its body. -/
theorem Branch.ends_of_consumes {τ β σ : Type} [Token τ] {g : Grammar} {a : Analysis}
    {p : Parser τ (ParseTree τ) β σ} (hg : g.Built a) (hp : Serves g a p) (hconsumes : g.Consumes)
    (tokens : List τ) : Search.Ends (Branch.next p tokens) .start :=
  ends_of_not_hides hg hp (fun n => hconsumes.not_hides hg.wellFormed n n) tokens

end OperatorLALR
