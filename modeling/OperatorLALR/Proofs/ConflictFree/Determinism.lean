import OperatorLALR.Proofs.Completeness.Plain
import OperatorLALR.Proofs.ParseTable.Exact

/-!
# Parsers without a choice

A table heeds the automaton if it has a single one of its actions, or none, in each state on each
terminal (`Grammar.Heeds`). Over tokens that denote no operators a parser then never has a choice
(`Branch.Steady.length_next_le`), so that all runs from a branch are parts of one, which accepts
with one tree at most (`Grammar.Heeds.decides`). A table without conflicts dictates what to do: it
has every action that the automaton has (`Grammar.Dictates`), and the parser follows any derivation
tree over the input (`Grammar.Dictates.guide`).
-/

namespace OperatorLALR

namespace Search

variable {α : Type} {next : α → List α} {P : α → Prop} {a b c : α}

/-- Where there is one way on at most, all ways on are the same. -/
theorem eq_of_length_le_one {xs : List α} (hone : xs.length ≤ 1) (hb : b ∈ xs) (hc : c ∈ xs) :
    b = c := by
  obtain ⟨only, rfl⟩ := List.length_eq_one_iff.mp
    (Nat.le_antisymm hone (List.length_pos_of_mem hb))
  rw [List.mem_singleton.mp hb, List.mem_singleton.mp hc]

/-- Where there is one way on at most, a run that goes on somewhere ends if it ends from there. -/
theorem Ends.of_reaches (hnext : ∀ a, P a → ∀ b ∈ next a, P b)
    (hone : ∀ a, P a → (next a).length ≤ 1) (h : Reaches next a b) (ha : P a)
    (hends : Ends next b) : Ends next a := by
  induction h using Relation.ReflTransGen.head_induction_on with
  | refl => exact hends
  | @head a a' hstep _ ih =>
    constructor
    intro c hc
    rw [eq_of_length_le_one (hone a ha) hc hstep]
    exact ih (hnext a ha a' hstep)

/-- Where there is one way on at most, all runs are parts of one that cannot go on. -/
theorem Reaches.of_stuck (hnext : ∀ a, P a → ∀ b ∈ next a, P b)
    (hone : ∀ a, P a → (next a).length ≤ 1) (hb : Reaches next a b) (hc : Reaches next a c)
    (ha : P a) (hstuck : next b = []) : Reaches next c b := by
  induction hc using Relation.ReflTransGen.head_induction_on with
  | refl => exact hb
  | @head a a' hstep _ ih =>
    rcases Relation.ReflTransGen.cases_head hb with rfl | ⟨a'', hstep', hrest⟩
    · rw [hstuck] at hstep
      cases hstep
    · have hsame : a'' = a' := eq_of_length_le_one (hone a ha) hstep' hstep
      exact ih (hsame ▸ hrest) (hnext a ha a' hstep)

/-- Where there is one way on at most, all runs that cannot go on end at the same place. -/
theorem Reaches.eq_of_stuck (hnext : ∀ a, P a → ∀ b ∈ next a, P b)
    (hone : ∀ a, P a → (next a).length ≤ 1) (hb : Reaches next a b) (hc : Reaches next a c)
    (ha : P a) (hstuck : next b = []) (hstuck' : next c = []) : b = c := by
  rcases Relation.ReflTransGen.cases_head (hb.of_stuck hnext hone hc ha hstuck) with
    heq | ⟨c', hstep, -⟩
  · exact heq.symm
  · rw [hstuck'] at hstep
    cases hstep

end Search

/-- A table has only single actions of the automaton. -/
structure Grammar.Heeds (g : Grammar) (a : Analysis) (table : ParseTable) : Prop where
  only : ∀ q t, table.action q t = .error ∨ g.Acts a q t (table.action q t)

/-- A table has the actions of the automaton, and no others. -/
structure Grammar.Dictates (g : Grammar) (a : Analysis) (table : ParseTable) : Prop extends
    g.Heeds a table where
  acts : ∀ q t action, g.Acts a q t action → table.action q t = action

/-- A table that is built without conflicts dictates what to do. -/
theorem Grammar.Built.dictates {g : Grammar} {a : Analysis} {options : BuildOptions}
    {table : GeneratedTable} (h : g.Built a) (hbuild : (g.build options).2 = .ok table)
    (hfree : g.ConflictFree a) : g.Dictates a table.toParseTable where
  acts q t := (h.action_of_conflictFree hbuild hfree q t).1
  only q t := (h.action_of_conflictFree hbuild hfree q t).2

/-- Where an item is looked for with its dot at the end, a table that dictates what to do reduces by
its rule, or accepts by that of the augmented start symbol. -/
theorem Grammar.Dictates.complete {g : Grammar} {a : Analysis} {table : ParseTable} {q : StateId}
    {r : RuleId} {t : TerminalId} (hd : g.Dictates a table)
    (hlook : (g.automaton a).Look g q ⟨r, (g.body r).length⟩ t) :
    r = acceptRule ∧ table.action q t = .accept ∨
      r ≠ acceptRule ∧ table.action q t = .reduce r := by
  by_cases hr : r = acceptRule
  · subst hr
    exact .inl ⟨rfl, hd.acts _ _ .accept hlook⟩
  · exact .inr ⟨hr, hd.acts _ _ (.reduce r) ⟨hr, hlook⟩⟩

variable {τ β σ : Type} [Token τ] {g : Grammar} {a : Analysis}
  {p : Parser τ (ParseTree τ) β σ} {tokens : List τ} {b : Branch τ}

/-- A table that dictates what to do leads a parser along all trees without operators. -/
theorem Grammar.Dictates.guide (hd : g.Dictates a p.table) (hg : g.Built a) :
    Guide g a p fun _ tree _ => tree.Plain where
  shift _ _ hgoes := .inl (hd.acts _ _ (.shift _) hgoes)
  reduce _ _ _ hr hlook := .inl (hd.acts _ _ (.reduce _) ⟨hr, hlook⟩)
  operands hplain := hplain.operandsFit
  child _ _ _ _ hplain := hplain.child (List.mem_append_right _ List.mem_cons_self)
  accept _ hhas := hd.acts _ _ .accept (hg.look_accept hhas rfl)

omit [Token τ] in
/-- A table that heeds the automaton leaves nothing open. -/
theorem Grammar.Heeds.openActions_eq_none (hd : g.Heeds a p.table)
    (stack : List (StackEntry τ (ParseTree τ))) (lookahead : Lookahead τ) (q : StateId)
    (t : TerminalId) : p.openActions stack lookahead (p.table.action q t) = none := by
  have honly := hd.only q t
  generalize p.table.action q t = action at honly
  cases action with
  | dynamic | choice =>
    rcases honly with herror | hacts
    · cases herror
    · exact False.elim hacts
  | _ => rfl

namespace Branch

/-- A branch that accepts does not go on. -/
theorem next_eq_nil_of_result {tree : ParseTree τ} (h : b.result? p = some tree) :
    b.next p tokens = [] := by
  obtain ⟨lookahead, hl, hresult⟩ := Option.bind_eq_some_iff.mp h
  unfold Branch.next
  rw [hl]
  dsimp only
  split at hresult
  · next haction _ => rw [haction]
  · cases hresult

/-- A branch keeps to the automaton and to the tokens, and reads these as their own terminals. -/
structure Steady (g : Grammar) (a : Analysis) (p : Parser τ (ParseTree τ) β σ) (tokens : List τ)
    (b : Branch τ) : Prop where
  sound : Sound g a p tokens b
  ready : b.Ready (plainViews tokens)

/-- A parse begins with a steady branch. -/
theorem Steady.start (g : Grammar) (a : Analysis) (p : Parser τ (ParseTree τ) β σ)
    (tokens : List τ) : Steady g a p tokens .start :=
  ⟨.start g a p tokens, rfl, .inl rfl⟩

namespace Steady

variable (h : Steady g a p tokens b) (hd : g.Heeds a p.table)
  (hnames : ∀ token ∈ tokens, Token.operatorName token = none)

include h

/-- A steady branch does what the table has. -/
theorem action_eq (lookahead : Lookahead τ) :
    b.action p lookahead = p.table.action (p.stateOn b.stack) lookahead.terminal := by
  rw [Branch.action, h.ready.forced]
  rfl

include hd

/-- A steady branch has no decision to make. -/
theorem openActions_eq_none (lookahead : Lookahead τ) :
    p.openActions b.stack lookahead (b.action p lookahead) = none := by
  rw [h.action_eq]
  exact hd.openActions_eq_none _ _ _ _

include hnames

/-- The way on from a steady branch is steady. -/
theorem next (hg : g.Built a) (hp : Serves g a p) :
    ∀ b' ∈ b.next p tokens, Steady g a p tokens b' := by
  intro b' hb'
  refine ⟨h.sound.next hg hp b' hb', ?_⟩
  cases step_of_mem_next hb' with
  | ended hl hend => exact ⟨h.ready.forced, .inr (lookaheadAt_plainViews_of_none hend ▸ rfl)⟩
  | @read token reading hl htoken hreading =>
    have hplain : reading = ⟨Token.terminal token, none⟩ :=
      (mem_alternatives.mp hreading).1.eq_plain (hnames token (List.mem_of_getElem? htoken))
    refine ⟨h.ready.forced, .inr ?_⟩
    rw [lookaheadAt_plainViews_of_some htoken, hplain]
  | shift => exact ⟨rfl, .inl rfl⟩
  | reduce _ _ hreduce =>
    obtain ⟨_, _, _, -, -, -, -, rfl⟩ := reduce?_eq_some_iff.mp hreduce
    exact ⟨rfl, h.ready.lookahead⟩
  | force _ hopen =>
    rw [h.openActions_eq_none hd] at hopen
    cases hopen

/-- There is one way on from a steady branch at most. -/
theorem length_next_le : (b.next p tokens).length ≤ 1 := by
  cases hl : b.lookahead with
  | none =>
    cases htoken : tokens[b.position]? with
    | none => rw [next_of_ended hl htoken, List.length_singleton]
    | some token =>
      have hname := hnames token (List.mem_of_getElem? htoken)
      rw [next_of_token hl htoken, List.length_map, alternatives, hname]
      split <;> simp
  | some lookahead =>
    have honly := hd.only (p.stateOn b.stack) lookahead.terminal
    rw [← h.action_eq] at honly
    unfold Branch.next
    rw [hl]
    dsimp only
    generalize b.action p lookahead = action at honly
    cases action with
    | shift next => cases lookahead <;> simp
    | reduce r => cases b.reduce? p r <;> simp
    | accept | error => simp
    | dynamic | choice =>
      rcases honly with herror | hacts
      · cases herror
      · exact False.elim hacts

end Steady

end Branch

/-- A parse over a table that heeds the automaton, of tokens that denote no operators, decides
whether there is a wanted tree, if it ends and accepts with the wanted trees and no others. There is
one at most. -/
theorem Grammar.Heeds.decides {ν ε : Type} {p : Parser τ ν β σ} {wanted : ParseTree τ → Prop}
    (hd : g.Heeds a p.overTrees.table) (hg : g.Built a) (hp : Serves g a p.overTrees)
    (hc : g.Covers a p.table) (hmaker : p.maker.Total)
    (hnames : ∀ token ∈ tokens, Token.operatorName token = none)
    (hends : Search.Ends (Branch.next p.overTrees tokens) .start)
    (hsound : ∀ b tree, Search.Reaches (Branch.next p.overTrees tokens) .start b →
      b.result? p.overTrees = some tree → wanted tree)
    (hcomplete : ∀ tree, wanted tree → ∃ b,
      Search.Reaches (Branch.next p.overTrees tokens) .start b ∧
        b.result? p.overTrees = some tree) (memory : σ) :
    p.Decides ε tokens memory wanted ∧
      ∀ tree tree' : ParseTree τ, wanted tree → wanted tree' → tree = tree' := by
  have hstart : Branch.Steady g a p.overTrees tokens .start := .start g a p.overTrees tokens
  have hnext : ∀ b, Branch.Steady g a p.overTrees tokens b →
      ∀ b' ∈ b.next p.overTrees tokens, Branch.Steady g a p.overTrees tokens b' :=
    fun _ hb => hb.next hd hnames hg hp
  have hone : ∀ b, Branch.Steady g a p.overTrees tokens b →
      (b.next p.overTrees tokens).length ≤ 1 := fun _ hb => hb.length_next_le hd hnames
  constructor
  · exact Parser.decides hg hp hc hmaker
      (.inr fun b hreach => hone b (hreach.invariant hnext hstart)) hends hsound hcomplete memory
  · intro tree tree' hwanted hwanted'
    obtain ⟨b, hreach, hresult⟩ := hcomplete tree hwanted
    obtain ⟨b', hreach', hresult'⟩ := hcomplete tree' hwanted'
    have hb : b = b' := hreach.eq_of_stuck hnext hone hreach' hstart
      (Branch.next_eq_nil_of_result hresult) (Branch.next_eq_nil_of_result hresult')
    rw [hb, hresult'] at hresult
    exact (Option.some.inj hresult).symm

end OperatorLALR
