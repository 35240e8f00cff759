import Mathlib.Order.Bounds.Defs
import OperatorLALR.Proofs.ConflictFree.Parses
import OperatorLALR.Proofs.Search.Direct
import OperatorLALR.Proofs.Soundness.Prefixes

/-!
# Errors are found at once

Over the table of a grammar without conflicts, a parser may make reductions before it notices that
the next token cannot follow, because lookahead sets forget some of the context. But it never shifts
a token unless the tokens so far begin a sentential form, and it shifts all that do, since its only
run reads whatever leads the start symbol (`Branch.Steady.le_of_stuck`). Hence the position at which
it rejects an input is the end of the longest such part of it (`conflictFree_rejects`).
-/

namespace OperatorLALR

variable {τ ν β ε σ : Type} [Token τ] {g : Grammar} {a : Analysis} {tokens : List τ}

/-- The start symbol derives something that begins with the terminals of the first tokens, as many
as given. -/
def Grammar.Admits (g : Grammar) (tokens : List τ) (k : Nat) : Prop :=
  k ≤ tokens.length ∧ ∃ rest, g.Derives [.nonterminal g.start]
    ((tokens.take k).map (fun token => .terminal (Token.terminal token)) ++ rest)

namespace Branch

variable {p : Parser τ (ParseTree τ) β σ} {b b' : Branch τ}

/-- A step does not go back in the input. -/
theorem position_le_of_mem_next (h : b' ∈ b.next p tokens) : b.position ≤ b'.position := by
  cases step_of_mem_next h with
  | ended | read | force => exact Nat.le_refl _
  | shift => exact Nat.le_succ _
  | reduce _ _ hreduce =>
    obtain ⟨_, _, _, -, -, -, -, rfl⟩ := reduce?_eq_some_iff.mp hreduce
    exact Nat.le_refl _

/-- A run does not go back in the input. -/
theorem position_le_of_reaches (h : Search.Reaches (Branch.next p tokens) b b') :
    b.position ≤ b'.position := by
  induction h with
  | refl => exact Nat.le_refl _
  | tail _ hstep ih => exact Nat.le_trans ih (position_le_of_mem_next hstep)

namespace Steady

/-- A steady branch is in front of the token at its position. -/
theorem seen_eq (h : Steady g a p tokens b) :
    b.seen tokens = (tokens[b.position]?.map Token.terminal).getD endOfInput := by
  rcases h.ready.lookahead with hnone | hsome
  · rw [seen, hnone]
  · rw [seen, hsome]
    cases htoken : tokens[b.position]? with
    | none =>
      rw [lookaheadAt_plainViews_of_none htoken]
      rfl
    | some token =>
      rw [lookaheadAt_plainViews_of_some htoken]
      rfl

/-- The only run gets stuck behind all tokens that begin a sentential form. -/
theorem le_of_stuck (hg : g.Built a) (hp : Serves g a p) (hc : g.Covers a p.table)
    (hd : g.Dictates a p.table) (hnames : ∀ token ∈ tokens, Token.operatorName token = none)
    (hreach : Search.Reaches (Branch.next p tokens) .start b) (hstuck : b.next p tokens = [])
    {k : Nat} (hk : g.Admits tokens k) : k ≤ b.position := by
  obtain ⟨hle, rest, hderives⟩ := hk
  have hstart : Steady g a p tokens .start := .start g a p tokens
  have hinitial : p.stateOn Branch.start.stack = initialState := hp.table.initial
  have hleads : g.Leads ((tokens.map Token.terminal).take k) [.nonterminal g.start] := by
    refine Grammar.leads_iff.mpr ⟨rest, ?_⟩
    rw [← List.map_take, List.map_map]
    exact hderives
  have hahead : g.ahead ⟨acceptRule, 0⟩ = [.nonterminal g.start] :=
    Grammar.body_eq hg.wellFormed.accept
  obtain ⟨b', hreach', hread⟩ := lead_run hg hp hc hd hnames hleads hstart
    (hinitial ▸ hg.has_start) hahead (List.take_prefix _ _)
  have hlast : Search.Reaches (Branch.next p tokens) b' b :=
    hreach.of_stuck (fun _ hb => hb.next hd.toHeeds hnames hg hp)
      (fun _ hb => hb.length_next_le hd.toHeeds hnames) hreach' hstart hstuck
  have hposition := position_le_of_reaches hlast
  rw [List.length_take, List.length_map, Nat.min_eq_left hle] at hread
  dsimp only [Branch.start] at hread
  omega

end Steady

end Branch

/-- Where a parse over the table of a grammar without conflicts, of tokens that denote no operators,
rejects its input, the position that it reports is the largest number of tokens with which
something begins that the start symbol derives. The terminal that it reports is that of the token at
this position, or the end of the input behind the last token. -/
theorem conflictFree_rejects {options : BuildOptions} {table : GeneratedTable} (hg : g.IsDefined)
    (ha : g.analyse = .ok a) (hstates : (g.kernels a).items.size < stateNumbers)
    (hbuild : (g.build options).2 = .ok table) (hfree : g.ConflictFree a)
    (calls : List OperatorCall) (limit : Option Nat) {maker : NodeMaker τ ν β σ}
    {p : Parser τ ν β σ}
    (hp : p = (Parser.ofTable table.toParseTable maker limit).defineAll calls)
    (hnames : ∀ token ∈ tokens, Token.operatorName token = none) {n : Nat} {memory : σ}
    {position : Nat} {seen : TerminalId} {expected : List TerminalId} {last : Machine τ ν ε σ}
    (hparse : p.parse n (tokens.map .ok) memory =
      some (.error (.rejected position seen expected), last)) :
    IsGreatest {k | g.Admits tokens k} position ∧
      seen = (tokens[position]?.map Token.terminal).getD endOfInput := by
  have h : g.Built a := ⟨hg.wellFormed, ha, hstates⟩
  obtain ⟨hserves, hcovers, htable, -⟩ := h.of_defineAll hbuild hp
  have hd : g.Dictates a p.overTrees.table := htable ▸ h.dictates hbuild hfree
  have hsteady : ∀ b, Search.Reaches (Branch.next p.overTrees tokens) .start b →
      Branch.Steady g a p.overTrees tokens b := fun _ hreach =>
    (Branch.Steady.start g a p.overTrees tokens).of_reaches h hserves hd hnames hreach
  obtain ⟨b, hreach, hstuck, rfl, rfl⟩ := Parser.exists_stuck_of_parse
    (fun b hreach => (hsteady b hreach).length_next_le hd.toHeeds hnames) hparse
  have hsound := (hsteady b hreach).sound
  refine ⟨⟨⟨hsound.position, ?_⟩, ?_⟩, (hsteady b hreach).seen_eq⟩
  · exact hsound.derives h hserves.table.initial hnames
  · exact fun k hk => Branch.Steady.le_of_stuck h hserves hcovers hd hnames hreach hstuck hk

/-- In the grammar with an empty rule in front, the terminal begins a sentential form, and the
terminal twice does not: a parse shifts the first, and rejects the input in front of the second. -/
theorem conflictFree_rejects_optionalPrefix :
    ((Parser.ofTable optionalPrefixTable.toParseTable Parser.ruleMaker none).parse (ε := Empty) 20
        ([⟨1⟩, ⟨1⟩].map .ok) ()).map Prod.fst =
      some (.error (.rejected 1 ⟨1⟩ [endOfInput])) ∧
    IsGreatest {k | optionalPrefix.Admits [(⟨1⟩ : TerminalId), ⟨1⟩] k} 1 := by
  have hrejects : ((Parser.ofTable optionalPrefixTable.toParseTable Parser.ruleMaker none).parse
      (ε := Empty) 20 ([⟨1⟩, ⟨1⟩].map .ok) ()).map Prod.fst =
        some (.error (.rejected 1 ⟨1⟩ [endOfInput])) := by
    decide +kernel
  obtain ⟨⟨_, last⟩, hparse, rfl⟩ := Option.map_eq_some_iff.mp hrejects
  exact ⟨hrejects, (conflictFree_rejects optionalPrefix_isDefined (by decide +kernel)
    (by decide +kernel) optionalPrefix_build optionalPrefix_conflictFree [] none rfl
    (by decide) hparse).1⟩

end OperatorLALR
