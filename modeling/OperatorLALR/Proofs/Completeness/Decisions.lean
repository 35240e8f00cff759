import OperatorLALR.Proofs.Completeness.Guides
import OperatorLALR.Proofs.Completeness.Outcomes

/-!
# Parses that decide

A parser decides whether an input has a tree of some kind if its parse ends by accepting with the
node of such a tree, or by rejecting the input where there is none (`Parser.Decides`). It does so if
all runs end, if those that accept do so with trees of this kind, and if some run accepts with each
of them (`Parser.decides`). What is accepted is a derivation tree over the input in any case
(`Branch.parses_of_reaches`), and a guide leads to each that it fits (`Guide.reaches_of_parses`).
-/

namespace OperatorLALR

variable {τ ν β ε σ : Type}

/-- The parse of some tokens ends. It accepts with the node of a wanted tree, or it rejects them and
there is no wanted tree. -/
def Parser.Decides (ε : Type) [Token τ] (p : Parser τ ν β σ) (tokens : List τ) (memory : σ)
    (wanted : ParseTree τ → Prop) : Prop :=
  ∃ n, ∃ result : Except (ParseError ε β) ν, ∃ last : Machine τ ν ε σ,
    p.parse n (tokens.map .ok) memory = some (result, last) ∧
    ((∃ node tree, result = .ok node ∧ p.maker.Makes node tree ∧ wanted tree) ∨
      (∃ position lookahead expected, result = .error (.rejected position lookahead expected)) ∧
        ∀ tree, ¬ wanted tree)

variable [Token τ]

/-- However many steps are allowed, a parse that ends has the result that was decided on. -/
theorem Parser.Decides.of_parse {p : Parser τ ν β σ} {tokens : List τ} {memory : σ}
    {wanted : ParseTree τ → Prop} (h : p.Decides ε tokens memory wanted) {n : Nat}
    {result : Except (ParseError ε β) ν} {last : Machine τ ν ε σ}
    (hparse : p.parse n (tokens.map .ok) memory = some (result, last)) :
    (∃ node tree, result = .ok node ∧ p.maker.Makes node tree ∧ wanted tree) ∨
      (∃ position lookahead expected, result = .error (.rejected position lookahead expected)) ∧
        ∀ tree, ¬ wanted tree := by
  obtain ⟨k, result', last', hparse', hdecided⟩ := h
  have hlater := p.run_mono (Nat.le_max_left n k) hparse
  have hlater' := p.run_mono (Nat.le_max_right n k) hparse'
  obtain ⟨rfl, -⟩ := Prod.mk.inj (Option.some.inj (hlater.symm.trans hlater'))
  exact hdecided

/-- A derivation tree of the start symbol over all tokens of the input, each once and in order. -/
structure ParseTree.Parses (g : Grammar) (operators : OperatorTable) (tokens : List τ)
    (tree : ParseTree τ) : Prop where
  spells : Spells g operators (.nonterminal g.start) tree
  leaves : tree.leaves = tokens.zipIdx

/-- The tokens of a derivation tree are read in their own ways. -/
theorem Spells.reads {g : Grammar} {operators : OperatorTable} {symbol : Symbol}
    {tree : ParseTree τ} (h : Spells g operators symbol tree) :
    ∀ v ∈ tree.views, Reads operators v.token v.reading ∧ v.stamp = 0 := by
  refine @Spells.rec τ _ g operators
    (fun _ tree _ => ∀ v ∈ tree.views, Reads operators v.token v.reading ∧ v.stamp = 0)
    (fun _ trees _ => ∀ v ∈ ParseTree.viewsOf trees,
      Reads operators v.token v.reading ∧ v.stamp = 0)
    ?_ ?_ ?_ ?_ symbol tree h
  · intro token reading position hreads v hv
    rw [List.mem_singleton.mp hv]
    exact ⟨hreads, rfl⟩
  · intro r rule children _ _ ih
    exact ih
  · nofun
  · intro symbol tree symbols trees _ _ htree htrees v hv
    exact (List.mem_append.mp hv).elim (htree v) (htrees v)

/-- The views of a derivation tree over an input are a way to read it. -/
theorem ParseTree.Parses.readsAs {g : Grammar} {operators : OperatorTable} {tokens : List τ}
    {tree : ParseTree τ} (h : tree.Parses g operators tokens) :
    ReadsAs operators tokens tree.views where
  places := tree.map_place_views.trans h.leaves
  reads := h.spells.reads

variable {g : Grammar} {a : Analysis} {tokens : List τ}

/-- What is accepted is a derivation tree over the input. -/
theorem Branch.parses_of_reaches {p : Parser τ (ParseTree τ) β σ} (h : g.Built a)
    (hp : Serves g a p) (htokens : ∀ token ∈ tokens, Token.terminal token ≠ endOfInput)
    {b : Branch τ} {tree : ParseTree τ} (hreach : Search.Reaches (Branch.next p tokens) .start b)
    (hresult : b.result? p = some tree) : tree.Parses g p.operators tokens := by
  have hsound : Branch.Sound g a p tokens b :=
    hreach.invariant (fun _ hb => hb.next h hp) (.start g a p tokens)
  obtain ⟨hspells, hleaves, -⟩ := hsound.accept h hp htokens hresult
  exact ⟨hspells, hleaves⟩

/-- A guide leads some run to accept with any derivation tree over the input that it fits. -/
theorem Guide.reaches_of_parses {p : Parser τ (ParseTree τ) β σ}
    {fit : List (StackEntry τ (ParseTree τ)) → ParseTree τ → Lookahead τ → Prop}
    (guide : Guide g a p fit) (h : g.Built a) (hp : Serves g a p) (hc : g.Covers a p.table)
    {tree : ParseTree τ} (htree : tree.Parses g p.operators tokens) (hfit : fit [] tree .inputEnd) :
    ∃ b, Search.Reaches (Branch.next p tokens) .start b ∧ b.result? p = some tree :=
  guide.accepts h hp hc htree.readsAs htree.spells rfl hfit

/-- A parse decides whether there is a wanted tree if all runs end, and if they accept with the
wanted trees and no others. -/
theorem Parser.decides {p : Parser τ ν β σ} {wanted : ParseTree τ → Prop} (h : g.Built a)
    (hp : Serves g a p.overTrees) (hc : g.Covers a p.table) (hmaker : p.maker.Total)
    (hways : p.maxChoiceDepth = none ∨ ∀ b,
      Search.Reaches (Branch.next p.overTrees tokens) .start b →
        (b.next p.overTrees tokens).length ≤ 1)
    (hends : Search.Ends (Branch.next p.overTrees tokens) .start)
    (hsound : ∀ b tree, Search.Reaches (Branch.next p.overTrees tokens) .start b →
      b.result? p.overTrees = some tree → wanted tree)
    (hcomplete : ∀ tree, wanted tree → ∃ b,
      Search.Reaches (Branch.next p.overTrees tokens) .start b ∧
        b.result? p.overTrees = some tree) (memory : σ) :
    p.Decides ε tokens memory wanted := by
  obtain ⟨n, result, last, hparse, ⟨node, tree, b, hresult, hmakes, hreach, htree⟩ |
    ⟨hrejected, hnone⟩⟩ := exists_outcome (ε := ε) h hp hc hmaker hways hends memory
  · exact ⟨n, result, last, hparse, .inl ⟨node, tree, hresult, hmakes, hsound b tree hreach htree⟩⟩
  · refine ⟨n, result, last, hparse, .inr ⟨hrejected, fun tree hwanted => ?_⟩⟩
    obtain ⟨b, hreach, htree⟩ := hcomplete tree hwanted
    rw [hnone b hreach] at htree
    cases htree

end OperatorLALR
