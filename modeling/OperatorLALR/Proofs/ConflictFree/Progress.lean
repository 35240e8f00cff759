import OperatorLALR.Proofs.ConflictFree.Determinism
import OperatorLALR.Proofs.Grammar.Prefixes
import OperatorLALR.Proofs.Termination.Stacks

/-!
# Reductions come to an end

A reduction is made on a lookahead that some item calls for (`Grammar.Built.exists_source`). Either
the lookahead begins what that item expects, and the parser goes on to shift it
(`Branch.Steady.lead_run`), or everything that it expects vanishes, and the parser goes on to
complete the item, whose rule has some symbol on the stack already (`Branch.Steady.complete_run`).
The node of that rule takes the place of this symbol, so that the stack becomes lower, or stays as
high with a nonterminal on top that lifts the one before (`weight_lt`). Hence all runs end, whether
the input can be parsed or not (`Branch.Steady.ends`).
-/

namespace OperatorLALR

variable {τ β σ : Type}

/-- The height of a stack, and then the rank of the tree on top. -/
noncomputable def weight (g : Grammar) (stack : List (StackEntry τ (ParseTree τ))) : Nat :=
  stack.length * (g.nonterminals.length + 2) +
    (stack.head?.map fun e => e.item.tree.rank g).getD 0

variable [Token τ] {g : Grammar} {a : Analysis} {p : Parser τ (ParseTree τ) β σ}

/-- The node of a rule in the place of some symbols on a stack, with nothing else in its body,
takes weight from the stack. -/
theorem weight_lt {stack : List (StackEntry τ (ParseTree τ))} {symbols : List Symbol}
    (hpath : Path g a p stack symbols) (hg : g.Built a) (hp : Serves g a p) {r : RuleId} {dot : Nat}
    (hhas : (g.automaton a).Has (p.stateOn stack) ⟨r, dot⟩) (hr : r ≠ acceptRule) (hdot : 0 < dot)
    (hvanishes : g.Vanishes (g.ahead ⟨r, dot⟩)) {e : StackEntry τ (ParseTree τ)}
    {children : List (ParseTree τ)} (he : e.item.tree = .node r children) :
    weight g (e :: stack.drop dot) < weight g stack := by
  obtain ⟨hle, hspells, -⟩ := hpath.handle hg hp.table.initial hhas
  obtain ⟨rule, hrule, -⟩ := hg.exists_rule hhas
  have hrank : e.item.tree.rank g = g.rank (g.left r) := by
    rw [he]
    rfl
  have hbound : g.rank (g.left r) ≤ g.nonterminals.length := g.rank_le _
  cases stack with
  | nil =>
    rw [List.length_nil] at hle
    omega
  | cons top below =>
    rw [weight, weight, List.length_cons, List.length_drop, List.head?_cons, List.head?_cons,
      Option.map_some, Option.map_some, Option.getD_some, Option.getD_some, hrank]
    by_cases hone : dot = 1
    · -- the node takes the place of the tree on top
      subst hone
      have hlt : g.rank (g.left r) < top.item.tree.rank g := by
        cases hbody : g.body r with
        | nil =>
          rw [hbody] at hspells
          cases hspells
        | cons symbol rest =>
          rw [hbody] at hspells
          have hrest : g.ahead ⟨r, 1⟩ = rest := by
            rw [Grammar.ahead, hbody]
            rfl
          obtain _ | ⟨htop, -⟩ := hspells
          exact rank_lt_of_spells hg hbody (hrest ▸ hvanishes) hr hrule htop
      rw [List.length_cons, Nat.add_sub_cancel]
      exact Nat.add_lt_add_left hlt _
    · have hlower : (top :: below).length - dot + 1 + 1 ≤ (top :: below).length := by omega
      have hweight := Nat.mul_le_mul_right (g.nonterminals.length + 2) hlower
      rw [Nat.succ_mul] at hweight
      omega

/-- The reduction of an item, once it has been completed on top of a stack, takes weight from that
stack. -/
theorem weight_lt_of_reduce {stack : List (StackEntry τ (ParseTree τ))} {symbols : List Symbol}
    (hpath : Path g a p stack symbols) (hg : g.Built a) (hp : Serves g a p) {r : RuleId} {dot : Nat}
    (hhas : (g.automaton a).Has (p.stateOn stack) ⟨r, dot⟩) (hr : r ≠ acceptRule) (hdot : 0 < dot)
    (hvanishes : g.Vanishes (g.ahead ⟨r, dot⟩)) {b b' : Branch τ}
    (hreduce : b.reduce? p r = some b') {entries : List (StackEntry τ (ParseTree τ))}
    (hstack : b.stack = entries ++ stack) (hlength : dot + entries.length = (g.body r).length) :
    weight g b'.stack < weight g stack := by
  obtain ⟨shape, priority, next, hshape, -, -, -, rfl⟩ := Branch.reduce?_eq_some_iff.mp hreduce
  obtain ⟨rule, hrule, -, hshapeLength⟩ := hp.table.rule r shape hshape
  have hbody : g.body r = rule.body := Grammar.body_eq hrule
  have hdrop : b.stack.drop shape.length = stack.drop dot := by
    rw [hstack, hshapeLength, ← hbody, ← hlength, Nat.add_comm, ← List.drop_drop, List.drop_left]
  dsimp only
  rw [hdrop]
  exact weight_lt hpath hg hp hhas hr hdot hvanishes rfl

/-- The terminal that comes next in the input, if the tokens are read as their own terminals. -/
def Branch.upcoming (tokens : List τ) (b : Branch τ) : TerminalId :=
  (lookaheadAt (plainViews tokens) b.position).terminal

/-- What comes next depends on the position only. -/
theorem Branch.upcoming_congr {tokens : List τ} {b b' : Branch τ}
    (h : b'.position = b.position) : b'.upcoming tokens = b.upcoming tokens := by
  rw [upcoming, upcoming, h]

/-- The terminal that comes next is a word that does, unless it is the end of the input. -/
theorem Branch.prefix_upcoming {tokens : List τ} {b : Branch τ}
    (h : b.upcoming tokens ≠ endOfInput) :
    [b.upcoming tokens] <+: (tokens.map Token.terminal).drop b.position := by
  cases htoken : tokens[b.position]? with
  | none =>
    rw [upcoming, lookaheadAt_plainViews_of_none htoken] at h
    exact absurd rfl h
  | some token =>
    have hterminal : (tokens.map Token.terminal)[b.position]? = some (Token.terminal token) := by
      rw [List.getElem?_map, htoken]
      rfl
    obtain ⟨hlt, hget⟩ := List.getElem?_eq_some_iff.mp hterminal
    rw [upcoming, lookaheadAt_plainViews_of_some htoken, List.drop_eq_getElem_cons hlt, hget]
    exact ⟨_, rfl⟩

namespace Branch.Steady

variable {tokens : List τ} {b b' : Branch τ} (hg : g.Built a) (hp : Serves g a p)
  (hc : g.Covers a p.table) (hd : g.Dictates a p.table)
  (hnames : ∀ token ∈ tokens, Token.operatorName token = none)

include hg hp hd hnames in
/-- A run from a steady branch comes upon steady branches. -/
theorem of_reaches (h : Steady g a p tokens b)
    (hreach : Search.Reaches (Branch.next p tokens) b b') : Steady g a p tokens b' :=
  hreach.invariant (fun _ h => h.next hd.toHeeds hnames hg hp) h

include hg hp hd hnames in
/-- A steady branch ends if some run from it comes upon a branch that ends. -/
theorem ends_of_reaches (h : Steady g a p tokens b)
    (hreach : Search.Reaches (Branch.next p tokens) b b')
    (hends : Search.Ends (Branch.next p tokens) b') : Search.Ends (Branch.next p tokens) b :=
  hends.of_reaches (P := Steady g a p tokens) (fun _ h => h.next hd.toHeeds hnames hg hp)
    (fun _ h => h.length_next_le hd.toHeeds hnames) hreach h

include hd in
/-- A steady branch that knows its lookahead shifts it or makes a reduction. -/
theorem moves (h : Steady g a p tokens b) {lookahead : Lookahead τ}
    (hl : b.lookahead = some lookahead) (hb' : b' ∈ b.next p tokens) :
    b'.position = b.position + 1 ∨
      ∃ r, p.table.action (p.stateOn b.stack) lookahead.terminal = .reduce r ∧
        b.reduce? p r = some b' := by
  cases step_of_mem_next hb' with
  | ended hnone | read hnone =>
    rw [hl] at hnone
    cases hnone
  | shift => exact .inl rfl
  | reduce hl' haction hreduce =>
    rw [hl] at hl'
    obtain rfl := Option.some.inj hl'
    exact .inr ⟨_, h.action_eq _ ▸ haction, hreduce⟩
  | force _ hopen =>
    rw [h.openActions_eq_none hd.toHeeds] at hopen
    cases hopen

include hg hc hd in
/-- A nonterminal that derives what comes next in the input is pushed where the lookahead behind
that follows it. -/
theorem derive_run (h : Steady g a p tokens b) {n : NonterminalId} {w : List TerminalId}
    (hn : g.Derives [.nonterminal n] (w.map .terminal))
    (hw : w <+: (tokens.map Token.terminal).drop b.position)
    (hfollows : (g.automaton a).Follows g (p.stateOn b.stack) n
      (lookaheadAt (plainViews tokens) (b.position + w.length)).terminal) :
    ∃ e b', Search.Reaches (Branch.next p tokens) b b' ∧ b'.stack = e :: b.stack ∧
      b'.position = b.position + w.length ∧
      (g.automaton a).Goes (p.stateOn b.stack) (.nonterminal n) e.state := by
  obtain ⟨item, hhas, hnext, -⟩ := id hfollows
  obtain ⟨next, hgoes⟩ := hg.exists_goes hhas hnext
  obtain ⟨views, hviews, hsymbols⟩ := exists_views_of_prefix hw
  have hreads := readsAs_plainViews p.operators tokens
  rw [← hsymbols] at hn
  obtain ⟨trees, htrees, hleaves⟩ := exists_spells_of_derives
    (fun v hv => hreads.reads v (List.mem_of_mem_drop (hviews.subset hv))) hn
  obtain ⟨tree, rest, htree, hrest, rfl⟩ := List.forall₂_cons_left_iff.mp htrees
  obtain rfl := List.forall₂_nil_left_iff.mp hrest
  rw [ParseTree.viewsOf, ParseTree.viewsOf, List.append_nil] at hleaves
  have hlength : tree.views.length = w.length := by
    rw [hleaves, ← List.length_map TokenView.symbol, hsymbols, List.length_map]
  have hplain : tree.Plain := fun v hv =>
    operator_of_mem_plainViews (List.mem_of_mem_drop (hviews.subset (hleaves ▸ hv)))
  obtain ⟨symbols, hpath⟩ := h.sound.path
  obtain ⟨e, b', hgrows, rfl⟩ :=
    (hd.guide hg).tree_runs hg hc hreads htree b next symbols _ h.ready hpath (hleaves ▸ hviews)
      rfl hgoes (fun n' hn' => Symbol.nonterminal.inj hn' ▸ hlength ▸ hfollows) hplain
  exact ⟨e, b', hgrows.reach, hgrows.stack, hlength ▸ hgrows.position_eq, hgoes⟩

include hg hp hc hd hnames in
/-- An item that is looked for on the lookahead is completed where all that it expects vanishes. -/
theorem complete_run (h : Steady g a p tokens b) {symbols : List Symbol}
    (hvanishes : g.Vanishes symbols) {r : RuleId} {dot : Nat} (hahead : g.ahead ⟨r, dot⟩ = symbols)
    (hlook : (g.automaton a).Look g (p.stateOn b.stack) ⟨r, dot⟩ (b.upcoming tokens)) :
    ∃ entries b', Search.Reaches (Branch.next p tokens) b b' ∧ b'.stack = entries ++ b.stack ∧
      dot + entries.length = (g.body r).length ∧ b'.position = b.position ∧
      (g.automaton a).Look g (p.stateOn b'.stack) ⟨r, (g.body r).length⟩ (b.upcoming tokens) := by
  obtain ⟨hhas, -⟩ := hg.justified_of_look hlook
  induction symbols generalizing b dot with
  | nil =>
    have hend : dot = (g.body r).length :=
      hg.dot_of_complete hhas (List.getElem?_eq_none_iff.mpr (List.drop_eq_nil_iff.mp hahead))
    exact ⟨[], b, .refl, rfl, hend, rfl, hend ▸ hlook⟩
  | cons symbol symbols ih =>
    obtain ⟨n, rfl, hn, hsymbols⟩ := Grammar.vanishes_cons hvanishes
    obtain ⟨hnext, hrest⟩ := Grammar.next?_eq hahead
    obtain ⟨e, b₁, hreach, hstack, hposition, hgoes⟩ :=
      h.derive_run (w := []) hg hc hd hn List.nil_prefix
        ⟨_, hhas, hnext, .inr ⟨hrest ▸ hsymbols, hlook⟩⟩
    have hstate : p.stateOn b₁.stack = e.state := by
      rw [hstack]
      rfl
    have hlook₁ : (g.automaton a).Look g (p.stateOn b₁.stack) ⟨r, dot + 1⟩
        (b₁.upcoming tokens) := by
      rw [hstate, upcoming_congr hposition]
      exact .shift hlook hnext hgoes
    have hahead₁ : g.ahead ⟨r, dot + 1⟩ = symbols := hrest
    obtain ⟨hhas₁, -⟩ := hg.justified_of_look hlook₁
    obtain ⟨entries, b', hreach', hstack', hlength, hposition', hlook'⟩ :=
      ih (h.of_reaches hg hp hd hnames hreach) hsymbols hahead₁ hlook₁ hhas₁
    refine ⟨entries ++ [e], b', Relation.ReflTransGen.trans hreach hreach', ?_, ?_, ?_, ?_⟩
    · rw [hstack', hstack, List.append_assoc]
      rfl
    · rw [List.length_append, List.length_singleton]
      omega
    · exact hposition'.trans hposition
    · rw [← upcoming_congr hposition]
      exact hlook'

include hg hp hc hd hnames in
/-- What comes next in the input is read where it leads what some item expects. -/
theorem lead_run {w : List TerminalId} {symbols : List Symbol} (hleads : g.Leads w symbols)
    (h : Steady g a p tokens b) {item : Item} (hhas : (g.automaton a).Has (p.stateOn b.stack) item)
    (hahead : g.ahead item = symbols)
    (hw : w <+: (tokens.map Token.terminal).drop b.position) :
    ∃ b', Search.Reaches (Branch.next p tokens) b b' ∧ b.position + w.length ≤ b'.position := by
  induction hleads generalizing b item with
  | nil => exact ⟨b, .refl, Nat.le_refl _⟩
  | @terminal t w rest _ ih =>
    obtain ⟨hnext, hrest⟩ := Grammar.next?_eq hahead
    obtain ⟨next, hgoes⟩ := hg.exists_goes hhas hnext
    obtain ⟨token, htoken, rfl, hlater⟩ := exists_token_of_prefix hw
    have hview : (plainViews tokens)[b.position]? =
        some ⟨token, ⟨Token.terminal token, none⟩, b.position, 0⟩ := by
      rw [getElem?_plainViews, htoken]
      rfl
    have hreach := h.ready.shift (readsAs_plainViews p.operators tokens) hview
      (.inl (hd.acts _ _ (.shift next) hgoes))
    obtain ⟨s, hs, hkernel⟩ := hg.has_advance hhas hnext hgoes
    obtain ⟨b', hreach', hle⟩ := ih (h.of_reaches hg hp hd hnames hreach)
      ⟨s, hs, Grammar.Built.mem_items_of_mem_kernel hkernel⟩ hrest hlater
    refine ⟨b', Relation.ReflTransGen.trans hreach hreach', ?_⟩
    rw [List.length_cons]
    dsimp only at hle
    omega
  | @enter r rule _ hrule _ rest ih =>
    obtain ⟨hnext, -⟩ := Grammar.next?_eq hahead
    have hclosed := hg.has_closure hhas hnext (Grammar.mem_rulesOf.mpr ⟨rule, hrule, rfl⟩)
    exact ih h hclosed (Grammar.body_eq hrule) hw
  | @pass n v w t rest hn hleads ih =>
    obtain ⟨hnext, hrest⟩ := Grammar.next?_eq hahead
    obtain ⟨hv, hw⟩ := prefix_drop_of_append hw
    obtain ⟨token, htoken, rfl, -⟩ := exists_token_of_prefix hw
    have hfollows : (g.automaton a).Follows g (p.stateOn b.stack) n
        (lookaheadAt (plainViews tokens) (b.position + v.length)).terminal := by
      rw [lookaheadAt_plainViews_of_some htoken]
      exact ⟨item, hhas, hnext, .inl (hrest ▸ hleads.begins)⟩
    obtain ⟨e, b₁, hreach, hstack, hposition, hgoes⟩ := h.derive_run hg hc hd hn hv hfollows
    obtain ⟨s, hs, hkernel⟩ := hg.has_advance hhas hnext hgoes
    have hhas₁ : (g.automaton a).Has (p.stateOn b₁.stack) item.advance := by
      rw [hstack]
      exact ⟨s, hs, Grammar.Built.mem_items_of_mem_kernel hkernel⟩
    obtain ⟨b', hreach', hle⟩ := ih (h.of_reaches hg hp hd hnames hreach) hhas₁ hrest
      (hposition ▸ hw)
    refine ⟨b', Relation.ReflTransGen.trans hreach hreach', ?_⟩
    rw [List.length_append]
    omega

include hg hp hc hd hnames in
/-- A reduction on the lookahead comes to an end if all runs do that read further or go on with a
smaller stack. -/
theorem ends_of_reduce (h : Steady g a p tokens b) {r : RuleId}
    (haction : p.table.action (p.stateOn b.stack) (b.upcoming tokens) = .reduce r)
    (hlater : ∀ b', Steady g a p tokens b' → b.position < b'.position →
      Search.Ends (Branch.next p tokens) b')
    (hlower : ∀ b', Steady g a p tokens b' → b'.position = b.position → b'.lookahead ≠ none →
      weight g b'.stack < weight g b.stack → Search.Ends (Branch.next p tokens) b') :
    Search.Ends (Branch.next p tokens) b := by
  have hacts : g.Acts a (p.stateOn b.stack) (b.upcoming tokens) (.reduce r) := by
    have honly := hd.only (p.stateOn b.stack) (b.upcoming tokens)
    rw [haction] at honly
    exact honly.resolve_left nofun
  have hnothing : g.Vanishes (g.ahead ⟨r, (g.body r).length⟩) := by
    rw [Grammar.ahead, List.drop_length]
    exact Grammar.vanishes_nil
  rcases Grammar.Built.exists_source hacts.2 hnothing with
    ⟨item, hhas, hbegins⟩ | ⟨⟨k, dot⟩, hlook, hvanishes, hplace⟩
  · have hdeclared : b.upcoming tokens ≠ endOfInput := fun hend =>
      Grammar.not_begins_ahead hg.wellFormed item (hend ▸ hbegins)
    obtain ⟨b', hreach, hlt⟩ := lead_run hg hp hc hd hnames (Grammar.leads_of_begins hbegins) h
      hhas rfl (prefix_upcoming hdeclared)
    exact h.ends_of_reaches hg hp hd hnames hreach
      (hlater b' (h.of_reaches hg hp hd hnames hreach) hlt)
  · obtain ⟨entries, b₁, hreach, hstack, hlength, hposition, hlook₁⟩ :=
      h.complete_run hg hp hc hd hnames hvanishes rfl hlook
    have h₁ := h.of_reaches hg hp hd hnames hreach
    rw [← upcoming_congr hposition] at hlook₁
    have haction₁ := hd.complete hlook₁
    have hlook₂ := h₁.ready.look (readsAs_plainViews p.operators tokens) (by
      rw [← upcoming]
      rcases haction₁ with ⟨-, haction₁⟩ | ⟨-, haction₁⟩ <;> rw [haction₁] <;> rfl)
    have h₂ := h₁.of_reaches hg hp hd hnames hlook₂
    refine h.ends_of_reaches hg hp hd hnames (Relation.ReflTransGen.trans hreach hlook₂) ?_
    constructor
    intro b' hb'
    have h' := h₂.next hd.toHeeds hnames hg hp b' hb'
    rcases h₂.moves hd rfl hb' with hshift | ⟨r', hr', hreduce⟩
    · exact hlater b' h' (by rw [hshift]; dsimp only; omega)
    · rcases haction₁ with ⟨-, haction₁⟩ | ⟨hk, haction₁⟩
      · cases haction₁.symm.trans hr'
      · obtain rfl := Action.reduce.inj (haction₁.symm.trans hr')
        obtain ⟨symbols, hpath⟩ := h.sound.path
        obtain ⟨hhas, -⟩ := hg.justified_of_look hlook
        have hlt := weight_lt_of_reduce hpath hg hp hhas hk (hplace.resolve_left hk) hvanishes
          hreduce hstack hlength
        obtain ⟨_, _, _, -, -, -, -, heq⟩ := reduce?_eq_some_iff.mp hreduce
        have hposition' : b'.position = b.position := by
          rw [heq]
          exact hposition
        have hknown : b'.lookahead ≠ none := by
          rw [heq]
          exact Option.some_ne_none _
        exact hlower b' h' hposition' hknown hlt

include hg hp hc hd hnames in
/-- A branch that knows its lookahead ends if all do that read further. -/
theorem ends_of_lookahead {i : Nat}
    (hlater : ∀ b, Steady g a p tokens b → i < b.position → Search.Ends (Branch.next p tokens) b)
    (h : Steady g a p tokens b) (hposition : b.position = i) (hl : b.lookahead ≠ none) :
    Search.Ends (Branch.next p tokens) b := by
  induction hweight : weight g b.stack using Nat.strong_induction_on generalizing b with
  | _ w ih =>
    have hlookahead : b.lookahead = some (lookaheadAt (plainViews tokens) b.position) :=
      h.ready.lookahead.resolve_left hl
    by_cases hreduce : ∃ r, p.table.action (p.stateOn b.stack) (b.upcoming tokens) = .reduce r
    · obtain ⟨r, haction⟩ := hreduce
      refine h.ends_of_reduce hg hp hc hd hnames haction (fun b' h' hlt => ?_)
        fun b' h' hposition' hl' hlt => ?_
      · exact hlater b' h' (hposition ▸ hlt)
      · exact ih _ (hweight ▸ hlt) h' (hposition'.trans hposition) hl' rfl
    · constructor
      intro b' hb'
      rcases h.moves hd hlookahead hb' with hshift | ⟨r, haction, -⟩
      · exact hlater b' (h.next hd.toHeeds hnames hg hp b' hb') (by omega)
      · exact absurd ⟨r, haction⟩ hreduce

include hg hp hc hd hnames in
/-- All runs from steady branches end. -/
theorem ends (h : Steady g a p tokens b) : Search.Ends (Branch.next p tokens) b := by
  induction hrest : tokens.length - b.position using Nat.strong_induction_on generalizing b with
  | _ rest ih =>
    have hlater : ∀ b', Steady g a p tokens b' → b.position < b'.position →
        Search.Ends (Branch.next p tokens) b' := by
      intro b' h' hlt
      have hle := h'.sound.position
      exact ih _ (by omega) h' rfl
    by_cases hl : b.lookahead = none
    · constructor
      intro b' hb'
      have h' := h.next hd.toHeeds hnames hg hp b' hb'
      cases step_of_mem_next hb' with
      | ended | read => exact ends_of_lookahead hg hp hc hd hnames hlater h' rfl nofun
      | shift hl' | reduce hl' | force hl' =>
        rw [hl] at hl'
        cases hl'
    · exact ends_of_lookahead hg hp hc hd hnames hlater h rfl hl

end Branch.Steady

end OperatorLALR
