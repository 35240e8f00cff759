import OperatorLALR.Proofs.Completeness.Yields
import OperatorLALR.Proofs.Search.Termination
import OperatorLALR.Proofs.Soundness.Priorities

/-!
# Runs on a chosen reading of the input

Once it is fixed how each token is read, the lookahead at every position is known. A branch is
`Ready` if it has not decided on anything else. Where the table offers an action on that lookahead,
alone or among others that it leaves open, some run from a ready branch takes it, and the branch
after a shift or a reduction is ready again (`Branch.Ready.shift`, `Branch.Ready.reduce`).
-/

namespace OperatorLALR

variable {τ β σ : Type} [Token τ] {p : Parser τ (ParseTree τ) β σ} {tokens : List τ}
  {views : List (TokenView τ)} {b : Branch τ} {action : Action}

/-- Each token of the input is read in one of its ways. -/
structure ReadsAs (operators : OperatorTable) (tokens : List τ) (views : List (TokenView τ)) :
    Prop where
  places : views.map TokenView.place = tokens.zipIdx
  reads : ∀ v ∈ views, Reads operators v.token v.reading ∧ v.stamp = 0

omit [Token τ] in
/-- The lookahead at a position of the input. -/
def lookaheadAt (views : List (TokenView τ)) (i : Nat) : Lookahead τ :=
  match views[i]? with
  | some view => .token view
  | none => .inputEnd

omit [Token τ] in
/-- The table offers an action on a lookahead: as the only one, or as one of those that it leaves
open. -/
def Parser.Offers (p : Parser τ (ParseTree τ) β σ) (stack : List (StackEntry τ (ParseTree τ)))
    (lookahead : Lookahead τ) (action : Action) : Prop :=
  p.table.action (p.stateOn stack) lookahead.terminal = action ∨
    ∃ as, p.openActions stack lookahead (p.table.action (p.stateOn stack) lookahead.terminal) =
      some as ∧ action ∈ as

omit [Token τ] in
/-- What is offered is not a refusal. -/
theorem Parser.Offers.ne_error {stack : List (StackEntry τ (ParseTree τ))} {lookahead : Lookahead τ}
    (h : p.Offers stack lookahead action) (haction : action ≠ .error) :
    (p.table.action (p.stateOn stack) lookahead.terminal).isError = false := by
  rcases h with h | ⟨as, hopen, -⟩
  · rw [h]
    cases action with
    | error => exact absurd rfl haction
    | _ => rfl
  · generalize p.table.action (p.stateOn stack) lookahead.terminal = undecided at hopen
    cases undecided with
    | error => cases hopen
    | _ => rfl

namespace ReadsAs

variable {operators : OperatorTable}

/-- The token of a view stands at its position. -/
theorem getElem? (h : ReadsAs operators tokens views) {i : Nat} {view : TokenView τ}
    (hview : views[i]? = some view) :
    tokens[i]? = some view.token ∧ view.position = i := by
  have hplace : tokens.zipIdx[i]? = some view.place := by
    rw [← h.places, List.getElem?_map, hview]
    rfl
  rw [List.getElem?_zipIdx, Nat.zero_add, Option.map_eq_some_iff] at hplace
  obtain ⟨token, htoken, heq⟩ := hplace
  obtain ⟨rfl, rfl⟩ := Prod.mk.inj heq
  exact ⟨htoken, rfl⟩

/-- There are as many views as tokens. -/
theorem length_eq (h : ReadsAs operators tokens views) : views.length = tokens.length := by
  have hlength := congrArg List.length h.places
  rwa [List.length_map, List.length_zipIdx] at hlength

/-- A branch may decide on the lookahead at its position, unless the state on top refuses it. -/
theorem mem_next (h : ReadsAs p.operators tokens views) (hnone : b.lookahead = none)
    (haccepts : (p.table.action (p.stateOn b.stack)
      (lookaheadAt views b.position).terminal).isError = false) :
    { b with lookahead := some (lookaheadAt views b.position) } ∈ b.next p tokens := by
  cases hview : views[b.position]? with
  | none =>
    have hend : tokens[b.position]? = none := by
      rw [List.getElem?_eq_none_iff] at hview ⊢
      rwa [← h.length_eq]
    rw [Branch.next_of_ended hnone hend, lookaheadAt, hview]
    exact List.mem_singleton_self _
  | some view =>
    obtain ⟨htoken, hposition⟩ := h.getElem? hview
    obtain ⟨hreads, hstamp⟩ := h.reads view (List.mem_of_getElem? hview)
    rw [lookaheadAt, hview] at haccepts ⊢
    rw [Branch.next_of_token hnone htoken, List.mem_map]
    refine ⟨view.reading, Branch.mem_alternatives.mpr ⟨hreads, ?_⟩, ?_⟩
    · intro herror
      simp [Lookahead.terminal, herror, Action.isError] at haccepts
    · rw [← hposition, ← hstamp]

end ReadsAs

namespace Branch

omit [Token τ] in
/-- A branch has decided on nothing, or on the lookahead at its position. -/
structure Ready (views : List (TokenView τ)) (b : Branch τ) : Prop where
  forced : b.forced = none
  lookahead : b.lookahead = none ∨ b.lookahead = some (lookaheadAt views b.position)

namespace Ready

variable (hb : b.Ready views) (h : ReadsAs p.operators tokens views)

include hb h

/-- Some run from a ready branch decides on the lookahead at its position. -/
theorem look (haccepts : (p.table.action (p.stateOn b.stack)
      (lookaheadAt views b.position).terminal).isError = false) :
    Search.Reaches (Branch.next p tokens) b
      { b with lookahead := some (lookaheadAt views b.position) } := by
  rcases hb.lookahead with hnone | hsome
  · exact .single (h.mem_next hnone haccepts)
  · have hsame : { b with lookahead := some (lookaheadAt views b.position) } = b := by rw [← hsome]
    rw [hsame]
    exact .refl

/-- Some run from a ready branch is about to take an action that the table offers. -/
theorem take (hoffers : p.Offers b.stack (lookaheadAt views b.position) action)
    (haction : action ≠ .error) :
    ∃ forced, Search.Reaches (Branch.next p tokens) b
        ⟨b.stack, b.position, some (lookaheadAt views b.position), forced⟩ ∧
      (Branch.mk b.stack b.position (some (lookaheadAt views b.position)) forced).action p
        (lookaheadAt views b.position) = action := by
  have hlook := hb.look h (hoffers.ne_error haction)
  rw [hb.forced] at hlook
  rcases hoffers with hsingle | ⟨as, hopen, hmem⟩
  · exact ⟨none, hlook, hsingle⟩
  · refine ⟨some action, hlook.tail ?_, rfl⟩
    rw [Branch.next_of_open rfl hopen]
    exact List.mem_map.mpr ⟨action, hmem, rfl⟩

/-- Some run from a ready branch shifts the token at its position. -/
theorem shift {view : TokenView τ} {next : StateId} (hview : views[b.position]? = some view)
    (hoffers : p.Offers b.stack (.token view) (.shift next)) :
    Search.Reaches (Branch.next p tokens) b
      ⟨⟨next, .token view, 0, 0⟩ :: b.stack, b.position + 1, none, none⟩ := by
  have hat : lookaheadAt views b.position = .token view := by
    rw [lookaheadAt, hview]
  rw [← hat] at hoffers
  obtain ⟨forced, hreach, haction⟩ := hb.take h hoffers nofun
  refine hreach.tail ?_
  rw [hat] at haction ⊢
  rw [Branch.next_of_shift rfl haction]
  exact List.mem_singleton_self _

/-- Some run from a ready branch makes a reduction that the table offers. -/
theorem reduce {r : RuleId} {shape : RuleShape} {entries below : List (StackEntry τ (ParseTree τ))}
    {next : StateId} {priority : Nat} (hstack : b.stack = entries ++ below)
    (hoffers : p.Offers b.stack (lookaheadAt views b.position) (.reduce r))
    (hrule : p.table.rule r = some shape) (hlength : entries.length = shape.length)
    (hpriority : Parser.nodePriority? shape entries.reverse = some priority)
    (hgoto : p.table.goto (p.stateOn below) shape.left = some next) :
    Search.Reaches (Branch.next p tokens) b
      ⟨⟨next, .node (.node r (entries.reverse.map fun e => e.item.tree)), priority, 0⟩ :: below,
        b.position, some (lookaheadAt views b.position), none⟩ := by
  obtain ⟨forced, hreach, haction⟩ := hb.take h hoffers nofun
  refine hreach.tail ?_
  have htake : b.stack.take shape.length = entries := by
    rw [hstack, ← hlength, List.take_left]
  have hdrop : b.stack.drop shape.length = below := by
    rw [hstack, ← hlength, List.drop_left]
  have henough : ¬ b.stack.length < shape.length := by
    rw [hstack, List.length_append]
    omega
  rw [Branch.next_of_reduce rfl haction, Option.mem_toList]
  refine reduce?_eq_some_iff.mpr
    ⟨shape, priority, next, hrule, Nat.le_of_not_lt henough, ?_, ?_, ?_⟩
  · rw [htake]
    exact hpriority
  · rw [hdrop]
    exact hgoto
  · rw [htake, hdrop]

end Ready

end Branch

end OperatorLALR
