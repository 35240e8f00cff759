import OperatorLALR.Proofs.Completeness.Runs
import OperatorLALR.Proofs.ParseTable.Exact
import OperatorLALR.Proofs.Soundness.Safety

/-!
# What the operators leave open

An action among which a table leaves the decision is offered to a parser unless the operators forbid
it. A shift is not dropped if the operators in the handles accept the one to be shifted on their
right (`Parser.offers_shift`), and a reduction is not dropped if the one to be shifted accepts the
node on its left (`Parser.offers_reduce`).
-/

namespace OperatorLALR

variable {τ β σ : Type}

/-- The rules that the table may reduce by in a state on a terminal have a shape. -/
def ParseTable.Shapes (table : ParseTable) (q : StateId) (t : TerminalId) : Prop :=
  ∀ r, .reduce r ∈ table.ways q t → ∃ shape, table.rule r = some shape

namespace Grammar

variable {g : Grammar} {a : Analysis} {table : ParseTable} {q : StateId} {t : TerminalId}
  {action : Action}

/-- What a table leaves open is permitted. -/
theorem Tabulates.permits (h : g.Tabulates a table) (hmem : action ∈ table.ways q t) :
    g.Permits a q t action := by
  unfold ParseTable.ways at hmem
  rcases h.action q t with hpermits | ⟨d, list, hopen | hopen, hlist, hall⟩
  · generalize table.action q t = single at hmem hpermits
    cases single with
    | dynamic | choice => exact absurd hpermits id
    | _ => exact List.mem_singleton.mp hmem ▸ hpermits
  all_goals
    rw [hopen] at hmem
    dsimp only at hmem
    rw [hlist] at hmem
    exact hall action hmem

/-- The rules that the table of a grammar may reduce by have a shape. -/
theorem Tabulates.shapes (h : g.Tabulates a table) (hg : g.Built a) (hc : g.Covers a table)
    (q : StateId) (t : TerminalId) : table.Shapes q t := by
  intro r hr
  obtain ⟨rule, hrule, -⟩ := hg.exists_rule (h.permits hr).2
  exact ⟨_, hc.rule r rule hrule⟩

end Grammar

namespace Parser

variable {p : Parser τ (ParseTree τ) β σ} {stack : List (StackEntry τ (ParseTree τ))}
  {lookahead : Lookahead τ} {action : Action} {r : RuleId} {shape : RuleShape}

/-- A candidate with an operator is a reduction with the operator in its handle. -/
theorem exists_of_candidate {ε : Type} {c : Candidate} {op : Operator}
    (h : p.candidate (ε := ε) stack action = .ok c) (hop : c.operator = some op) :
    ∃ r shape, action = .reduce r ∧ p.table.rule r = some shape ∧
      operatorInHandle shape stack = some op := by
  cases action with
  | reduce r =>
    rw [candidate] at h
    split at h
    · cases h
    · next shape hshape =>
      obtain rfl := Except.ok.inj h
      exact ⟨r, shape, rfl, hshape, hop⟩
  | _ =>
    obtain rfl := Except.ok.inj h
    cases hop

/-- The operator in a handle that is priced as the children of a node is the one that governs the
node. -/
theorem operatorInHandle_eq {entries below : List (StackEntry τ (ParseTree τ))}
    {children : List (ParseTree τ)}
    (hprices : List.Forall₂ (StackEntry.Prices p.table) entries.reverse children)
    (hrule : p.table.rule r = some shape) (hlength : entries.length = shape.length) :
    operatorInHandle shape (entries ++ below) =
      (p.table.governor? r children).map Prod.snd := by
  rw [operatorInHandle, ParseTable.governor?, hrule, Option.bind_some]
  cases shape.operator with
  | none => rfl
  | some place =>
    have henough : ¬ (entries ++ below).length < shape.length := by
      rw [List.length_append]
      omega
    dsimp only
    rw [if_neg henough, ← hlength, List.take_left, operatorAt_priced hprices, Option.bind_some,
      Option.map_map]
    exact Option.map_id'.symm

section Ways

variable (hmem : action ∈ p.table.ways (p.stateOn stack) lookahead.terminal)
  (hshapes : p.table.Shapes (p.stateOn stack) lookahead.terminal)

include hmem hshapes

/-- An action is offered if the ranking keeps it. -/
theorem offers_of_kept (hkept : ∀ candidates,
      List.Forall₂ (fun a c => p.candidate (ε := Empty) stack a = .ok c)
        (p.table.ways (p.stateOn stack) lookahead.terminal) candidates →
      action ∈ Candidate.rank lookahead.operator? candidates) :
    p.Offers stack lookahead action := by
  have hcandidate : ∀ a ∈ p.table.ways (p.stateOn stack) lookahead.terminal,
      ∃ c, p.candidate (ε := Empty) stack a = .ok c := by
    intro a ha
    cases a with
    | reduce r =>
      obtain ⟨shape, hshape⟩ := hshapes r ha
      rw [candidate, hshape]
      exact ⟨_, rfl⟩
    | _ => exact ⟨_, rfl⟩
  obtain ⟨candidates, hcandidates⟩ := exists_forall₂_of_forall hcandidate
  have hrank := hkept candidates hcandidates
  unfold Offers
  unfold ParseTable.ways at hmem hcandidates
  cases haction : p.table.action (p.stateOn stack) lookahead.terminal with
  | dynamic d =>
    rw [haction] at hmem hcandidates
    dsimp only at hmem hcandidates
    cases hlist : p.table.candidates d with
    | none =>
      rw [hlist] at hmem
      cases hmem
    | some list =>
      rw [hlist, Option.getD_some] at hcandidates
      refine .inr ⟨_, ?_, hrank⟩
      rw [openActions_dynamic (ε := Empty), rank_eq_ok_iff]
      exact ⟨list, candidates, hlist, hcandidates, rfl⟩
  | choice d =>
    rw [haction] at hmem
    dsimp only at hmem
    cases hlist : p.table.candidates d with
    | none =>
      rw [hlist] at hmem
      cases hmem
    | some list =>
      rw [hlist, Option.getD_some] at hmem
      exact .inr ⟨list, hlist, hmem⟩
  | _ =>
    rw [haction] at hmem
    exact .inl (List.mem_singleton.mp hmem).symm

/-- In front of what is not read as an operator all actions are offered. -/
theorem offers_of_plain (hplain : lookahead.operator? = none) :
    p.Offers stack lookahead action := by
  refine offers_of_kept hmem hshapes fun candidates hcandidates => ?_
  obtain ⟨i, hi⟩ := List.mem_iff_getElem?.mp hmem
  obtain ⟨c, hc, hcandidate⟩ := exists_getElem?_right hcandidates hi
  rw [hplain, Candidate.rank, List.mem_map]
  exact ⟨c, List.mem_of_getElem? hc, action_of_candidate hcandidate⟩

end Ways

/-- A shift is offered if the operators in all handles accept the one to be shifted on their
right. -/
theorem offers_shift {next : StateId}
    (hmem : .shift next ∈ p.table.ways (p.stateOn stack) lookahead.terminal)
    (hshapes : p.table.Shapes (p.stateOn stack) lookahead.terminal)
    (haccepts : ∀ incoming, lookahead.operator? = some incoming → ∀ r shape op,
      .reduce r ∈ p.table.ways (p.stateOn stack) lookahead.terminal →
      p.table.rule r = some shape → operatorInHandle shape stack = some op →
      withinBound incoming.priority op.rightLimit = true) :
    p.Offers stack lookahead (.shift next) := by
  refine offers_of_kept hmem hshapes fun candidates hcandidates => ?_
  obtain ⟨i, hi⟩ := List.mem_iff_getElem?.mp hmem
  obtain ⟨c, hc, hcandidate⟩ := exists_getElem?_right hcandidates hi
  have hshift : c = ⟨.shift next, none⟩ := (Except.ok.inj hcandidate).symm
  have hmem' : c ∈ candidates := List.mem_of_getElem? hc
  cases hincoming : lookahead.operator? with
  | none =>
    rw [Candidate.rank, List.mem_map]
    exact ⟨c, hmem', by rw [hshift]⟩
  | some incoming =>
    refine mem_rank_some_iff.mpr ⟨c, hmem', ?_⟩
    rw [hshift, Candidate.standing]
    dsimp only
    split
    · next hany =>
      -- some handle has an operator, and it accepts the one to be shifted
      have hallowed : Candidate.shiftAllowed incoming candidates = true := by
        obtain ⟨other, hother, hsome⟩ := List.any_eq_true.mp hany
        obtain ⟨op, hop⟩ := Option.isSome_iff_exists.mp hsome
        obtain ⟨j, hj⟩ := List.mem_iff_getElem?.mp hother
        obtain ⟨a, ha, hreduce⟩ := exists_getElem?_left hcandidates hj
        obtain ⟨r, shape, rfl, hrule, hhandle⟩ := exists_of_candidate hreduce hop
        have hwithin := haccepts incoming hincoming r shape op (List.mem_of_getElem? ha) hrule
          hhandle
        refine List.any_eq_true.mpr ⟨other, hother, ?_⟩
        rw [hop]
        exact hwithin
      rw [if_pos hallowed]
      rfl
    · rfl

/-- A reduction is offered if the lookahead accepts the node on its left. -/
theorem offers_reduce {entries below : List (StackEntry τ (ParseTree τ))}
    {children : List (ParseTree τ)}
    (hmem : .reduce r ∈ p.table.ways (p.stateOn (entries ++ below)) lookahead.terminal)
    (hshapes : p.table.Shapes (p.stateOn (entries ++ below)) lookahead.terminal)
    (hprices : List.Forall₂ (StackEntry.Prices p.table) entries.reverse children)
    (hrule : p.table.rule r = some shape) (hlength : entries.length = shape.length)
    (haccepts : ∀ incoming, lookahead.operator? = some incoming →
      (ParseTree.node r children).Fits p.table incoming.leftLimit) :
    p.Offers (entries ++ below) lookahead (.reduce r) := by
  refine offers_of_kept hmem hshapes fun candidates hcandidates => ?_
  obtain ⟨i, hi⟩ := List.mem_iff_getElem?.mp hmem
  obtain ⟨c, hc, hcandidate⟩ := exists_getElem?_right hcandidates hi
  have hreduce : c = ⟨.reduce r, (p.table.governor? r children).map Prod.snd⟩ := by
    rw [candidate, hrule] at hcandidate
    rw [← operatorInHandle_eq hprices hrule hlength]
    exact (Except.ok.inj hcandidate).symm
  have hmem' : c ∈ candidates := List.mem_of_getElem? hc
  cases hincoming : lookahead.operator? with
  | none =>
    rw [Candidate.rank, List.mem_map]
    exact ⟨c, hmem', by rw [hreduce]⟩
  | some incoming =>
    refine mem_rank_some_iff.mpr ⟨c, hmem', ?_⟩
    rw [hreduce]
    cases hgovernor : p.table.governor? r children with
    | none => rfl
    | some governor =>
      have hfits := haccepts incoming hincoming
      rw [ParseTree.Fits, ParseTree.priority, hgovernor] at hfits
      have hwithin : withinBound governor.2.priority incoming.leftLimit = true :=
        withinBound_iff.mpr hfits
      rw [Option.map_some, Candidate.standing]
      dsimp only
      rw [if_pos hwithin]
      rfl

end Parser

end OperatorLALR
