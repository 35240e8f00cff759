import OperatorLALR.ParseTable.Explicit
import OperatorLALR.Proofs.Parser.Moves
import OperatorLALR.Proofs.Sorting

/-!
# What the ranking keeps

Candidates contend with the operator of the lookahead and with the operators in the handles of one
another (`Contest`). The ranking drops exactly the candidates that these operators forbid
(`Contest.mem_rank_iff`) and puts the others into the one order that their levels and the list of
candidates call for (`Contest.pairwise_rank`). So it never loses a candidate that the operators
allow, and where one shift contends with one reduction, the tighter operator decides
(`Parser.rank_keeps_allowed`).
-/

namespace OperatorLALR

open Std

/-- A priority exceeds a bound. A bound that is missing is exceeded by nothing. -/
def Exceeds (priority : Nat) (bound : Option Nat) : Prop := ∃ limit ∈ bound, limit < priority

/-- A priority is within a bound unless it exceeds it. -/
theorem withinBound_iff_not_exceeds {priority : Nat} {bound : Option Nat} :
    withinBound priority bound = true ↔ ¬ Exceeds priority bound := by
  simp only [withinBound_iff, Exceeds, not_exists, not_and, Nat.not_lt]

/-- A tighter operator does not exceed what another accepts as an argument. -/
theorem not_exceeds_of_lt {argument : Option Bound} {priority own : Nat} (h : priority < own) :
    ¬ Exceeds priority (argument.map fun bound => bound.maxPriority own) := by
  rintro ⟨limit, hlimit, hlt⟩
  obtain ⟨bound, -, rfl⟩ := Option.map_eq_some_iff.mp hlimit
  cases bound <;> simp only [Bound.maxPriority] at hlt <;> omega

/-- A looser operator exceeds what another accepts as an argument, if it takes one there. -/
theorem exceeds_of_lt {argument : Option Bound} {priority own : Nat}
    (harg : argument.isSome = true) (h : own < priority) :
    Exceeds priority (argument.map fun bound => bound.maxPriority own) := by
  obtain ⟨bound, hbound⟩ := Option.isSome_iff_exists.mp harg
  refine ⟨bound.maxPriority own, Option.map_eq_some_iff.mpr ⟨bound, hbound, rfl⟩, ?_⟩
  cases bound <;> simp only [Bound.maxPriority] <;> omega

/-- Where two candidates are level, a reduction comes before a shift. -/
def Action.tieRank : Action → Nat
  | .reduce _ => 0
  | _ => 1

/-- What candidates contend with: the operator of the lookahead and those in the handles. -/
structure Contest where
  /-- The operator of the lookahead. -/
  incoming : Option Operator
  /-- The operator in the handle of a candidate. -/
  operator : Action → Option Operator
  /-- The candidates in the order of the table. -/
  actions : List Action

namespace RankedAction

instance : TransCmp compare :=
  inferInstanceAs (TransCmp (compareLex (compareOn priority) (compareOn order)))

end RankedAction

namespace Contest

variable (c : Contest)

/-- Whether there is an operator in the handle of some candidate. -/
def hasOperator : Bool := c.actions.any fun a => (c.operator a).isSome

/-- The operators forbid a reduction if the operator in its handle exceeds what the one of the
lookahead accepts on its left. They forbid a shift if there are operators in handles, and the one of
the lookahead exceeds what each of them accepts on its right. -/
def Forbids : Action → Prop
  | .reduce r => ∃ incoming op, c.incoming = some incoming ∧ c.operator (.reduce r) = some op ∧
    Exceeds op.priority incoming.leftLimit
  | .shift _ => ∃ incoming, c.incoming = some incoming ∧ c.hasOperator = true ∧
    ∀ a ∈ c.actions, ∀ op, c.operator a = some op → Exceeds incoming.priority op.rightLimit
  | _ => False

/-- The priority by which a candidate is compared with others: that of the operator in the handle of
a reduction, and that of the operator to be shifted where it contends with some in a handle. -/
def level? : Action → Option Nat
  | .reduce r => c.incoming.bind fun _ => (c.operator (.reduce r)).map Operator.priority
  | .shift _ => if c.hasOperator then c.incoming.map Operator.priority else none
  | _ => none

/-- One candidate comes before another in the list of the table. -/
def ListedBefore (a b : Action) : Prop := c.actions.idxOf a < c.actions.idxOf b

/-- Which of two candidates is tried first. Those that are compared come before the others, in
ascending order of their levels, reductions before shifts; the list of the table decides the
rest. -/
def Precedes (a b : Action) : Prop :=
  match c.level? a, c.level? b with
  | some m, some n => m < n ∨ m = n ∧
    (a.tieRank < b.tieRank ∨ a.tieRank = b.tieRank ∧ c.ListedBefore a b)
  | some _, none => True
  | none, some _ => False
  | none, none => c.ListedBefore a b

/-- The candidates with the operators in their handles. -/
def candidates : List Candidate := c.actions.map fun a => ⟨a, c.operator a⟩

/-- The candidates in the order in which they are to be tried. -/
def rank : List Action := Candidate.rank c.incoming c.candidates

variable {c} {a b : Action} {incoming : Operator}

/-- No candidate precedes itself. -/
theorem Precedes.ne (h : c.Precedes a b) : a ≠ b := by
  rintro rfl
  unfold Precedes ListedBefore at h
  cases hlevel : c.level? a with
  | none => simp [hlevel] at h
  | some level => simp [hlevel] at h

theorem hasOperator_iff : c.hasOperator = true ↔ ∃ a ∈ c.actions, ∃ op, c.operator a = some op := by
  simp only [hasOperator, List.any_eq_true, Option.isSome_iff_exists]

theorem any_candidates : (c.candidates.any fun other => other.operator.isSome) = c.hasOperator :=
  List.any_map

/-- A shift is allowed if it does not exceed what some operator in a handle accepts. -/
theorem shiftAllowed_iff : Candidate.shiftAllowed incoming c.candidates = true ↔
    ∃ a ∈ c.actions, ∃ op, c.operator a = some op ∧
      ¬ Exceeds incoming.priority op.rightLimit := by
  simp only [Candidate.shiftAllowed, candidates, List.any_map, List.any_eq_true,
    Function.comp_apply, Option.any_eq_true, withinBound_iff_not_exceeds]

/-- Where operators stand in handles, they forbid a shift unless one of them allows it. -/
theorem forbids_shift_iff {next : StateId} (hincoming : c.incoming = some incoming)
    (hoperator : c.hasOperator = true) :
    c.Forbids (.shift next) ↔ ¬ Candidate.shiftAllowed incoming c.candidates = true := by
  rw [shiftAllowed_iff]
  simp only [Forbids, hincoming, Option.some.injEq, hoperator, true_and, exists_eq_left',
    not_exists, not_and, not_not]

/-- Where there are operators in the handle and to be shifted, they forbid a reduction if the
priorities do not fit. -/
theorem forbids_reduce_iff {r : RuleId} {op : Operator} (hincoming : c.incoming = some incoming)
    (hoperator : c.operator (.reduce r) = some op) :
    c.Forbids (.reduce r) ↔ ¬ withinBound op.priority incoming.leftLimit = true := by
  rw [withinBound_iff_not_exceeds, not_not]
  simp only [Forbids, hincoming, hoperator, Option.some.injEq, exists_and_left, exists_eq_left']

/-- Without an operator to be shifted no candidates are compared. -/
theorem level?_eq_none (h : c.incoming = none) : c.level? a = none := by
  cases a <;> simp [level?, h]

/-- Only candidates that are compared are forbidden. -/
theorem Forbids.level?_ne_none (h : c.Forbids a) : c.level? a ≠ none := by
  cases a with
  | reduce r =>
    obtain ⟨incoming, op, hincoming, hop, -⟩ := h
    simp [level?, hincoming, hop]
  | shift next =>
    obtain ⟨incoming, hincoming, hoperator, -⟩ := h
    simp [level?, hincoming, hoperator]
  | _ => exact absurd h id

section Standing

variable (hincoming : c.incoming = some incoming)

include hincoming

/-- A candidate is ranked if it is compared and not forbidden. -/
theorem ranked?_standing {x : RankedAction} :
    (Candidate.standing incoming c.candidates ⟨a, c.operator a⟩).ranked? = some x ↔
      c.level? a = some x.priority ∧ ¬ c.Forbids a ∧ x.order = a.tieRank ∧ x.action = a := by
  obtain ⟨priority, order, action⟩ := x
  cases a with
  | reduce r =>
    cases hop : c.operator (.reduce r) with
    | none => simp [Candidate.standing, Standing.ranked?, level?, hop]
    | some op =>
      rw [forbids_reduce_iff hincoming hop]
      simp only [Candidate.standing, level?, hincoming, hop, Option.bind_some, Option.map_some,
        Option.some.injEq, Action.tieRank, not_not]
      split
      · next hwithin =>
        simp only [Standing.ranked?, Option.some.injEq, RankedAction.mk.injEq, hwithin, true_and]
        exact and_congr_right fun _ => and_congr eq_comm eq_comm
      · next hwithin => simp [Standing.ranked?, hwithin]
  | shift next =>
    simp only [Candidate.standing, any_candidates, level?, Action.tieRank]
    cases hoperator : c.hasOperator with
    | false => simp [Standing.ranked?]
    | true =>
      rw [forbids_shift_iff hincoming hoperator]
      simp only [if_true, hincoming, Option.map_some, Option.some.injEq, not_not]
      split
      · next hallowed =>
        simp only [Standing.ranked?, Option.some.injEq, RankedAction.mk.injEq, hallowed, true_and]
        exact and_congr_right fun _ => and_congr eq_comm eq_comm
      · next hallowed => simp [Standing.ranked?, hallowed]
  | _ => simp [Candidate.standing, Standing.ranked?, level?]

/-- A candidate is left unranked if it is not compared. -/
theorem unranked?_standing :
    (Candidate.standing incoming c.candidates ⟨a, c.operator a⟩).unranked? = some b ↔
      c.level? a = none ∧ b = a := by
  cases a with
  | reduce r =>
    cases hop : c.operator (.reduce r) with
    | none => simp [Candidate.standing, Standing.unranked?, level?, hop, hincoming, eq_comm]
    | some op =>
      simp only [Candidate.standing, level?, hincoming, hop]
      split <;> simp [Standing.unranked?]
  | shift next =>
    simp only [Candidate.standing, any_candidates, level?]
    cases hoperator : c.hasOperator with
    | false => simp [Standing.unranked?, eq_comm]
    | true =>
      simp only [if_true, hincoming]
      split <;> simp [Standing.unranked?]
  | _ => simp [Candidate.standing, Standing.unranked?, level?, eq_comm]

end Standing

/-- Without an operator to be shifted the candidates stay as they are listed. -/
theorem rank_eq_actions (h : c.incoming = none) : c.rank = c.actions := by
  simp [rank, h, Candidate.rank, candidates, Function.comp_def]

/-- The compared candidates that are kept are sorted; the others follow as they are listed. -/
theorem rank_eq_append (hincoming : c.incoming = some incoming) :
    c.rank =
      (sortBy RankedAction.compare (c.actions.filterMap fun a =>
        (Candidate.standing incoming c.candidates ⟨a, c.operator a⟩).ranked?)).map
          RankedAction.action ++
      c.actions.filterMap fun a =>
        (Candidate.standing incoming c.candidates ⟨a, c.operator a⟩).unranked? := by
  have hstandings : c.candidates.map (Candidate.standing incoming c.candidates) =
      c.actions.map fun a => Candidate.standing incoming c.candidates ⟨a, c.operator a⟩ :=
    List.map_map
  rw [rank, hincoming, Candidate.rank, hstandings]
  simp only [List.filterMap_map, Function.comp_def]

/-- The ranking keeps the candidates that are not forbidden. -/
theorem mem_rank_iff : a ∈ c.rank ↔ a ∈ c.actions ∧ ¬ c.Forbids a := by
  cases hincoming : c.incoming with
  | none =>
    have hallowed : ¬ c.Forbids a := fun h => h.level?_ne_none (level?_eq_none hincoming)
    rw [rank_eq_actions hincoming, and_iff_left hallowed]
  | some incoming =>
    rw [rank_eq_append hincoming, List.mem_append, List.mem_map, List.mem_filterMap]
    simp only [mem_sortBy, List.mem_filterMap]
    constructor
    · rintro (⟨x, ⟨b, hb, hx⟩, rfl⟩ | ⟨b, hb, hx⟩)
      · obtain ⟨-, hallowed, -, rfl⟩ := (ranked?_standing hincoming).mp hx
        exact ⟨hb, hallowed⟩
      · obtain ⟨hlevel, rfl⟩ := (unranked?_standing hincoming).mp hx
        exact ⟨hb, fun h => h.level?_ne_none hlevel⟩
    · rintro ⟨ha, hallowed⟩
      cases hlevel : c.level? a with
      | none => exact .inr ⟨a, ha, (unranked?_standing hincoming).mpr ⟨hlevel, rfl⟩⟩
      | some level =>
        exact .inl ⟨⟨level, a.tieRank, a⟩,
          ⟨a, ha, (ranked?_standing hincoming).mpr ⟨hlevel, hallowed, rfl, rfl⟩⟩, rfl⟩

/-- Candidates without repetitions stand in the order of their list. -/
theorem pairwise_listedBefore (h : c.actions.Nodup) : c.actions.Pairwise c.ListedBefore := by
  rw [List.pairwise_iff_getElem]
  intro i j hi hj hij
  rw [ListedBefore, h.idxOf_getElem i hi, h.idxOf_getElem j hj]
  exact hij

/-- Of two candidates that are not compared the one listed first comes first. -/
theorem precedes_of_level?_eq_none (ha : c.level? a = none) (hb : c.level? b = none)
    (h : c.ListedBefore a b) : c.Precedes a b := by
  simpa only [Precedes, ha, hb] using h

/-- Of two compared candidates the one with the smaller key comes first, and of two with one key
the one listed first. -/
theorem precedes_of_stablyBefore {x y : RankedAction} (ha : c.level? x.action = some x.priority)
    (hb : c.level? y.action = some y.priority) (hx : x.order = x.action.tieRank)
    (hy : y.order = y.action.tieRank)
    (h : StablyBefore RankedAction.compare (fun x y => c.ListedBefore x.action y.action) x y) :
    c.Precedes x.action y.action := by
  simp only [StablyBefore, RankedAction.compare, Ordering.then_eq_lt, Ordering.then_eq_eq,
    Nat.compare_eq_lt, Nat.compare_eq_eq, hx, hy] at h
  simp only [Precedes, ha, hb]
  rcases h with (hlt | ⟨heq, hlt⟩) | ⟨⟨heq, htie⟩, hlisted⟩
  · exact .inl hlt
  · exact .inr ⟨heq, .inl hlt⟩
  · exact .inr ⟨heq, .inr ⟨htie, hlisted⟩⟩

/-- The ranking puts the candidates into the order in which they are to be tried. -/
theorem pairwise_rank (hnodup : c.actions.Nodup) : c.rank.Pairwise c.Precedes := by
  have hlisted := pairwise_listedBefore hnodup
  cases hincoming : c.incoming with
  | none =>
    rw [rank_eq_actions hincoming]
    exact hlisted.imp fun h =>
      precedes_of_level?_eq_none (level?_eq_none hincoming) (level?_eq_none hincoming) h
  | some incoming =>
    rw [rank_eq_append hincoming, List.pairwise_append]
    refine ⟨List.pairwise_map.mpr ?_, ?_, ?_⟩
    · -- what is sorted was listed in the order of the table before
      have hbefore := hlisted.filterMap
        (fun a => (Candidate.standing incoming c.candidates ⟨a, c.operator a⟩).ranked?)
        (S := fun x y => c.ListedBefore x.action y.action) fun a b h x hx y hy => by
          obtain ⟨-, -, -, rfl⟩ := (ranked?_standing hincoming).mp hx
          obtain ⟨-, -, -, rfl⟩ := (ranked?_standing hincoming).mp hy
          exact h
      refine (pairwise_sortBy hbefore).imp_of_mem fun {x y} hx hy h => ?_
      obtain ⟨a, -, hx⟩ := List.mem_filterMap.mp (mem_sortBy.mp hx)
      obtain ⟨b, -, hy⟩ := List.mem_filterMap.mp (mem_sortBy.mp hy)
      obtain ⟨hxlevel, -, hxorder, rfl⟩ := (ranked?_standing hincoming).mp hx
      obtain ⟨hylevel, -, hyorder, rfl⟩ := (ranked?_standing hincoming).mp hy
      exact precedes_of_stablyBefore hxlevel hylevel hxorder hyorder h
    · refine hlisted.filterMap _ fun a b h x hx y hy => ?_
      obtain ⟨hxlevel, rfl⟩ := (unranked?_standing hincoming).mp hx
      obtain ⟨hylevel, rfl⟩ := (unranked?_standing hincoming).mp hy
      exact precedes_of_level?_eq_none hxlevel hylevel h
    · intro x hx y hy
      obtain ⟨z, hz, rfl⟩ := List.mem_map.mp hx
      obtain ⟨a, -, hx⟩ := List.mem_filterMap.mp (mem_sortBy.mp hz)
      obtain ⟨b, -, hy⟩ := List.mem_filterMap.mp hy
      obtain ⟨hxlevel, -, -, rfl⟩ := (ranked?_standing hincoming).mp hx
      obtain ⟨hylevel, rfl⟩ := (unranked?_standing hincoming).mp hy
      simp only [Precedes, hxlevel, hylevel]

/-- The ranking repeats no candidate. -/
theorem nodup_rank (hnodup : c.actions.Nodup) : c.rank.Nodup :=
  (pairwise_rank hnodup).imp Precedes.ne

/-- Of two candidates the one that is not forbidden is kept if the other is. -/
theorem rank_eq_singleton (hactions : c.actions.Perm [a, b]) (hne : a ≠ b)
    (hdropped : c.Forbids a) (hkept : ¬ c.Forbids b) : c.rank = [b] := by
  have hnodup : c.rank.Nodup := nodup_rank (hactions.nodup_iff.mpr (by simpa using hne))
  have hone : [b].Nodup := List.pairwise_singleton _ b
  refine List.perm_singleton.mp ((List.perm_ext_iff_of_nodup hnodup hone).mpr fun other => ?_)
  rw [mem_rank_iff, hactions.mem_iff, List.mem_pair, List.mem_singleton]
  constructor
  · rintro ⟨rfl | rfl, hallowed⟩
    · exact absurd hdropped hallowed
    · rfl
  · rintro rfl
    exact ⟨.inr rfl, hkept⟩

section Pair

variable {next : StateId} {r : RuleId} {op : Operator}
  (hactions : c.actions.Perm [.shift next, .reduce r]) (hincoming : c.incoming = some incoming)
  (hreduce : c.operator (.reduce r) = some op) (hshift : c.operator (.shift next) = none)

include hactions hincoming hreduce hshift

/-- A shift that contends with one reduction is forbidden by the operator in its handle. -/
theorem forbids_shift_pair_iff :
    c.Forbids (.shift next) ↔ Exceeds incoming.priority op.rightLimit := by
  have hmem {a : Action} : a ∈ c.actions ↔ a = .shift next ∨ a = .reduce r := by
    rw [hactions.mem_iff, List.mem_pair]
  have hoperator : c.hasOperator = true :=
    hasOperator_iff.mpr ⟨.reduce r, hmem.mpr (.inr rfl), op, hreduce⟩
  rw [forbids_shift_iff hincoming hoperator, shiftAllowed_iff]
  simp only [hmem, exists_eq_or_imp, hshift, hreduce, reduceCtorEq, false_and, exists_false,
    exists_eq_left, Option.some.injEq, exists_eq_left', false_or, not_not]

/-- Where one shift contends with one reduction, both are compared, and the priorities differ, only
the one with the tighter operator is kept. -/
theorem rank_pair (hleft : incoming.specifier.leftArgument.isSome = true)
    (hright : op.specifier.rightArgument.isSome = true) (hne : op.priority ≠ incoming.priority) :
    c.rank = [if op.priority < incoming.priority then .reduce r else .shift next] := by
  have hforbidsShift := forbids_shift_pair_iff hactions hincoming hreduce hshift
  have hforbidsReduce := forbids_reduce_iff hincoming hreduce
  rw [withinBound_iff_not_exceeds, not_not] at hforbidsReduce
  split
  · next hlt =>
    exact rank_eq_singleton hactions nofun (hforbidsShift.mpr (exceeds_of_lt hright hlt))
      fun h => not_exceeds_of_lt hlt (hforbidsReduce.mp h)
  · next hge =>
    have hlt : incoming.priority < op.priority := by omega
    exact rank_eq_singleton (hactions.trans (.swap _ _ _)) nofun
      (hforbidsReduce.mpr (exceeds_of_lt hleft hlt))
      fun h => not_exceeds_of_lt hlt (hforbidsShift.mp h)

end Pair

end Contest

namespace Parser

variable {τ ν β ε σ : Type} (p : Parser τ ν β σ) (stack : List (StackEntry τ ν))

/-- The operator in the handle of a candidate, if its rule is known. -/
def handleOperator? : Action → Option Operator
  | .reduce r => (p.table.rule r).bind (operatorInHandle · stack)
  | _ => none

/-- The contest of the candidates of a list on a stack. -/
def contest (lookahead : Lookahead τ) (actions : List Action) : Contest :=
  ⟨lookahead.operator?, p.handleOperator? stack, actions⟩

/-- An operator stands in the handle of a candidate: it reduces by a rule with a place for an
operator, the handle is on top of the stack, and the token at that place is read as the operator. -/
def HoldsOperator (a : Action) (op : Operator) : Prop :=
  ∃ (r : RuleId) (shape : RuleShape) (place : Nat) (handle below : List (StackEntry τ ν))
    (entry : StackEntry τ ν), a = .reduce r ∧ p.table.rule r = some shape ∧
    shape.operator = some place ∧ stack = handle.reverse ++ below ∧
    handle.length = shape.length ∧ handle[place]? = some entry ∧ entry.item.operator? = some op

variable {p stack}

/-- Where the operator of a handle is to be found. -/
theorem operatorInHandle_eq_some_iff {shape : RuleShape} {op : Operator} :
    operatorInHandle shape stack = some op ↔
      ∃ (place : Nat) (handle below : List (StackEntry τ ν)) (entry : StackEntry τ ν),
        shape.operator = some place ∧ stack = handle.reverse ++ below ∧
        handle.length = shape.length ∧ handle[place]? = some entry ∧
        entry.item.operator? = some op := by
  unfold operatorInHandle
  split
  · next hplace => simp [hplace]
  · next place hplace =>
    split
    · next hlength =>
      refine ⟨fun h => absurd h (by simp), ?_⟩
      rintro ⟨-, handle, below, -, -, rfl, hhandle, -, -⟩
      simp only [List.length_append, List.length_reverse] at hlength
      omega
    · next hlength =>
      rw [Option.bind_eq_some_iff]
      constructor
      · rintro ⟨entry, hentry, hop⟩
        refine ⟨place, (stack.take shape.length).reverse, stack.drop shape.length, entry, hplace,
          ?_, ?_, hentry, hop⟩
        · rw [List.reverse_reverse, List.take_append_drop]
        · rw [List.length_reverse, List.length_take]
          omega
      · rintro ⟨place', handle, below, entry, hplace', rfl, hhandle, hentry, hop⟩
        obtain rfl := Option.some.inj (hplace.symm.trans hplace')
        refine ⟨entry, ?_, hop⟩
        rw [← hhandle, ← List.length_reverse, List.take_left, List.reverse_reverse]
        exact hentry

/-- The contest finds the operators that stand in handles. -/
theorem handleOperator?_eq_some_iff {a : Action} {op : Operator} :
    p.handleOperator? stack a = some op ↔ p.HoldsOperator stack a op := by
  unfold HoldsOperator
  cases a with
  | reduce r =>
    simp only [handleOperator?, Option.bind_eq_some_iff, operatorInHandle_eq_some_iff]
    constructor
    · rintro ⟨shape, hshape, place, handle, below, entry, hrest⟩
      exact ⟨r, shape, place, handle, below, entry, rfl, hshape, hrest⟩
    · rintro ⟨r, shape, place, handle, below, entry, ⟨⟩, hshape, hrest⟩
      exact ⟨shape, hshape, place, handle, below, entry, hrest⟩
  | _ => simp [handleOperator?]

/-- If the rule of a candidate is known, its handle is looked up. -/
theorem candidate_eq_ok {a : Action} (h : ∀ r, a = .reduce r → (p.table.rule r).isSome = true) :
    p.candidate (ε := ε) stack a = .ok ⟨a, p.handleOperator? stack a⟩ := by
  cases a with
  | reduce r =>
    obtain ⟨shape, hshape⟩ := Option.isSome_iff_exists.mp (h r rfl)
    simp only [candidate, handleOperator?, hshape, Option.bind_some]
  | _ => rfl

/-- The ranking of a parser is that of the contest. -/
theorem rank_eq_ok {lookahead : Lookahead τ} {d : CandidatesId} {actions : List Action}
    (hd : p.table.candidates d = some actions)
    (hrules : ∀ r, .reduce r ∈ actions → (p.table.rule r).isSome = true) :
    p.rank (ε := ε) stack d lookahead = .ok (p.contest stack lookahead actions).rank := by
  refine rank_eq_ok_iff.mpr ⟨actions, (p.contest stack lookahead actions).candidates, hd, ?_, rfl⟩
  exact List.forall₂_map_right_iff.mpr
    (List.forall₂_same.mpr fun a ha => candidate_eq_ok fun r hr => hrules r (hr ▸ ha))

/-- The ranking of candidates without repetitions whose rules are known drops those that the
operators forbid and no others, and puts the rest into the order in which they are to be tried. The
operators are those that stand in the handles. If a shift contends with one reduction, the operators
take each other as arguments and their priorities differ, only the candidate of the tighter one is
kept. -/
theorem rank_keeps_allowed {lookahead : Lookahead τ} {d : CandidatesId} {actions : List Action}
    (hd : p.table.candidates d = some actions) (hnodup : actions.Nodup)
    (hrules : ∀ r, .reduce r ∈ actions → (p.table.rule r).isSome = true) :
    ∃ ranked, p.rank (ε := ε) stack d lookahead = .ok ranked ∧ ranked.Nodup ∧
      (∀ a, a ∈ ranked ↔ a ∈ actions ∧ ¬ (p.contest stack lookahead actions).Forbids a) ∧
      ranked.Pairwise (p.contest stack lookahead actions).Precedes ∧
      (∀ a op, (p.contest stack lookahead actions).operator a = some op ↔
        p.HoldsOperator stack a op) ∧
      ∀ next r incoming op, actions.Perm [.shift next, .reduce r] →
        lookahead.operator? = some incoming → p.HoldsOperator stack (.reduce r) op →
        incoming.specifier.leftArgument.isSome = true →
        op.specifier.rightArgument.isSome = true → op.priority ≠ incoming.priority →
        ranked = [if op.priority < incoming.priority then .reduce r else .shift next] := by
  refine ⟨_, rank_eq_ok hd hrules, Contest.nodup_rank hnodup, fun _ => Contest.mem_rank_iff,
    Contest.pairwise_rank hnodup, fun _ _ => handleOperator?_eq_some_iff, ?_⟩
  intro next r incoming op hactions hincoming hop hleft hright hne
  exact Contest.rank_pair hactions hincoming (handleOperator?_eq_some_iff.mpr hop) rfl hleft hright
    hne

/-! ## A product in a sum -/

/-- The operator of sums. -/
def sumOperator : Operator := ⟨"+", ⟨1⟩, "expr", .yfx, 500, ⟨1⟩⟩

/-- The operator of products. -/
def productOperator : Operator := ⟨"*", ⟨1⟩, "expr", .yfx, 400, ⟨1⟩⟩

/-- A table with the rule for operators between expressions, and the choice that it leaves. -/
def operatorTable : ExplicitTable where
  initial := ⟨0⟩
  actions := []
  gotos := []
  rules := [⟨⟨1⟩, 3, some 1⟩]
  candidates := [[.shift ⟨4⟩, .reduce ⟨0⟩]]
  operators := .empty
  operatorTerminals := [((⟨1⟩, .infixOp), ⟨1⟩)]
  names := [(⟨1⟩, "expr")]

/-- A parser on this table that gives no nodes. -/
def operatorParser : Parser Unit Unit Unit Unit where
  table := operatorTable.toParseTable
  maker := ⟨fun _ _ memory => (.ok (), memory)⟩
  maxChoiceDepth := none
  operators := .empty

/-- A token read as an operator. -/
def operatorView (op : Operator) (position : Nat) : TokenView Unit :=
  ⟨(), ⟨op.terminal, some op⟩, position, 0⟩

/-- The stack after a sum of two expressions. -/
def sumStack : List (StackEntry Unit Unit) :=
  [⟨⟨3⟩, .node (), 0, 0⟩, ⟨⟨2⟩, .token (operatorView sumOperator 1), 0, 0⟩,
    ⟨⟨1⟩, .node (), 0, 0⟩]

/-- After a sum the operator of a product is shifted: it binds tighter. -/
theorem rank_keeps_allowed_product :
    operatorParser.rank (ε := Empty) sumStack ⟨0⟩ (.token (operatorView productOperator 3)) =
      .ok [.shift ⟨4⟩] := by
  have hknown : operatorParser.table.candidates ⟨0⟩ = some [.shift ⟨4⟩, .reduce ⟨0⟩] := rfl
  have hrules : ∀ r, .reduce r ∈ [Action.shift ⟨4⟩, .reduce ⟨0⟩] →
      (operatorParser.table.rule r).isSome = true := by
    intro r hr
    obtain rfl : r = ⟨0⟩ := by simpa using hr
    rfl
  have hsum : operatorParser.HoldsOperator sumStack (.reduce ⟨0⟩) sumOperator :=
    ⟨⟨0⟩, ⟨⟨1⟩, 3, some 1⟩, 1, sumStack.reverse, [], _, rfl, rfl, rfl, rfl, rfl, rfl, rfl⟩
  obtain ⟨ranked, hranked, -, -, -, -, htighter⟩ := rank_keeps_allowed hknown (by decide) hrules
  rw [hranked, htighter ⟨4⟩ ⟨0⟩ productOperator sumOperator (.refl _) rfl hsum rfl rfl (by decide)]
  rfl

end Parser

end OperatorLALR
