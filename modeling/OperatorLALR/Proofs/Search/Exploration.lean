import Mathlib.Data.List.Lex
import Mathlib.Logic.Relation

/-!
# Search in order

A search tries the alternatives of a branch one after the other, each with all that follows from it
before the next. A run of a branch is given by a path: which alternative is taken at each step.
`Explores.found` and `Explores.exhausted` show that a search keeps the lexicographic order of paths:
where it comes upon a branch, all runs on earlier paths have stopped without a result, and where
nothing is left, all runs have.
-/

namespace OperatorLALR.Search

variable {α ρ : Type} {next : α → List α} {result : α → Option ρ}

/-- The branch to which a path leads: the places of the alternatives to take, step by step. -/
def follow (next : α → List α) (a : α) : List Nat → Option α
  | [] => some a
  | i :: path => ((next a)[i]?).bind fun b => follow next b path

/-- All runs on certain paths stop, without a result on the way. -/
def Fails (next : α → List α) (result : α → Option ρ) (a : α) (on : List Nat → Prop) : Prop :=
  ∃ bound, ∀ path b, on path → follow next a path = some b → path.length ≤ bound ∧ result b = none

/-- The first of the pending branches, if it has no result, gives way to its alternatives. -/
inductive Expands (next : α → List α) (result : α → Option ρ) : List α → List α → Prop
  | first {a : α} {rest : List α} (h : result a = none) :
      Expands next result (a :: rest) (next a ++ rest)

/-- What a search leaves pending after some steps. -/
def Explores (next : α → List α) (result : α → Option ρ) : List α → List α → Prop :=
  Relation.ReflTransGen (Expands next result)

/-- What each branch hands on to its alternatives holds of all that a search leaves pending. -/
theorem Explores.forall {P : α → Prop} {as bs : List α} (h : Explores next result as bs)
    (hnext : ∀ a, P a → ∀ b ∈ next a, P b) (has : ∀ a ∈ as, P a) : ∀ b ∈ bs, P b := by
  induction h with
  | refl => exact has
  | tail _ hstep ih =>
    cases hstep with
    | @first a rest _ =>
      obtain ⟨ha, hrest⟩ := List.forall_mem_cons.mp ih
      intro b hb
      exact (List.mem_append.mp hb).elim (hnext a ha b) (hrest b)

/-- The branch to which a path leads whose first step selects one of several branches. -/
def followIn (next : α → List α) (as : List α) : List Nat → Option α
  | [] => none
  | i :: path => (as[i]?).bind fun a => follow next a path

/-- All runs before a limit, if there is one, stop within a bound, without a result on the way. -/
def Fruitless (next : α → List α) (result : α → Option ρ) (as : List α) (limit : Option (List Nat))
    (bound : Nat) : Prop :=
  ∀ path b, (∀ l ∈ limit, path < l) → followIn next as path = some b →
    path.length ≤ bound ∧ result b = none

/-- A path into the alternatives of a branch, followed by others, as a path into the branch and the
others. -/
def lift (n : Nat) : List Nat → List Nat
  | [] => []
  | i :: path => if i < n then 0 :: i :: path else (i - n + 1) :: path

/-- A lifted path leads to the same branch. -/
theorem followIn_lift (a : α) (rest : List α) (path : List Nat) :
    followIn next (a :: rest) (lift (next a).length path) =
      followIn next (next a ++ rest) path := by
  cases path with
  | nil => rfl
  | cons i path =>
    rw [lift]
    by_cases hi : i < (next a).length
    · rw [if_pos hi, followIn, followIn, List.getElem?_append_left hi]
      rfl
    · rw [if_neg hi, followIn, followIn, List.getElem?_append_right (Nat.le_of_not_lt hi)]
      rfl

/-- Lifting keeps the order of paths. -/
theorem lift_lt_lift {n : Nat} {path path' : List Nat} (hlt : path < path') :
    lift n path < lift n path' := by
  cases path' with
  | nil => exact absurd hlt (List.not_lt_nil path)
  | cons j tail' =>
    cases path with
    | nil =>
      rw [lift, lift]
      split <;> exact List.nil_lt_cons _ _
    | cons i tail =>
      rw [List.cons_lt_cons_iff] at hlt
      rw [lift, lift]
      by_cases hi : i < n <;> by_cases hj : j < n
      · rw [if_pos hi, if_pos hj, List.cons_lt_cons_iff, List.cons_lt_cons_iff]
        exact .inr ⟨rfl, hlt⟩
      · rw [if_pos hi, if_neg hj, List.cons_lt_cons_iff]
        exact .inl (Nat.succ_pos _)
      · rcases hlt with hlt | ⟨rfl, -⟩
        · exact absurd (Nat.lt_trans hlt hj) hi
        · exact absurd hj hi
      · rw [if_neg hi, if_neg hj, List.cons_lt_cons_iff]
        rcases hlt with hlt | ⟨rfl, hlt⟩
        · exact .inl (by omega)
        · exact .inr ⟨rfl, hlt⟩

/-- Paths are in the order of those to which they are lifted. -/
theorem lift_lt_lift_iff {n : Nat} {path path' : List Nat} :
    lift n path < lift n path' ↔ path < path' := by
  refine ⟨fun hlt => ?_, lift_lt_lift⟩
  rcases lt_trichotomy path path' with h | rfl | h
  · exact h
  · exact absurd hlt (lt_irrefl _)
  · exact absurd (hlt.trans (lift_lt_lift h)) (lt_irrefl _)

/-- Lifting adds at most one step. -/
theorem length_lift_le (n : Nat) (path : List Nat) : (lift n path).length ≤ path.length + 1 := by
  cases path with
  | nil => exact Nat.zero_le _
  | cons i path =>
    rw [lift]
    split <;> simp only [List.length_cons] <;> omega

/-- Every run into a branch and others is the branch itself or lifted from its alternatives. -/
theorem exists_lift {a b : α} {rest : List α} {path : List Nat}
    (h : followIn next (a :: rest) path = some b) :
    path = [0] ∨ ∃ path', path = lift (next a).length path' := by
  match path with
  | [] => cases h
  | [0] => exact .inl rfl
  | 0 :: i :: path =>
    have hi : i < (next a).length := by
      by_contra hi
      have hnone : (next a)[i]? = none := List.getElem?_eq_none (Nat.le_of_not_lt hi)
      simp [followIn, follow, hnone] at h
    exact .inr ⟨i :: path, by rw [lift, if_pos hi]⟩
  | (i + 1) :: path =>
    refine .inr ⟨(i + (next a).length) :: path, ?_⟩
    rw [lift, if_neg (by omega), Nat.add_sub_cancel]

/-- If the runs from the alternatives fail, so do those from the branch. -/
theorem Fruitless.expand {a : α} {rest : List α} {limit : Option (List Nat)} {bound : Nat}
    (ha : result a = none) (h : Fruitless next result (next a ++ rest) limit bound) :
    Fruitless next result (a :: rest) (limit.map (lift (next a).length)) (bound + 1) := by
  intro path b hlimit hb
  rcases exists_lift hb with rfl | ⟨path', rfl⟩
  · obtain rfl : a = b := Option.some.inj hb
    exact ⟨Nat.succ_le_succ (Nat.zero_le bound), ha⟩
  · rw [followIn_lift] at hb
    have hbefore : ∀ l ∈ limit, path' < l := fun l hl =>
      lift_lt_lift_iff.mp (hlimit _ (Option.mem_map_of_mem _ hl))
    obtain ⟨hlength, hresult⟩ := h path' b hbefore hb
    exact ⟨(length_lift_le _ path').trans (Nat.succ_le_succ hlength), hresult⟩

/-- A search comes upon a branch only after all runs on earlier paths have failed. -/
theorem Explores.foundIn {as rest : List α} {b : α} (h : Explores next result as (b :: rest)) :
    ∃ path bound, followIn next as path = some b ∧ Fruitless next result as (some path) bound := by
  induction h using Relation.ReflTransGen.head_induction_on with
  | refl =>
    refine ⟨[0], 0, rfl, ?_⟩
    intro path c hlimit hc
    have hlt : path < [0] := hlimit [0] rfl
    cases path with
    | nil => cases hc
    | cons i path =>
      rw [List.cons_lt_cons_iff] at hlt
      rcases hlt with hlt | ⟨-, hlt⟩
      · exact absurd hlt (Nat.not_lt_zero i)
      · exact absurd hlt (List.not_lt_nil path)
  | head hstep _ ih =>
    obtain ⟨path, bound, hpath, hfail⟩ := ih
    cases hstep with
    | @first a others ha =>
      exact ⟨lift (next a).length path, bound + 1, (followIn_lift a others path).trans hpath,
        hfail.expand ha⟩

/-- A search that leaves nothing pending has no run with a result. -/
theorem Explores.exhaustedIn {as : List α} (h : Explores next result as []) :
    ∃ bound, Fruitless next result as none bound := by
  induction h using Relation.ReflTransGen.head_induction_on with
  | refl =>
    refine ⟨0, ?_⟩
    intro path c _ hc
    cases path with
    | nil => cases hc
    | cons i path => cases hc
  | head hstep _ ih =>
    obtain ⟨bound, hfail⟩ := ih
    cases hstep with
    | first ha => exact ⟨bound + 1, hfail.expand ha⟩

/-- A search from one branch comes upon another only after all runs on earlier paths have failed. -/
theorem Explores.found {a b : α} {rest : List α} (h : Explores next result [a] (b :: rest)) :
    ∃ path, follow next a path = some b ∧ Fails next result a (· < path) := by
  obtain ⟨path, bound, hpath, hfail⟩ := h.foundIn
  match path with
  | [] => cases hpath
  | (i + 1) :: path => cases hpath
  | 0 :: path =>
    refine ⟨path, hpath, bound, ?_⟩
    intro path' c hlt hc
    have hlimit : ∀ l ∈ some (0 :: path), 0 :: path' < l := by
      intro l hl
      obtain rfl := Option.some.inj hl
      exact List.cons_lt_cons_iff.mpr (.inr ⟨rfl, hlt⟩)
    obtain ⟨hlength, hresult⟩ := hfail (0 :: path') c hlimit hc
    exact ⟨Nat.le_of_succ_le hlength, hresult⟩

/-- A search from one branch that leaves nothing pending has no run with a result. -/
theorem Explores.exhausted {a : α} (h : Explores next result [a] []) :
    Fails next result a fun _ => True := by
  obtain ⟨bound, hfail⟩ := h.exhaustedIn
  refine ⟨bound, ?_⟩
  intro path b _ hb
  have hnone : ∀ l ∈ (none : Option (List Nat)), 0 :: path < l := by
    intro l hl
    cases hl
  obtain ⟨hlength, hresult⟩ := hfail (0 :: path) b hnone hb
  exact ⟨Nat.le_of_succ_le hlength, hresult⟩

end OperatorLALR.Search
