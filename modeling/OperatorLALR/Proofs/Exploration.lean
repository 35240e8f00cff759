import Mathlib.Data.List.Sublists
import Mathlib.Logic.Relation
import OperatorLALR.Exploration

/-!
# Explorations that end

The queue of an exploration holds the places found from some number on (`waiting_discover`). An
exploration with more steps than there can be places ends (`processesAll_exploreFrom`), with every
place that was found processed: what is reached from a place found is found (`ProcessesAll.closed`),
so that the places found are those reached from the first (`ProcessesAll.mem_iff_reached`). Numbers
that were given stay (`getElem?_explore`).
-/

namespace OperatorLALR

variable {α : Type} [Keyed α] {next : α → List α} {P : α → Prop} {found : Numbering α}

namespace Numbering

/-- Adding a thing changes no number. -/
theorem getElem?_add {x y : α} {i : Nat} (h : found.items[i]? = some x) :
    (found.add y).items[i]? = some x := by
  rw [add]
  split
  · exact h
  · have hi : i < found.items.size := (Array.getElem?_eq_some_iff.mp h).1
    rw [Array.getElem?_push_lt hi, ← Array.getElem?_eq_getElem hi]
    exact h

/-- Adding things changes no number. -/
theorem getElem?_addAll {xs : List α} {x : α} {i : Nat} (h : found.items[i]? = some x) :
    (found.addAll xs).items[i]? = some x := by
  induction xs generalizing found with
  | nil => exact h
  | cons y xs ih => exact ih (getElem?_add h)

/-- A numbering of one thing holds that thing. -/
theorem mem_ofList_singleton {x y : α} : y ∈ (ofList [x]).items ↔ y = x := by
  rw [ofList, mem_addAll, List.mem_singleton]
  exact or_iff_right (Array.not_mem_empty y)

/-- What holds of the things of a numbering and of those added holds of all in the end. -/
theorem forall_mem_addAll {P : α → Prop} {xs : List α} (h : ∀ x ∈ found.items, P x)
    (hxs : ∀ x ∈ xs, P x) : ∀ x ∈ (found.addAll xs).items, P x :=
  fun x hx => (mem_addAll.mp hx).elim (h x) (hxs x)

/-- A new thing is added behind the others. -/
theorem toList_add {x : α} (hx : found.number? x = none) :
    (found.add x).toList = found.toList ++ [x] := by
  unfold add
  split
  · next n h => cases hx.symm.trans h
  · exact Array.toList_push

/-- A numbering of one thing lists that thing. -/
theorem toList_ofList_singleton (x : α) : (ofList [x]).toList = [x] := by
  have hnew : empty.number? x = none := number?_eq_none_iff.mpr (Array.not_mem_empty x)
  exact toList_add hnew

/-- A thing that is there is not added again. -/
theorem add_eq_self {x : α} {n : Nat} (hx : found.number? x = some n) : found.add x = found := by
  unfold add
  split
  · rfl
  · next h => cases hx.symm.trans h

/-- There are at most as many things as there are candidates. -/
theorem size_le_of_subset {candidates : List α} (h : ∀ x ∈ found.items, x ∈ candidates) :
    found.items.size ≤ candidates.length := by
  have hsubset : found.toList ⊆ candidates := fun x hx => h x (mem_toList.mp hx)
  have hle := ((nodup_toList found).subperm hsubset).length_le
  rwa [toList, Array.length_toList] at hle

end Numbering

section Queues

variable [DecidableEq α] {pending : WorkQueue α}

/-- What is discovered is added to the numbering. -/
theorem discover_snd (pending : WorkQueue α) (found : Numbering α) (xs : List α) :
    (discover pending found xs).2 = found.addAll xs := by
  induction xs generalizing pending found with
  | nil => rfl
  | cons x xs ih =>
    rw [discover]
    split
    · next n hx =>
      rw [ih, Numbering.addAll, Numbering.addAll, List.foldl_cons, Numbering.add_eq_self hx]
    · exact ih _ _

/-- The waiting places are those found from a number on: what is discovered waits behind them. -/
theorem waiting_discover {n : Nat} {xs : List α} (hn : n ≤ found.items.size)
    (h : pending.waiting = found.toList.drop n) :
    (discover pending found xs).1.waiting = (found.addAll xs).toList.drop n := by
  induction xs generalizing pending found with
  | nil => exact h
  | cons x xs ih =>
    rw [discover, Numbering.addAll, List.foldl_cons]
    split
    · next i hx =>
      rw [Numbering.add_eq_self hx]
      exact ih hn h
    · next hx =>
      have hnew : x ∉ pending.waiting := fun hmem =>
        Numbering.number?_eq_none_iff.mp hx
          (Numbering.mem_toList.mp (List.mem_of_mem_drop (h ▸ hmem)))
      have hlist := Numbering.toList_add hx
      have hsize : n ≤ found.toList.length := hn
      refine ih ?_ ?_
      · change n ≤ (found.add x).toList.length
        rw [hlist, List.length_append]
        exact Nat.le_trans hsize (Nat.le_add_right _ _)
      · rw [WorkQueue.push_of_not_mem hnew, hlist, List.drop_append_of_le_length hsize, h]

/-- An exploration changes no number. -/
theorem getElem?_explore {steps i : Nat} {x : α} (h : found.items[i]? = some x) :
    (explore next steps pending found).items[i]? = some x := by
  induction steps generalizing pending found with
  | zero => exact h
  | succ steps ih =>
    rw [explore]
    split
    · exact h
    · refine ih ?_
      rw [discover_snd]
      exact Numbering.getElem?_addAll h

/-- The place from which an exploration starts has the first number. -/
theorem getElem?_exploreFrom_zero (next : α → List α) (steps : Nat) (start : α) :
    (exploreFrom next steps start).items[0]? = some start := by
  refine getElem?_explore ?_
  rw [← Array.getElem?_toList, ← Numbering.toList, Numbering.toList_ofList_singleton]
  rfl

end Queues

/-- What is reached from the places below a number has been found. -/
def ProcessedBelow (next : α → List α) (n : Nat) (found : Numbering α) : Prop :=
  ∀ i x, i < n → found.items[i]? = some x → ∀ y ∈ next x, y ∈ found.items

/-- Processing one more place. -/
theorem ProcessedBelow.succ {n : Nat} {x : α} (h : ProcessedBelow next n found)
    (hx : found.items[n]? = some x) :
    ProcessedBelow next (n + 1) (found.addAll (next x)) := by
  intro i y hi hy z hz
  rw [Numbering.mem_addAll]
  have hn : n < found.items.size := (Array.getElem?_eq_some_iff.mp hx).1
  have hold : ∃ y', found.items[i]? = some y' :=
    ⟨_, Array.getElem?_eq_getElem (Nat.lt_of_le_of_lt (Nat.le_of_lt_succ hi) hn)⟩
  obtain ⟨y', hy'⟩ := hold
  have hsame : y' = y := by
    rw [Numbering.getElem?_addAll hy'] at hy
    exact Option.some.inj hy
  rcases Nat.lt_or_eq_of_le (Nat.le_of_lt_succ hi) with hlt | rfl
  · exact .inl (h i y' hlt hy' z (hsame ▸ hz))
  · rw [hx] at hy'
    rw [Option.some.inj hy', hsame]
    exact .inr hz

/-- Processing every place from a number on comes to an end, with the places found by then. -/
inductive ProcessesAll (next : α → List α) : Nat → Numbering α → Numbering α → Prop
  | done {n : Nat} {found : Numbering α} (h : found.items[n]? = none) :
      ProcessesAll next n found found
  | step {n : Nat} {x : α} {found all : Numbering α} (hx : found.items[n]? = some x)
      (hrest : ProcessesAll next (n + 1) (found.addAll (next x)) all) :
      ProcessesAll next n found all

/-- An exploration comes to an end if there were more steps than there are candidates for places. -/
theorem processesAll_explore [DecidableEq α] {pending : WorkQueue α} {candidates : List α}
    {steps n : Nat} (hcandidates : ∀ x, P x → x ∈ candidates)
    (hnext : ∀ x, P x → ∀ y ∈ next x, P y) (hfound : ∀ x ∈ found.items, P x)
    (hpending : pending.waiting = found.toList.drop n) (hn : n ≤ found.items.size)
    (hsteps : candidates.length < n + steps) :
    ProcessesAll next n found (explore next steps pending found) := by
  induction steps generalizing n pending found with
  | zero =>
    have hsize := Numbering.size_le_of_subset fun x hx => hcandidates x (hfound x hx)
    exact .done (Array.getElem?_eq_none_iff.mpr (by omega))
  | succ steps ih =>
    rw [explore, WorkQueue.pop, hpending]
    cases hdrop : found.toList.drop n with
    | nil =>
      have hle : found.items.size ≤ n := List.drop_eq_nil_iff.mp hdrop
      exact .done (Array.getElem?_eq_none_iff.mpr hle)
    | cons x rest =>
      have hx : found.items[n]? = some x := by
        rw [← Array.getElem?_toList, ← Numbering.toList, ← List.head?_drop, hdrop]
        rfl
      have hrest : rest = found.toList.drop (n + 1) := by
        rw [← List.tail_drop, hdrop]
        rfl
      have hlt : n + 1 ≤ found.items.size := (Array.getElem?_eq_some_iff.mp hx).1
      have hx' := hfound x (Array.mem_of_getElem? hx)
      have hall := Numbering.forall_mem_addAll hfound (hnext x hx')
      have hwaiting : (discover ⟨rest⟩ found (next x)).1.waiting =
          (found.addAll (next x)).toList.drop (n + 1) := waiting_discover hlt hrest
      have hlt' : n + 1 ≤ (found.addAll (next x)).items.size :=
        (Array.getElem?_eq_some_iff.mp (Numbering.getElem?_addAll hx)).1
      refine .step hx ?_
      dsimp only
      rw [discover_snd]
      exact ih hall hwaiting hlt' (by omega)

/-- An exploration from one place ends with every place processed if there were more steps than
there are candidates for places. -/
theorem processesAll_exploreFrom [DecidableEq α] {candidates : List α} {steps : Nat} {start : α}
    (hcandidates : ∀ x, P x → x ∈ candidates) (hnext : ∀ x, P x → ∀ y ∈ next x, P y)
    (hstart : P start) (hsteps : candidates.length < steps) :
    ProcessesAll next 0 (.ofList [start]) (exploreFrom next steps start) := by
  refine processesAll_explore hcandidates hnext (fun x hx => ?_) ?_ (Nat.zero_le _) (by omega)
  · rwa [Numbering.mem_ofList_singleton.mp hx]
  · rw [Numbering.toList_ofList_singleton]
    rfl

/-- At the end of an exploration, what is reached from a place found is found. -/
theorem ProcessesAll.closed {n : Nat} {all : Numbering α} (h : ProcessesAll next n found all)
    (hprocessed : ProcessedBelow next n found) : ∀ x ∈ all.items, ∀ y ∈ next x, y ∈ all.items := by
  induction h with
  | done hsize =>
    intro x hx y hy
    obtain ⟨i, hi⟩ := Array.mem_iff_getElem?.mp hx
    have hlt := (Array.getElem?_eq_some_iff.mp hi).1
    have hle := Array.getElem?_eq_none_iff.mp hsize
    exact hprocessed i x (Nat.lt_of_lt_of_le hlt hle) hi y hy
  | step hx _ ih => exact ih (hprocessed.succ hx)

/-- What was found before is among the places found in the end. -/
theorem ProcessesAll.mem_of_mem {n : Nat} {all : Numbering α} {x : α}
    (h : ProcessesAll next n found all) (hx : x ∈ found.items) : x ∈ all.items := by
  induction h with
  | done => exact hx
  | step _ _ ih => exact ih (Numbering.mem_addAll.mpr (.inl hx))

/-- What every step keeps holds of all places found in the end. -/
theorem ProcessesAll.forall_mem {n : Nat} {all : Numbering α} (h : ProcessesAll next n found all)
    (hnext : ∀ x, P x → ∀ y ∈ next x, P y) (hfound : ∀ x ∈ found.items, P x) :
    ∀ x ∈ all.items, P x := by
  induction h with
  | done => exact hfound
  | step hx _ ih =>
    have hx' := hfound _ (Array.mem_of_getElem? hx)
    exact ih (Numbering.forall_mem_addAll hfound (hnext _ hx'))

/-- An exploration from one place that ends finds the places that steps lead to from there. -/
theorem ProcessesAll.mem_iff_reached {start x : α} {all : Numbering α}
    (h : ProcessesAll next 0 (.ofList [start]) all) :
    x ∈ all.items ↔ Relation.ReflTransGen (fun before after => after ∈ next before) start x := by
  constructor
  · refine fun hx => h.forall_mem (fun _ hreached y hy => hreached.tail hy) ?_ x hx
    intro y hy
    rw [Numbering.mem_ofList_singleton.mp hy]
  · intro hreached
    induction hreached with
    | refl => exact h.mem_of_mem (Numbering.mem_ofList_singleton.mpr rfl)
    | tail _ hnext ih => exact h.closed (fun i _ hi => absurd hi (Nat.not_lt_zero i)) _ ih _ hnext

end OperatorLALR
