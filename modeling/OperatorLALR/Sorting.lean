/-!
# Sorting by a comparison

Stable sorting of a list by a comparison (`sortBy`), and the ascending list of the distinct
elements of a list (`sortDistinct`). Sorting loses and invents nothing (`sortBy_perm`,
`mem_sortDistinct`). Things may be compared by what a function gives (`transCmp_comap`,
`lawfulEqCmp_comap`).
-/

namespace OperatorLALR

open Std

/-- A comparison by what a function gives is as lawful as the comparison used. -/
theorem transCmp_comap {α β : Type} (cmp : β → β → Ordering) [TransCmp cmp] (f : α → β) :
    TransCmp fun a b => cmp (f a) (f b) where
  eq_swap {a b} := @OrientedCmp.eq_swap β cmp _ (f a) (f b)
  isLE_trans {a b c} := @TransCmp.isLE_trans β cmp _ (f a) (f b) (f c)

/-- A comparison by what tells things apart ties only equal things, if the comparison used does. -/
theorem lawfulEqCmp_comap {α β : Type} (cmp : β → β → Ordering) [LawfulEqCmp cmp] (f : α → β)
    (hf : ∀ a b, f a = f b → a = b) : LawfulEqCmp fun a b => cmp (f a) (f b) where
  compare_self {a} := @ReflCmp.compare_self β cmp _ (f a)
  eq_of_compare {a b} h := hf a b (LawfulEqCmp.eq_of_compare h)

/-- Ascending lists with the same elements are equal. -/
theorem eq_of_ascending {α : Type} {cmp : α → α → Ordering} [OrientedCmp cmp] {xs ys : List α}
    (hxs : xs.Pairwise fun a b => cmp a b = .lt) (hys : ys.Pairwise fun a b => cmp a b = .lt)
    (hmem : ∀ a, a ∈ xs ↔ a ∈ ys) : xs = ys := by
  have hne : ∀ {a b : α}, cmp a b = .lt → a ≠ b := by
    rintro a _ hlt rfl
    rw [@ReflCmp.compare_self _ cmp] at hlt
    cases hlt
  have hperm := (List.perm_ext_iff_of_nodup (hxs.imp hne) (hys.imp hne)).mpr hmem
  refine hperm.eq_of_pairwise (fun a b _ _ hab hba => ?_) hxs hys
  rw [OrientedCmp.gt_of_lt hab] at hba
  cases hba

variable {α : Type}

/-- The list with `x` put before the first element that is not smaller. -/
def insertBy (cmp : α → α → Ordering) (x : α) : List α → List α
  | [] => [x]
  | y :: ys => if cmp x y = .gt then y :: insertBy cmp x ys else x :: y :: ys

/-- The elements in ascending order, equal ones in the order of the list. -/
def sortBy (cmp : α → α → Ordering) (xs : List α) : List α := xs.foldr (insertBy cmp) []

/-- The list with `x` put at its place, or unchanged where an equal element stands there. -/
def insertDistinct (cmp : α → α → Ordering) (x : α) : List α → List α
  | [] => [x]
  | y :: ys =>
    match cmp x y with
    | .lt => x :: y :: ys
    | .eq => y :: ys
    | .gt => y :: insertDistinct cmp x ys

/-- The distinct elements in ascending order. -/
def sortDistinct (cmp : α → α → Ordering) (xs : List α) : List α :=
  xs.foldr (insertDistinct cmp) []

theorem insertBy_perm (cmp : α → α → Ordering) (x : α) (ys : List α) :
    (insertBy cmp x ys).Perm (x :: ys) := by
  induction ys with
  | nil => exact .refl _
  | cons y ys ih =>
    rw [insertBy]
    split
    · exact (ih.cons y).trans (.swap x y ys)
    · exact .refl _

/-- Sorting only reorders. -/
theorem sortBy_perm (cmp : α → α → Ordering) (xs : List α) : (sortBy cmp xs).Perm xs := by
  induction xs with
  | nil => exact .refl _
  | cons x xs ih => exact (insertBy_perm cmp x _).trans (ih.cons x)

@[simp] theorem mem_sortBy {cmp : α → α → Ordering} {xs : List α} {x : α} :
    x ∈ sortBy cmp xs ↔ x ∈ xs := (sortBy_perm cmp xs).mem_iff

theorem mem_insertDistinct {cmp : α → α → Ordering} (heq : ∀ a b, cmp a b = .eq → a = b)
    {x y : α} {ys : List α} : y ∈ insertDistinct cmp x ys ↔ y = x ∨ y ∈ ys := by
  induction ys with
  | nil => simp [insertDistinct]
  | cons z zs ih =>
    rw [insertDistinct]
    split
    · exact List.mem_cons
    · next h =>
      rw [heq _ _ h, List.mem_cons]
      exact ⟨.inr, fun h => h.elim .inl id⟩
    · rw [List.mem_cons, ih, List.mem_cons]
      exact or_left_comm

/-- The distinct elements are the elements, where only equal elements compare equal. -/
theorem mem_sortDistinct {cmp : α → α → Ordering} (heq : ∀ a b, cmp a b = .eq → a = b)
    {xs : List α} {x : α} : x ∈ sortDistinct cmp xs ↔ x ∈ xs := by
  induction xs with
  | nil => exact Iff.rfl
  | cons y ys ih =>
    change x ∈ insertDistinct cmp y (sortDistinct cmp ys) ↔ _
    rw [mem_insertDistinct heq, ih, List.mem_cons]

end OperatorLALR
