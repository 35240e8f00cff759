import OperatorLALR.Sorting

/-!
# What sorting gives

A comparison that is a total preorder sorts a list stably: smaller elements come first, and elements
between which it does not decide stay in the order in which they came (`pairwise_sortBy`). If only
equal elements tie, the sorted list is the one ascending reordering (`eq_sortBy_iff`).
-/

namespace OperatorLALR

open Std

variable {α : Type} {cmp : α → α → Ordering} {R : α → α → Prop} {x : α} {xs ys : List α}

/-- An element stands before another in a list that is sorted stably: it is smaller, or the two tie
and it came before the other. -/
def StablyBefore (cmp : α → α → Ordering) (R : α → α → Prop) (a b : α) : Prop :=
  cmp a b = .lt ∨ cmp a b = .eq ∧ R a b

theorem StablyBefore.isLE {a b : α} (h : StablyBefore cmp R a b) : (cmp a b).isLE = true := by
  rcases h with h | ⟨h, -⟩ <;> rw [h] <;> rfl

theorem stablyBefore_of_isLE {a b : α} (h : (cmp a b).isLE = true) (hR : R a b) :
    StablyBefore cmp R a b :=
  (Ordering.isLE_iff_eq_lt_or_eq_eq.mp h).imp id fun h => ⟨h, hR⟩

variable [TransCmp cmp]

/-- A stably sorted list stays so when an element that came before all others is put at its
place. -/
theorem pairwise_insertBy_stable (hx : ∀ y ∈ ys, R x y) (h : ys.Pairwise (StablyBefore cmp R)) :
    (insertBy cmp x ys).Pairwise (StablyBefore cmp R) := by
  induction ys with
  | nil => exact List.pairwise_singleton _ _
  | cons y ys ih =>
    obtain ⟨hy, hys⟩ := List.pairwise_cons.mp h
    rw [insertBy]
    split
    · next hgt =>
      refine List.pairwise_cons.mpr
        ⟨fun z hz => ?_, ih (fun z hz => hx z (List.mem_cons_of_mem y hz)) hys⟩
      rcases List.mem_cons.mp ((insertBy_perm cmp x ys).mem_iff.mp hz) with rfl | hz
      · exact .inl (OrientedCmp.lt_of_gt hgt)
      · exact hy z hz
    · next hgt =>
      have hxy : (cmp x y).isLE = true := Ordering.ne_gt_iff_isLE.mp hgt
      refine List.pairwise_cons.mpr ⟨fun z hz => stablyBefore_of_isLE ?_ (hx z hz), h⟩
      rcases List.mem_cons.mp hz with rfl | hz
      · exact hxy
      · exact TransCmp.isLE_trans hxy (hy z hz).isLE

/-- Sorting is stable. -/
theorem pairwise_sortBy (h : xs.Pairwise R) :
    (sortBy cmp xs).Pairwise (StablyBefore cmp R) := by
  induction xs with
  | nil => exact .nil
  | cons x xs ih =>
    obtain ⟨hx, hxs⟩ := List.pairwise_cons.mp h
    exact pairwise_insertBy_stable (fun y hy => hx y (mem_sortBy.mp hy)) (ih hxs)

/-- Where only equal elements tie, the sorted list is the one ascending reordering. -/
theorem eq_sortBy_iff [LawfulEqCmp cmp] :
    ys = sortBy cmp xs ↔ ys.Perm xs ∧ ys.Pairwise fun a b => (cmp a b).isLE = true := by
  have hsorted : (sortBy cmp xs).Pairwise fun a b => (cmp a b).isLE = true :=
    (pairwise_sortBy (R := fun _ _ => True) (List.pairwise_of_forall fun _ _ => trivial)).imp
      StablyBefore.isLE
  constructor
  · rintro rfl
    exact ⟨sortBy_perm cmp xs, hsorted⟩
  · rintro ⟨hperm, hascending⟩
    refine (hperm.trans (sortBy_perm cmp xs).symm).eq_of_pairwise (fun a b _ _ hab hba => ?_)
      hascending hsorted
    exact LawfulEqCmp.eq_of_compare (OrientedCmp.isLE_antisymm hab hba)

end OperatorLALR
