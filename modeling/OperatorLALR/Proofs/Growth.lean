import Mathlib.Data.List.Count
import OperatorLALR.FixedPoint
import OperatorLALR.IndexSet

/-!
# Growth by facts

What a value knows is told by the facts that hold of it. A step grows a value if no fact is lost and
if a value that changes gains one of finitely many facts. Such steps compose, so that a round of
them that changes nothing consists of steps that change nothing (`Grows.foldl_fixed`), and repeating
a round as often as there are facts ends at a fixed point (`stabilize_fixed_of_grows`).
-/

namespace OperatorLALR

variable {α ι φ : Type} {holds : α → φ → Prop} {facts : List φ} {x y z : α}

/-- No fact is lost from `x` to `y`, and one of a list is gained if they differ. -/
structure Grows (holds : α → φ → Prop) (facts : List φ) (x y : α) : Prop where
  keeps : ∀ u, holds x u → holds y u
  gains : y ≠ x → ∃ u ∈ facts, holds y u ∧ ¬ holds x u

namespace Grows

/-- A value that stays the same grows. -/
theorem refl (x : α) : Grows holds facts x x := ⟨fun _ h => h, fun h => absurd rfl h⟩

/-- Growth goes on. -/
theorem trans (hxy : Grows holds facts x y) (hyz : Grows holds facts y z) :
    Grows holds facts x z := by
  refine ⟨fun u hu => hyz.keeps u (hxy.keeps u hu), ?_⟩
  intro hne
  by_cases hy : y = x
  · subst hy
    exact hyz.gains hne
  · obtain ⟨u, hmem, hu, hx⟩ := hxy.gains hy
    exact ⟨u, hmem, hyz.keeps u hu, hx⟩

/-- A value that grows and comes back has not changed. -/
theorem eq_of_back (hxy : Grows holds facts x y) (hyx : Grows holds facts y x) : y = x := by
  by_contra hne
  obtain ⟨u, -, hy, hx⟩ := hxy.gains hne
  exact hx (hyx.keeps u hy)

variable {P : α → Prop} {op : α → ι → α} {xs : List ι}

/-- A round of steps grows a value, and keeps what each of them keeps. -/
theorem foldl (hop : ∀ i ∈ xs, ∀ x, P x → P (op x i) ∧ Grows holds facts x (op x i)) (hx : P x) :
    P (xs.foldl op x) ∧ Grows holds facts x (xs.foldl op x) := by
  induction xs generalizing x with
  | nil => exact ⟨hx, refl x⟩
  | cons i xs ih =>
    obtain ⟨hi, hgrows⟩ := hop i List.mem_cons_self x hx
    obtain ⟨hrest, hgrows'⟩ := ih (fun j hj => hop j (List.mem_cons_of_mem i hj)) hi
    exact ⟨hrest, hgrows.trans hgrows'⟩

/-- In a round that changes nothing no step changes anything. -/
theorem foldl_fixed (hop : ∀ i ∈ xs, ∀ x, P x → P (op x i) ∧ Grows holds facts x (op x i))
    (hx : P x) (hfixed : xs.foldl op x = x) : ∀ i ∈ xs, op x i = x := by
  induction xs with
  | nil => exact nofun
  | cons i xs ih =>
    obtain ⟨hi, hgrows⟩ := hop i List.mem_cons_self x hx
    have hrest : ∀ j ∈ xs, ∀ x, P x → P (op x j) ∧ Grows holds facts x (op x j) :=
      fun j hj => hop j (List.mem_cons_of_mem i hj)
    rw [List.foldl_cons] at hfixed
    have hback : Grows holds facts (op x i) x := by
      have hfold := (foldl hrest hi).2
      rwa [hfixed] at hfold
    have hsame : op x i = x := hgrows.eq_of_back hback
    rw [hsame] at hfixed
    intro j hj
    rcases List.mem_cons.mp hj with rfl | hj
    · exact hsame
    · exact ih hrest hfixed j hj

open Classical in
/-- A value that changes has more of the facts. -/
theorem countP_lt (h : Grows holds facts x y) (hne : y ≠ x) :
    facts.countP (holds x ·) < facts.countP (holds y ·) := by
  obtain ⟨u, hmem, hy, hx⟩ := h.gains hne
  obtain ⟨before, after, rfl⟩ := List.append_of_mem hmem
  have hmono : ∀ us : List φ, us.countP (holds x ·) ≤ us.countP (holds y ·) := fun us =>
    List.countP_mono_left fun v _ hv => decide_eq_true (h.keeps v (of_decide_eq_true hv))
  have hbefore := hmono before
  have hafter := hmono after
  simp only [List.countP_append, List.countP_cons, hy, hx, decide_true, decide_false, if_true,
    Bool.false_eq_true, if_false]
  omega

end Grows

/-- Repeating a step that grows values ends at a fixed point within one time more than there are
facts to gain. -/
theorem stabilize_fixed_of_grows [DecidableEq α] {P : α → Prop} {f : α → α} {n : Nat}
    (hf : ∀ x, P x → P (f x) ∧ Grows holds facts x (f x)) (hx : P x) (hn : facts.length < n) :
    f (stabilize f n x) = stabilize f n x := by
  classical
  have hsize : ∀ x, P x → f x ≠ x → facts.countP (holds x ·) < facts.countP (holds (f x) ·) :=
    fun x hx hne => (hf x hx).2.countP_lt hne
  have hbound : ∀ x, P x → facts.countP (holds x ·) ≤ facts.length :=
    fun _ _ => List.countP_le_length
  exact stabilize_fixed (fun x hx => (hf x hx).1) hsize hbound n hx (Nat.lt_add_left _ hn)

namespace IndexSet

variable {kind : IndexKind} {is : List (Index kind)} {s t : IndexSet kind}

/-- A union that adds no member changes nothing. -/
theorem union_eq_left (h : ∀ i : Index kind, i ∈ t → i ∈ s) : s ∪ t = s :=
  ext_mem fun _ => mem_union.trans ⟨fun hi => hi.elim id (h _), .inl⟩

/-- An insertion of a member changes nothing. -/
theorem insert_eq_self {i : Index kind} (h : i ∈ s) : s.insert i = s :=
  ext_mem fun _ => mem_insert.trans ⟨fun hj => hj.elim (fun heq => heq ▸ h) id, .inr⟩

/-- An insertion grows a set by its member. -/
theorem grows_insert {i : Index kind} (hi : i ∈ is) :
    Grows (fun (s : IndexSet kind) i => i ∈ s) is s (s.insert i) := by
  refine ⟨fun _ hu => mem_insert.mpr (.inr hu), ?_⟩
  intro hne
  exact ⟨i, hi, mem_insert.mpr (.inl rfl), fun hmem => hne (insert_eq_self hmem)⟩

end IndexSet

/-- A modification changes one element. -/
theorem getElem?_modify_eq (xs : List α) (i j : Nat) (f : α → α) :
    (xs.modify i f)[j]? = if i = j then (xs[j]?).map f else xs[j]? := by
  rw [List.getElem?_modify]
  split <;> simp

/-- A list does not change if the modified element does not. -/
theorem modify_eq_self {xs : List α} {i : Nat} {f : α → α}
    (h : ∀ x, xs[i]? = some x → f x = x) : xs.modify i f = xs := by
  refine List.ext_getElem? fun j => ?_
  rw [getElem?_modify_eq]
  split
  · next hij =>
    subst hij
    cases hx : xs[i]? with
    | none => rfl
    | some x => rw [Option.map_some, h x hx]
  · rfl

end OperatorLALR
