import Mathlib.Data.List.Forall2

/-!
# Traversals that may fail

A traversal succeeds exactly if it succeeds at each element, and then gives the results in order
(`mapM_eq_ok_iff`). Otherwise it fails at the first element at which it does (`mapM_eq_error_iff`).
-/

namespace OperatorLALR

variable {α β ε : Type}

/-- A traversal gives a list exactly if it gives its elements one by one. -/
theorem mapM_eq_ok_iff {f : α → Except ε β} {xs : List α} {ys : List β} :
    xs.mapM f = .ok ys ↔ List.Forall₂ (fun x y => f x = .ok y) xs ys := by
  induction xs generalizing ys with
  | nil =>
    rw [List.mapM_nil, List.forall₂_nil_left_iff]
    exact ⟨fun h => (Except.ok.inj h).symm, fun h => h ▸ rfl⟩
  | cons x xs ih =>
    rw [List.mapM_cons, List.forall₂_cons_left_iff]
    cases hx : f x with
    | error e =>
      refine ⟨nofun, ?_⟩
      rintro ⟨y, _, hy, -, -⟩
      cases hy
    | ok y =>
      cases hxs : xs.mapM f with
      | error e =>
        refine ⟨nofun, ?_⟩
        rintro ⟨_, ys, -, hys, -⟩
        rw [← ih, hxs] at hys
        cases hys
      | ok ys' =>
        have htail := ih.mp hxs
        constructor
        · intro h
          obtain rfl := Except.ok.inj h
          exact ⟨y, ys', rfl, htail, rfl⟩
        · rintro ⟨y', ys, hy, hys, rfl⟩
          obtain rfl := Except.ok.inj hy
          rw [← ih, hxs] at hys
          obtain rfl := Except.ok.inj hys
          rfl

/-- A traversal fails at the first element, or behind it if that one gives a result. -/
theorem mapM_cons_eq_error_iff {f : α → Except ε β} {x : α} {xs : List α} {e : ε} :
    (x :: xs).mapM f = .error e ↔
      f x = .error e ∨ (∃ y, f x = .ok y) ∧ xs.mapM f = .error e := by
  rw [List.mapM_cons]
  cases f x with
  | error e' =>
    constructor
    · exact fun h => .inl (congrArg Except.error (Except.error.inj h))
    · rintro (h | ⟨⟨_, hy⟩, -⟩)
      · exact congrArg Except.error (Except.error.inj h)
      · cases hy
  | ok y =>
    cases xs.mapM f with
    | error e' =>
      constructor
      · exact fun h => .inr ⟨⟨y, rfl⟩, h⟩
      · rintro (h | ⟨-, h⟩)
        · cases h
        · exact h
    | ok ys =>
      refine ⟨nofun, ?_⟩
      rintro (h | ⟨-, h⟩) <;> cases h

/-- A traversal fails exactly if it fails at an element before which it succeeds. -/
theorem mapM_eq_error_iff {f : α → Except ε β} {xs : List α} {e : ε} :
    xs.mapM f = .error e ↔ ∃ (i : Nat) (x : α), xs[i]? = some x ∧ f x = .error e ∧
      ∀ j < i, ∀ y, xs[j]? = some y → ∃ b, f y = .ok b := by
  induction xs with
  | nil =>
    refine ⟨nofun, ?_⟩
    rintro ⟨_, _, hx, -⟩
    cases hx
  | cons x xs ih =>
    rw [mapM_cons_eq_error_iff, ih]
    constructor
    · rintro (hx | ⟨hx, i, y, hy, hfails, hbefore⟩)
      · exact ⟨0, x, rfl, hx, fun j hj => absurd hj (Nat.not_lt_zero j)⟩
      · refine ⟨i + 1, y, hy, hfails, fun j hj z hz => ?_⟩
        cases j with
        | zero => exact Option.some.inj hz ▸ hx
        | succ j => exact hbefore j (Nat.lt_of_succ_lt_succ hj) z hz
    · rintro ⟨i, y, hy, hfails, hbefore⟩
      cases i with
      | zero => exact .inl (Option.some.inj hy ▸ hfails)
      | succ i =>
        exact .inr ⟨hbefore 0 (Nat.succ_pos i) x rfl, i, y, hy, hfails,
          fun j hj => hbefore (j + 1) (Nat.succ_lt_succ hj)⟩

/-- A traversal that fails does so at one of the elements. -/
theorem exists_of_mapM_eq_error {f : α → Except ε β} {xs : List α} {e : ε}
    (h : xs.mapM f = .error e) : ∃ x ∈ xs, f x = .error e := by
  obtain ⟨_, x, hx, hfails, -⟩ := mapM_eq_error_iff.mp h
  exact ⟨x, List.mem_of_getElem? hx, hfails⟩

/-- At each place of the first of two related lists the second has a related element. -/
theorem exists_getElem?_right {R : α → β → Prop} {xs : List α} {ys : List β}
    (h : List.Forall₂ R xs ys) {i : Nat} {x : α} (hx : xs[i]? = some x) :
    ∃ y, ys[i]? = some y ∧ R x y := by
  induction h generalizing i with
  | nil => cases hx
  | cons hxy _ ih =>
    cases i with
    | zero =>
      obtain rfl := Option.some.inj hx
      exact ⟨_, rfl, hxy⟩
    | succ i => exact ih hx

/-- At each place of the second of two related lists the first has a related element. -/
theorem exists_getElem?_left {R : α → β → Prop} {xs : List α} {ys : List β}
    (h : List.Forall₂ R xs ys) {i : Nat} {y : β} (hy : ys[i]? = some y) :
    ∃ x, xs[i]? = some x ∧ R x y :=
  exists_getElem?_right h.flip hy

/-- What is computed from a value that may be missing is computed from one that is there. -/
theorem map_eq_ok_iff {x : Except ε α} {f : α → β} {y : β} :
    x.map f = .ok y ↔ ∃ a, x = .ok a ∧ f a = y := by
  cases x <;> simp [Except.map]

/-- What is computed from a value that may be missing fails with that value. -/
theorem map_eq_error_iff {x : Except ε α} {f : α → β} {e : ε} :
    x.map f = .error e ↔ x = .error e := by
  cases x <;> simp [Except.map]

/-- Where each element of a list has a related one, some list is related to it. -/
theorem exists_forall₂_of_forall {R : α → β → Prop} {xs : List α} (h : ∀ x ∈ xs, ∃ y, R x y) :
    ∃ ys, List.Forall₂ R xs ys := by
  induction xs with
  | nil => exact ⟨[], .nil⟩
  | cons x xs ih =>
    obtain ⟨y, hy⟩ := h x List.mem_cons_self
    obtain ⟨ys, hys⟩ := ih fun x' hx' => h x' (List.mem_cons_of_mem x hx')
    exact ⟨y :: ys, .cons hy hys⟩

end OperatorLALR
