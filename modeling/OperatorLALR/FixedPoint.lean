/-!
# Iteration to a fixed point

`stabilize f n x` applies `f` until nothing changes, at most `n` times. The result is a fixed
point of `f` whenever some measure bounded by `n` grows with every change
(`stabilize_fixed`). Then the bound plays no part: `f` stabilizes, by itself, at the result
(`stabilizes_of_fixed`).
-/

namespace OperatorLALR

variable {α : Type}

/-- Applying `f` for as long as that changes something comes to an end, with the second value. -/
inductive Stabilizes (f : α → α) : α → α → Prop
  | done {x : α} (h : f x = x) : Stabilizes f x x
  | next {x y : α} (h : f x ≠ x) (hrest : Stabilizes f (f x) y) : Stabilizes f x y

variable [DecidableEq α]

/-- The first value of `x, f x, f (f x), …` that `f` leaves as it is, within `n` steps. -/
def stabilize (f : α → α) : Nat → α → α
  | 0, x => x
  | n + 1, x =>
    let y := f x
    if y = x then x else stabilize f n y

/-- What every step keeps holds of the result. -/
theorem stabilize_induction {P : α → Prop} {f : α → α} (hstep : ∀ x, P x → P (f x)) (n : Nat)
    {x : α} (hx : P x) : P (stabilize f n x) := by
  induction n generalizing x with
  | zero => exact hx
  | succ n ih =>
    rw [stabilize]
    split
    · exact hx
    · exact ih (hstep x hx)

/-- Where an iteration has reached a fixed point, its bound has not been needed. -/
theorem stabilizes_of_fixed {f : α → α} {n : Nat} {x : α}
    (h : f (stabilize f n x) = stabilize f n x) : Stabilizes f x (stabilize f n x) := by
  induction n generalizing x with
  | zero => exact .done h
  | succ n ih =>
    rw [stabilize] at h ⊢
    split at h
    · next hx =>
      rw [if_pos hx]
      exact .done hx
    · next hx =>
      rw [if_neg hx]
      exact .next hx (ih h)

/-- If every change raises a measure and the measure never exceeds a bound, then that many steps
from measure zero reach a fixed point. -/
theorem stabilize_fixed {P : α → Prop} {f : α → α} {size : α → Nat} {bound : Nat}
    (hstep : ∀ x, P x → P (f x)) (hgrow : ∀ x, P x → f x ≠ x → size x < size (f x))
    (hbound : ∀ x, P x → size x ≤ bound) (n : Nat) {x : α} (hx : P x)
    (hn : bound < size x + n) : f (stabilize f n x) = stabilize f n x := by
  induction n generalizing x with
  | zero =>
    have := hbound x hx
    omega
  | succ n ih =>
    rw [stabilize]
    split
    · next h => exact h
    · next h =>
      have := hgrow x hx h
      exact ih (hstep x hx) (by omega)

end OperatorLALR
