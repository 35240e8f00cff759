import OperatorLALR.Parser.Step

/-!
# Runs of a parser

A parse is a sequence of steps from the start of a source to the first that ends it. The number of
steps is bounded by an argument; a bound that is not reached has no influence on the result
(`run_mono`).
-/

namespace OperatorLALR.Parser

variable {τ ν β ε σ : Type} [Token τ]

/-- The result of at most the given number of steps, and the machine at the end; none if they do
not end the parse. -/
def run (p : Parser τ ν β σ) :
    Nat → Machine τ ν ε σ → Option (Except (ParseError ε β) ν × Machine τ ν ε σ)
  | 0, _ => none
  | n + 1, m =>
    match p.step m with
    | .next m => p.run n m
    | .halt result m => some (result, m)

/-- Parse the tokens of a source within a number of steps. -/
def parse (p : Parser τ ν β σ) (steps : Nat) (source : List (Except ε τ)) (memory : σ) :
    Option (Except (ParseError ε β) ν × Machine τ ν ε σ) :=
  p.run steps (.start source memory)

/-- More steps do not change the result of a parse that has ended. -/
theorem run_mono (p : Parser τ ν β σ) {n k : Nat} (h : n ≤ k) {m : Machine τ ν ε σ}
    {r : Except (ParseError ε β) ν × Machine τ ν ε σ} (hr : p.run n m = some r) :
    p.run k m = some r := by
  induction n generalizing k m with
  | zero => exact absurd hr (by simp [run])
  | succ n ih =>
    obtain ⟨k, rfl⟩ : ∃ j, k = j + 1 := ⟨k - 1, by omega⟩
    rw [run] at hr ⊢
    split at hr
    · exact ih (by omega) hr
    · exact hr

end OperatorLALR.Parser
