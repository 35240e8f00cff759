/-!
# First occurrences

The elements of a list in the order of their first occurrences, leaving out those that were met
before.
-/

namespace OperatorLALR

variable {α : Type} [DecidableEq α]

/-- The elements of a list that are not among those met before, each once, in order. -/
def fresh (met : List α) : List α → List α
  | [] => []
  | x :: xs => if x ∈ met then fresh met xs else x :: fresh (met ++ [x]) xs

theorem mem_fresh {met xs : List α} {x : α} : x ∈ fresh met xs ↔ x ∈ xs ∧ x ∉ met := by
  induction xs generalizing met with
  | nil => simp [fresh]
  | cons y ys ih =>
    rw [fresh]
    by_cases hy : y ∈ met
    · rw [if_pos hy, ih, List.mem_cons]
      constructor
      · exact fun h => ⟨.inr h.1, h.2⟩
      · rintro ⟨rfl | h, hm⟩
        · exact absurd hy hm
        · exact ⟨h, hm⟩
    · rw [if_neg hy, List.mem_cons, List.mem_cons, ih, List.mem_append, List.mem_singleton]
      by_cases hxy : x = y
      · subst hxy
        simp [hy]
      · simp [hxy]

/-- Appending what is fresh keeps a list free of repetitions. -/
theorem nodup_append_fresh {met xs : List α} (h : met.Nodup) : (met ++ fresh met xs).Nodup := by
  induction xs generalizing met with
  | nil => simpa [fresh] using h
  | cons y ys ih =>
    rw [fresh]
    by_cases hy : y ∈ met
    · rw [if_pos hy]
      exact ih h
    · rw [if_neg hy]
      have hmet : (met ++ [y]).Nodup := by
        rw [List.nodup_append]
        exact ⟨h, by simp, by rintro a ha b hb rfl; exact hy (List.mem_singleton.mp hb ▸ ha)⟩
      simpa using ih hmet

end OperatorLALR
