/-!
# Ranges of characters

A class of characters is given by the ascending list of the ranges of its code points. The first
range that does not end below a character decides whether the character is in the class, which
comes to the same as to ask all of them (`CharRanges.contains_iff`).
-/

namespace OperatorLALR.Text

/-- Ranges of code points are ascending and apart from each other, and begin with a code point or
later. -/
def AscendingFrom (least : Nat) : List (Nat × Nat) → Prop
  | [] => True
  | (first, last) :: rest => least ≤ first ∧ first ≤ last ∧ AscendingFrom (last + 1) rest

instance decidableAscendingFrom (least : Nat) :
    (ranges : List (Nat × Nat)) → Decidable (AscendingFrom least ranges)
  | [] => .isTrue trivial
  | (first, last) :: rest =>
    have := decidableAscendingFrom (last + 1) rest
    inferInstanceAs (Decidable (least ≤ first ∧ first ≤ last ∧ AscendingFrom (last + 1) rest))

/-- Ascending ranges begin where they are to begin, or later. -/
theorem AscendingFrom.le_of_mem {least : Nat} {ranges : List (Nat × Nat)}
    (h : AscendingFrom least ranges) {r : Nat × Nat} (hr : r ∈ ranges) : least ≤ r.1 := by
  induction ranges generalizing least with
  | nil => cases hr
  | cons s rest ih =>
    obtain ⟨hleast, hle, hrest⟩ := h
    rcases List.mem_cons.mp hr with rfl | hr
    · exact hleast
    · exact Nat.le_trans (by omega) (ih hrest hr)

/-- A class of characters. -/
structure CharRanges where
  /-- The first and the last code points of the ranges. -/
  ranges : List (Nat × Nat)
  ascending : AscendingFrom 0 ranges

/-- Whether some range in an ascending list covers a code point. -/
def covers (code : Nat) : List (Nat × Nat) → Bool
  | [] => false
  | (first, last) :: rest => if last < code then covers code rest else first ≤ code

/-- In an ascending list the first range that does not end too early decides as well as all. -/
theorem AscendingFrom.covers_iff {least code : Nat} {ranges : List (Nat × Nat)}
    (h : AscendingFrom least ranges) :
    covers code ranges = true ↔ ∃ r ∈ ranges, r.1 ≤ code ∧ code ≤ r.2 := by
  induction ranges generalizing least with
  | nil => simp [covers]
  | cons s rest ih =>
    obtain ⟨-, -, hrest⟩ := h
    simp only [covers, List.mem_cons, exists_eq_or_imp]
    by_cases hlast : s.2 < code
    · rw [if_pos hlast, ih hrest, or_iff_right fun hs => by omega]
    · have hbehind : ¬ ∃ r ∈ rest, r.1 ≤ code ∧ code ≤ r.2 := by
        rintro ⟨r, hr, hfirst, -⟩
        have hle := hrest.le_of_mem hr
        omega
      rw [if_neg hlast, decide_eq_true_iff, or_iff_left hbehind,
        and_iff_left (Nat.le_of_not_lt hlast)]

namespace CharRanges

/-- Whether a range covers a character. -/
def contains (ranges : CharRanges) (c : Char) : Bool := covers c.toNat ranges.ranges

/-- A class consists of the characters in its ranges. -/
theorem contains_iff {ranges : CharRanges} {c : Char} :
    ranges.contains c = true ↔ ∃ r ∈ ranges.ranges, r.1 ≤ c.toNat ∧ c.toNat ≤ r.2 :=
  ranges.ascending.covers_iff

end CharRanges

end OperatorLALR.Text
