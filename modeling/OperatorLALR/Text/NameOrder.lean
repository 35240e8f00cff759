import OperatorLALR.Sorting
import OperatorLALR.Text.Alphanumeric
import OperatorLALR.Text.LowerCase

/-!
# The order of names

Names are listed in reports without regard to case, and without regard to marks in front of their
first letter or digit. Where that leaves a tie, the code points decide. What a letter is and how
it is lower-cased is a parameter of the order (`Folding`); `nameOrder` takes the Unicode rules.
-/

namespace OperatorLALR.Text

open Std

/-- What the order of names takes from the character set. -/
structure Folding where
  /-- The characters at which the significant part of a name may begin. -/
  isSignificant : Char → Bool
  /-- The lower-case form of a character, possibly of several characters. -/
  lower : Char → List Char

/-- The order of lists of characters by code points, a proper beginning first. -/
def charsOrder : List Char → List Char → Ordering
  | [], [] => .eq
  | [], _ :: _ => .lt
  | _ :: _, [] => .gt
  | a :: as, b :: bs => (compare a.val b.val).then (charsOrder as bs)

/-- The order of lists of characters is the lexicographic one by code points. -/
theorem charsOrder_eq : charsOrder = List.compareLex (compareOn Char.val) := by
  funext as bs
  induction as generalizing bs with
  | nil => cases bs <;> rfl
  | cons a as ih =>
    cases bs with
    | nil => rfl
    | cons b bs => rw [charsOrder, List.compareLex_cons_cons, ih, compareOn]

instance : TransCmp charsOrder := charsOrder_eq ▸ inferInstance

instance : LawfulEqCmp charsOrder := by
  have hchar : LawfulEqCmp (compareOn Char.val) :=
    ⟨fun {a b} (h : compare a.val b.val = .eq) => Char.ext (LawfulEqCmp.eq_of_compare h)⟩
  rw [charsOrder_eq]
  infer_instance

/-- The order of texts by code points. -/
def codePointOrder (a b : String) : Ordering := charsOrder a.toList b.toList

instance : TransCmp codePointOrder := transCmp_comap charsOrder String.toList

instance : LawfulEqCmp codePointOrder :=
  lawfulEqCmp_comap charsOrder String.toList fun _ _ => String.toList_injective

namespace Folding

variable (folding : Folding)

/-- The lower-case form of a list of characters. -/
def fold (cs : List Char) : List Char := cs.flatMap folding.lower

/-- The order without regard to case. -/
def caselessOrder (a b : List Char) : Ordering := charsOrder (folding.fold a) (folding.fold b)

instance : TransCmp folding.caselessOrder := transCmp_comap charsOrder folding.fold

/-- The characters of a name from the first letter or digit on. -/
def significant (name : String) : List Char :=
  name.toList.dropWhile fun c => !folding.isSignificant c

/-- The order of names in reports. -/
def nameOrder (a b : String) : Ordering :=
  (folding.caselessOrder (folding.significant a) (folding.significant b)).then
    (codePointOrder a b)

end Folding

/-- Letters, digits and lower case as Unicode has them. -/
def unicode : Folding := ⟨isAlphanumeric, toLower⟩

/-- The order of names in reports under the Unicode rules. -/
def nameOrder (a b : String) : Ordering := unicode.nameOrder a b

end OperatorLALR.Text
