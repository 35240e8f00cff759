import OperatorLALR.Grammar.Order
import OperatorLALR.Proofs.Operators.Tables
import OperatorLALR.Proofs.Sorting

/-!
# The orders of reports

Names are compared by a key that forgets marks and case, and then by their code points. Whatever
counts as a letter, and whatever its lower case is, this is a linear order of names. It gives a
linear order of the symbols of a grammar, declared or not, so that reports list them in one way
only, while operators tie only where they compete for one place with one priority
(`report_orders_lawful`).
-/

namespace OperatorLALR

open Std

namespace Text

/-- The order of lists of characters, by code points, is the lexicographic one. -/
theorem charsOrder_eq_lt_iff {as bs : List Char} : charsOrder as bs = .lt ↔ as < bs := by
  induction as generalizing bs with
  | nil => cases bs <;> simp [charsOrder]
  | cons a as ih =>
    cases bs with
    | nil => simp [charsOrder]
    | cons b bs =>
      have hchar : a.val = b.val ↔ a = b := Char.val_inj
      rw [charsOrder, Ordering.then_eq_lt, LawfulEqCmp.compare_eq_iff_eq, ih, hchar,
        List.cons_lt_cons_iff, compare_eq_lt]
      rfl

namespace Folding

variable (folding : Folding)

/-- By what names are compared: their significant characters in lower case. -/
def key (name : String) : List Char := folding.fold (folding.significant name)

/-- The key of a name leaves out marks in front of its first letter or digit, and lower-cases every
character from there on. -/
theorem exists_marks (name : String) : ∃ marks rest, name.toList = marks ++ rest ∧
    (∀ c ∈ marks, folding.isSignificant c = false) ∧
    (∀ c ∈ rest.head?, folding.isSignificant c = true) ∧
    folding.key name = rest.flatMap folding.lower := by
  refine ⟨name.toList.takeWhile fun c => !folding.isSignificant c, folding.significant name,
    List.takeWhile_append_dropWhile.symm, fun c hc => ?_, fun c hc => ?_, rfl⟩
  · simpa using List.all_eq_true.mp List.all_takeWhile c hc
  · have hhead := List.head?_dropWhile_not (fun c => !folding.isSignificant c) name.toList
    rw [significant] at hc
    rw [hc] at hhead
    simpa using hhead

/-- The order of names compares their keys and then the names. -/
theorem nameOrder_eq : folding.nameOrder =
    compareLex (fun a b => charsOrder (folding.key a) (folding.key b)) codePointOrder := rfl

instance : TransCmp folding.nameOrder := by
  have := transCmp_comap charsOrder folding.key
  rw [nameOrder_eq]
  infer_instance

/-- Only equal names tie. -/
theorem nameOrder_eq_eq_iff {a b : String} : folding.nameOrder a b = .eq ↔ a = b := by
  constructor
  · intro h
    exact LawfulEqCmp.eq_of_compare (Ordering.then_eq_eq.mp h).2
  · rintro rfl
    exact ReflCmp.compare_self

/-- A name comes first if its key does, or if the keys are the same and its code points do. -/
theorem nameOrder_eq_lt_iff {a b : String} : folding.nameOrder a b = .lt ↔
    folding.key a < folding.key b ∨ folding.key a = folding.key b ∧ a < b := by
  rw [nameOrder_eq, compareLex, Ordering.then_eq_lt, charsOrder_eq_lt_iff,
    LawfulEqCmp.compare_eq_iff_eq, codePointOrder, charsOrder_eq_lt_iff]
  rfl

end Folding

end Text

/-- The kinds of symbols in the order of reports. -/
def Symbol.kindRank : Symbol → Nat
  | .terminal _ => 0
  | .nonterminal _ => 1

/-- The number of a symbol among those of its kind. -/
def Symbol.number : Symbol → Nat
  | .terminal t => t.val
  | .nonterminal n => n.val

/-- A symbol is told by its kind and number. -/
theorem Symbol.ext_kindRank {x y : Symbol} (hkind : x.kindRank = y.kindRank)
    (hnumber : x.number = y.number) : x = y := by
  cases x <;> cases y
  · exact congrArg Symbol.terminal (Index.ext hnumber)
  · cases hkind
  · cases hkind
  · exact congrArg Symbol.nonterminal (Index.ext hnumber)

namespace Text.Folding

variable (folding : Folding) (g : Grammar)

/-- The order of symbols compares their kinds, their names and their numbers. -/
theorem symbolOrder_eq : folding.symbolOrder g =
    compareLex (compareOn Symbol.kindRank)
      (compareLex (fun x y => folding.nameOrder (g.symbolName x) (g.symbolName y))
        (compareOn Symbol.number)) := by
  funext x y
  cases x <;> cases y <;> rfl

instance : TransCmp (folding.symbolOrder g) := by
  have := transCmp_comap folding.nameOrder g.symbolName
  rw [symbolOrder_eq]
  infer_instance

instance : LawfulEqCmp (folding.symbolOrder g) where
  eq_of_compare {x y} h := by
    rw [symbolOrder_eq, compareLex_eq_eq, compareLex_eq_eq] at h
    exact Symbol.ext_kindRank (Nat.compare_eq_eq.mp h.1) (Nat.compare_eq_eq.mp h.2.2)

/-- Operators tie exactly if they compete for one place with one priority, under categories of the
same name in lower case. -/
theorem operatorOrder_eq_eq_iff {a b : Operator} : folding.operatorOrder a b = .eq ↔
    folding.fold a.categoryName.toList = folding.fold b.categoryName.toList ∧
      a.priority = b.priority ∧ a.name = b.name ∧ a.category = b.category ∧
      a.fixity = b.fixity := by
  have hcategory : folding.caselessOrder a.categoryName.toList b.categoryName.toList = .eq ↔
      folding.fold a.categoryName.toList = folding.fold b.categoryName.toList := by
    rw [caselessOrder, LawfulEqCmp.compare_eq_iff_eq]
  constructor
  · intro h
    have hslot := folding.sameSlot_of_operatorOrder h
    simp only [operatorOrder, Ordering.then_eq_eq] at h
    exact ⟨hcategory.mp h.1, Nat.compare_eq_eq.mp h.2.1, hslot⟩
  · rintro ⟨hfold, hpriority, hname, hcat, hfixity⟩
    simp only [operatorOrder, Ordering.then_eq_eq, hcategory, hpriority, hname, hcat, hfixity,
      ReflCmp.compare_self, hfold, and_self]

end Text.Folding

/-- The orders of reports are orders, whatever counts as a letter and whatever its lower case is.
Names are totally ordered, and only equal names tie: first by their characters from the first letter
or digit on, in lower case, and then by all their code points. The symbols of a grammar, declared or
not, are totally ordered, and only equal symbols tie, so that the terminals and the nonterminals in
the order of reports are the only ascending reorderings of those declared. Operators are totally
preordered, and those that tie agree in priority, name, category and fixity. The orders that are
used are those under the Unicode rules. -/
theorem report_orders_lawful (folding : Text.Folding) (g : Grammar) :
    (TransCmp folding.nameOrder ∧ (∀ a b, folding.nameOrder a b = .eq ↔ a = b) ∧
      ∀ a b, folding.nameOrder a b = .lt ↔
        folding.key a < folding.key b ∨ folding.key a = folding.key b ∧ a < b) ∧
    (∀ name : String, ∃ marks rest, name.toList = marks ++ rest ∧
      (∀ c ∈ marks, folding.isSignificant c = false) ∧
      (∀ c ∈ rest.head?, folding.isSignificant c = true) ∧
      folding.key name = rest.flatMap folding.lower) ∧
    (TransCmp (folding.symbolOrder g) ∧ ∀ x y, folding.symbolOrder g x y = .eq ↔ x = y) ∧
    (∀ ts, ts = folding.terminalsByName g ↔ ts.Perm g.terminalIds ∧
      ts.Pairwise fun a b => (folding.symbolOrder g (.terminal a) (.terminal b)).isLE = true) ∧
    (∀ ns, ns = folding.nonterminalsByName g ↔ ns.Perm g.nonterminalIds ∧
      ns.Pairwise fun a b =>
        (folding.symbolOrder g (.nonterminal a) (.nonterminal b)).isLE = true) ∧
    (TransCmp folding.operatorOrder ∧ ∀ a b : Operator, folding.operatorOrder a b = .eq ↔
      folding.fold a.categoryName.toList = folding.fold b.categoryName.toList ∧
        a.priority = b.priority ∧ a.name = b.name ∧ a.category = b.category ∧
        a.fixity = b.fixity) ∧
    Text.nameOrder = Text.unicode.nameOrder ∧ g.symbolOrder = Text.unicode.symbolOrder g ∧
    g.terminalsByName = Text.unicode.terminalsByName g ∧
    g.nonterminalsByName = Text.unicode.nonterminalsByName g ∧
    Operator.compare = Text.unicode.operatorOrder := by
  have htransT := transCmp_comap (folding.symbolOrder g) Symbol.terminal
  have htransN := transCmp_comap (folding.symbolOrder g) Symbol.nonterminal
  have hlawfulT :=
    lawfulEqCmp_comap (folding.symbolOrder g) Symbol.terminal fun _ _ => Symbol.terminal.inj
  have hlawfulN :=
    lawfulEqCmp_comap (folding.symbolOrder g) Symbol.nonterminal fun _ _ => Symbol.nonterminal.inj
  exact ⟨⟨inferInstance, fun _ _ => folding.nameOrder_eq_eq_iff,
      fun _ _ => folding.nameOrder_eq_lt_iff⟩, folding.exists_marks,
    ⟨inferInstance, fun _ _ => LawfulEqCmp.compare_eq_iff_eq⟩, fun _ => eq_sortBy_iff,
    fun _ => eq_sortBy_iff, ⟨inferInstance, fun _ _ => folding.operatorOrder_eq_eq_iff⟩,
    rfl, rfl, rfl, rfl, rfl⟩

end OperatorLALR
