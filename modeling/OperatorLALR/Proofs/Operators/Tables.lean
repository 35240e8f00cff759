import OperatorLALR.Operator.Table
import OperatorLALR.Proofs.Sorting

/-!
# Tables do not depend on the order of definitions

Definitions keep a table `Tidy`: each bucket holds operators of its name that do not compete for one
place, in ascending order, and no bucket is empty. Such a table is told by the operators that it
holds (`Tidy.ext`). Hence definitions of operators that do not compete may be exchanged
(`Tidy.define_comm`), and any reordering of operators of which no two compete gives the same table
(`Tidy.foldl_define_perm`).
-/

namespace OperatorLALR

open Std

instance {kind : IndexKind} : TransOrd (Index kind) :=
  transCmp_comap Ord.compare Index.val

/-- Different places have different ranks. -/
theorem Fixity.rank_injective {a b : Fixity} (h : a.rank = b.rank) : a = b := by
  cases a <;> cases b <;> first | rfl | cases h

namespace Text.Folding

variable (folding : Folding)

/-- The order of operators compares one property after the other. -/
theorem operatorOrder_eq : folding.operatorOrder =
    compareLex (fun a b => folding.caselessOrder a.categoryName.toList b.categoryName.toList)
      (compareLex (compareOn Operator.priority)
        (compareLex (fun a b => folding.caselessOrder a.name.toList b.name.toList)
          (compareLex (fun a b => codePointOrder a.name b.name)
            (compareLex (compareOn Operator.category) (compareOn fun op => op.fixity.rank))))) :=
  rfl

instance : TransCmp folding.operatorOrder := by
  have := transCmp_comap folding.caselessOrder fun op : Operator => op.categoryName.toList
  have := transCmp_comap folding.caselessOrder fun op : Operator => op.name.toList
  have := transCmp_comap codePointOrder Operator.name
  rw [operatorOrder_eq]
  infer_instance

/-- Operators between which the order does not decide compete for one place. -/
theorem sameSlot_of_operatorOrder {a b : Operator} (h : folding.operatorOrder a b = .eq) :
    a.SameSlot b := by
  simp only [operatorOrder, Ordering.then_eq_eq] at h
  obtain ⟨-, -, -, hname, hcategory, hfixity⟩ := h
  exact ⟨LawfulEqCmp.eq_of_compare hname, Index.ext (Nat.compare_eq_eq.mp hcategory),
    Fixity.rank_injective (Nat.compare_eq_eq.mp hfixity)⟩

end Text.Folding

namespace Operator

variable {a b : Operator}

instance : TransCmp Operator.compare := inferInstanceAs (TransCmp Text.unicode.operatorOrder)

theorem SameSlot.symm (h : a.SameSlot b) : b.SameSlot a := ⟨h.1.symm, h.2.1.symm, h.2.2.symm⟩

/-- Operators between which the order does not decide compete for one place. -/
theorem sameSlot_of_compare (h : a.compare b = .eq) : a.SameSlot b :=
  Text.unicode.sameSlot_of_operatorOrder h

/-- Operators that compete replace each other. -/
theorem SameSlot.replaces (h : a.SameSlot b) : a.replaces b = true := replaces_iff.mpr h.2

end Operator

/-- If no two elements are erased, erasing the first of those that may be erases all of them. -/
theorem eraseP_eq_filter {α : Type} {p : α → Bool} {xs : List α}
    (h : xs.Pairwise fun a b => ¬ (p a = true ∧ p b = true)) :
    xs.eraseP p = xs.filter fun x => !p x := by
  induction xs with
  | nil => rfl
  | cons x xs ih =>
    obtain ⟨hx, hxs⟩ := List.pairwise_cons.mp h
    cases hp : p x with
    | true =>
      rw [List.eraseP_cons_of_pos hp, List.filter_cons_of_neg (by simp [hp])]
      exact (List.filter_eq_self.mpr fun y hy => by simpa [hp] using hx y hy).symm
    | false =>
      rw [List.eraseP_cons_of_neg (by simp [hp]), List.filter_cons_of_pos (by simp [hp]), ih hxs]

namespace OperatorTable

variable {table table' : OperatorTable} {a b op other : Operator} {ops ops' : List Operator}
  {name : String}

/-- What definitions keep of a table. -/
structure Tidy (table : OperatorTable) : Prop where
  named : ∀ name, ∀ op ∈ table.lookup name, op.name = name
  /-- No two operators of a name compete for one place. -/
  apart : ∀ name, (table.lookup name).Pairwise fun a b => ¬ a.replaces b
  ascending : ∀ name, (table.lookup name).Pairwise fun a b => a.compare b = .lt
  filled : ∀ name, table.byName.find? name ≠ some []

namespace Tidy

/-- The table without operators is tidy. -/
theorem empty : Tidy ∅ where
  named _ := nofun
  apart _ := .nil
  ascending _ := .nil
  filled _ := nofun

/-- What a look-up finds are the operators of the name. -/
theorem mem_lookup (h : table.Tidy) :
    op ∈ table.lookup name ↔ op ∈ table.toList ∧ op.name = name := by
  constructor
  · exact fun hop => ⟨mem_of_mem_lookup hop, h.named name op hop⟩
  · rintro ⟨hop, rfl⟩
    obtain ⟨name, hname⟩ := mem_toList.mp hop
    rwa [h.named name op hname]

/-- At most one operator of a bucket is in the way of a definition, so that none is left. -/
theorem eraseP_eq (h : table.Tidy) (op : Operator) :
    (table.lookup op.name).eraseP op.replaces =
      (table.lookup op.name).filter fun other => !op.replaces other := by
  refine eraseP_eq_filter ((h.apart op.name).imp fun {a b} hab => ?_)
  rintro ⟨ha, hb⟩
  obtain ⟨hacat, hafix⟩ := Operator.replaces_iff.mp ha
  obtain ⟨hbcat, hbfix⟩ := Operator.replaces_iff.mp hb
  exact hab (Operator.replaces_iff.mpr ⟨hacat.symm.trans hbcat, hafix.symm.trans hbfix⟩)

/-- An operator competes with none of those that its definition leaves in the bucket. -/
theorem apart_concat (h : table.Tidy) (op : Operator) :
    ((table.lookup op.name).eraseP op.replaces ++ [op]).Pairwise fun a b => ¬ a.replaces b := by
  rw [h.eraseP_eq]
  refine List.pairwise_append.mpr ⟨(h.apart _).filter _, List.pairwise_singleton _ _, ?_⟩
  intro a ha b hb
  rw [List.mem_singleton.mp hb, Operator.replaces_comm]
  simpa using (List.mem_filter.mp ha).2

/-- The bucket in which an operator is put at its place. -/
theorem ascending_sortBy {bucket : List Operator} (h : bucket.Pairwise fun a b => ¬ a.replaces b) :
    (sortBy Operator.compare bucket).Pairwise fun a b => a.compare b = .lt := by
  have huntied : bucket.Pairwise fun a b => a.compare b ≠ .eq :=
    h.imp fun hab heq => hab (Operator.sameSlot_of_compare heq).replaces
  exact (pairwise_sortBy huntied).imp fun hbefore =>
    hbefore.elim id fun ⟨heq, hne⟩ => absurd heq hne

/-- A definition keeps a table tidy. -/
theorem define (h : table.Tidy) (op : Operator) : (table.define op).Tidy := by
  have hsub := List.eraseP_sublist (p := op.replaces) (l := table.lookup op.name)
  have hapart := h.apart_concat op
  refine ⟨fun name x hx => ?_, fun name => ?_, fun name => ?_, fun name => ?_⟩
  · rw [lookup_define] at hx
    split at hx
    · next hname =>
      subst hname
      split at hx
      · rcases List.mem_append.mp (mem_sortBy.mp hx) with hold | hnew
        · exact h.named _ x (hsub.subset hold)
        · rw [List.mem_singleton.mp hnew]
      · exact h.named _ x (hsub.subset hx)
    · exact h.named name x hx
  · rw [lookup_define]
    split
    · split
      · refine ((sortBy_perm _ _).symm.pairwise hapart fun hab hba => hab ?_)
        rwa [Operator.replaces_comm]
      · exact (h.apart _).sublist hsub
    · exact h.apart name
  · rw [lookup_define]
    split
    · split
      · exact ascending_sortBy hapart
      · exact (h.ascending _).sublist hsub
    · exact h.ascending name
  · unfold OperatorTable.define
    dsimp only
    split
    · rw [SortedMap.find?_insert]
      split
      · intro hnil
        have hop : op ∈ ([] : List Operator) := Option.some.inj hnil ▸
          mem_sortBy.mpr (List.mem_append_right _ (List.mem_singleton.mpr rfl))
        cases hop
      · exact h.filled name
    · split
      · rw [SortedMap.find?_erase]
        split
        · exact (Option.some_ne_none _).symm
        · exact h.filled name
      · next hothers =>
        rw [SortedMap.find?_insert]
        split
        · exact fun hnil => hothers (List.isEmpty_iff.mpr (Option.some.inj hnil))
        · exact h.filled name

/-- Each operator of a table stands in the bucket of its name. -/
theorem mem_toList_iff (h : table.Tidy) : op ∈ table.toList ↔ op ∈ table.lookup op.name :=
  (and_iff_left rfl).symm.trans h.mem_lookup.symm

/-- A definition leaves those operators of its name that do not compete with its own. -/
theorem mem_eraseP (h : table.Tidy) : other ∈ (table.lookup op.name).eraseP op.replaces ↔
    other ∈ table.lookup op.name ∧ ¬ other.SameSlot op := by
  rw [h.eraseP_eq, List.mem_filter]
  refine and_congr_right fun hother => ?_
  have hname : other.name = op.name := h.named _ other hother
  rw [Operator.SameSlot, and_iff_right hname, ← Operator.replaces_iff, Operator.replaces_comm,
    Bool.not_eq_true', Bool.not_eq_true]

/-- After a definition a table holds the operator, unless its priority is zero, and all earlier
operators with another name, category or fixity. -/
theorem mem_define (h : table.Tidy) : other ∈ (table.define op).toList ↔
    (0 < op.priority ∧ other = op) ∨ (other ∈ table.toList ∧ ¬ other.SameSlot op) := by
  rw [(h.define op).mem_toList_iff, lookup_define]
  by_cases hname : op.name = other.name
  · rw [if_pos hname, h.mem_toList_iff, ← hname, ← h.mem_eraseP]
    by_cases hpriority : 0 < op.priority
    · rw [if_pos hpriority, mem_sortBy, List.mem_append, List.mem_singleton,
        and_iff_right hpriority, or_comm]
    · rw [if_neg hpriority, or_iff_right fun hnew => hpriority hnew.1]
  · have hne : other ≠ op := fun heq => hname (heq ▸ rfl)
    have hslot : ¬ other.SameSlot op := fun hslot => hname hslot.1.symm
    rw [if_neg hname, ← h.mem_toList_iff, or_iff_right fun hnew => hne hnew.2, and_iff_left hslot]

/-- No name has an empty bucket, so that a bucket is there where a look-up finds something. -/
theorem find?_eq_some (h : table.Tidy) {bucket : List Operator} :
    table.byName.find? name = some bucket ↔ table.lookup name = bucket ∧ bucket ≠ [] := by
  have hfilled := h.filled name
  rw [lookup]
  cases hfind : table.byName.find? name with
  | none => simp
  | some found =>
    rw [hfind] at hfilled
    constructor
    · rintro hsome
      obtain rfl := Option.some.inj hsome
      exact ⟨rfl, fun hnil => hfilled (congrArg some hnil)⟩
    · rintro ⟨rfl, -⟩
      rfl

/-- A name has a bucket exactly if a look-up finds something. -/
theorem mem_names (h : table.Tidy) : name ∈ table.names ↔ table.lookup name ≠ [] := by
  rw [names, SortedMap.mem_keys, Option.ne_none_iff_exists']
  simp only [h.find?_eq_some]
  exact ⟨fun ⟨_, hlookup, hne⟩ => hlookup ▸ hne, fun hne => ⟨_, rfl, hne⟩⟩

/-- A table is told by its operators. -/
theorem ext (h : table.Tidy) (h' : table'.Tidy)
    (hmem : ∀ op, op ∈ table.toList ↔ op ∈ table'.toList) : table = table' := by
  have hlookup : ∀ name, table.lookup name = table'.lookup name := fun name =>
    eq_of_ascending (h.ascending name) (h'.ascending name) fun op => by
      rw [h.mem_lookup, h'.mem_lookup, hmem]
  have hbyName : table.byName = table'.byName := SortedMap.ext fun name => by
    ext bucket
    rw [h.find?_eq_some, h'.find?_eq_some, hlookup]
  obtain ⟨byName⟩ := table
  exact congrArg OperatorTable.mk hbyName

/-- What two operators that do not compete leave in a table, they leave in it in the other order. -/
theorem mem_define_comm (h : table.Tidy) (hab : ¬ a.SameSlot b)
    (hop : op ∈ ((table.define a).define b).toList) :
    op ∈ ((table.define b).define a).toList := by
  rw [(h.define _).mem_define, h.mem_define] at hop ⊢
  rcases hop with ⟨hp, rfl⟩ | ⟨⟨hp, rfl⟩ | ⟨hop, ha⟩, hb⟩
  · exact .inr ⟨.inl ⟨hp, rfl⟩, fun hba => hab hba.symm⟩
  · exact .inl ⟨hp, rfl⟩
  · exact .inr ⟨.inr ⟨hop, hb⟩, ha⟩

/-- Definitions of operators that do not compete may be exchanged. -/
theorem define_comm (h : table.Tidy) (hab : ¬ a.SameSlot b) :
    (table.define a).define b = (table.define b).define a :=
  ((h.define a).define b).ext ((h.define b).define a) fun _ =>
    ⟨h.mem_define_comm hab, h.mem_define_comm fun hba => hab hba.symm⟩

/-- A definition may be made before others with which it does not compete. -/
theorem foldl_define_comm (h : table.Tidy) (hne : ∀ other ∈ ops, ¬ other.SameSlot op) :
    ops.foldl OperatorTable.define (table.define op) =
      (ops.foldl OperatorTable.define table).define op := by
  induction ops generalizing table with
  | nil => rfl
  | cons other ops ih =>
    obtain ⟨hother, hops⟩ := List.forall_mem_cons.mp hne
    rw [List.foldl_cons, List.foldl_cons, ← ih (h.define other) hops, h.define_comm hother]

/-- Operators of which no two compete give the same table in any order. -/
theorem foldl_define_perm (h : table.Tidy) (hperm : ops.Perm ops')
    (hne : ops.Pairwise fun a b => ¬ a.SameSlot b) :
    ops.foldl OperatorTable.define table = ops'.foldl OperatorTable.define table := by
  induction hperm generalizing table with
  | nil => rfl
  | cons op _ ih => exact ih (h.define op) (List.pairwise_cons.mp hne).2
  | swap a b ops =>
    have hba := (List.pairwise_cons.mp hne).1 a List.mem_cons_self
    rw [List.foldl_cons, List.foldl_cons, List.foldl_cons, List.foldl_cons, h.define_comm hba]
  | trans hperm _ ih ih' =>
    exact (ih h hne).trans (ih' h (hperm.pairwise hne fun hab hba => hab hba.symm))

end Tidy

end OperatorTable

end OperatorLALR
