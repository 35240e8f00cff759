import Mathlib.Data.List.Induction
import Mathlib.Data.List.Nodup
import OperatorLALR.Proofs.Operators.Tables

/-!
# What definitions leave in a table

Operators with the same name, category and fixity compete for one slot of a table. After any
definitions a slot holds the last operator that was defined for it, unless this one has priority
zero (`mem_ofDefinitions`). The buckets of the table hold what the slots of their names hold in
ascending order, and a name of which no slot holds anything has no bucket, so that nothing else
about the definitions matters, their order included (`definitions_decide`).
-/

namespace OperatorLALR

open Std

/-- What operators compete for: a name in a category, with a place among the arguments. -/
structure Slot where
  name : String
  category : NonterminalId
  fixity : Fixity
  deriving DecidableEq, Repr

/-- The slot of an operator. -/
def Operator.slot (op : Operator) : Slot := ⟨op.name, op.category, op.fixity⟩

/-- Operators compete if they have the same slot. -/
theorem Operator.sameSlot_iff {a b : Operator} : a.SameSlot b ↔ a.slot = b.slot := by
  rw [slot, slot, Slot.mk.injEq, SameSlot]

/-- The last operator that is defined for a slot. -/
def Slot.lastDefined? (slot : Slot) (ops : List Operator) : Option Operator :=
  ops.reverse.find? fun op => decide (op.slot = slot)

/-- What definitions leave in a slot: the last operator that is defined for it, unless this one has
priority zero. -/
def Slot.holder? (slot : Slot) (ops : List Operator) : Option Operator :=
  (slot.lastDefined? ops).filter fun op => decide (0 < op.priority)

namespace Slot

variable {slot : Slot} {ops : List Operator} {op : Operator}

/-- One more definition decides on its own slot and leaves the others as they are. -/
theorem holder?_append_singleton :
    slot.holder? (ops ++ [op]) =
      if op.slot = slot then (if op.priority = 0 then none else some op) else slot.holder? ops := by
  rw [holder?, lastDefined?, List.reverse_append, List.reverse_singleton, List.singleton_append,
    List.find?_cons]
  by_cases hslot : op.slot = slot
  · rw [if_pos hslot, decide_eq_true hslot]
    by_cases hpriority : op.priority = 0
    · simp [Option.filter, hpriority]
    · simp [Option.filter, hpriority, Nat.pos_of_ne_zero hpriority]
  · rw [if_neg hslot, decide_eq_false hslot, holder?, lastDefined?]

/-- What a slot holds has been defined for this slot. -/
theorem slot_of_holder? (h : slot.holder? ops = some op) : op.slot = slot := by
  obtain ⟨hlast, -⟩ := Option.filter_eq_some_iff.mp h
  exact of_decide_eq_true (List.find?_some hlast :)

/-- A slot for which nothing has been defined holds nothing. -/
theorem holder?_eq_none (h : ∀ op ∈ ops, op.slot ≠ slot) : slot.holder? ops = none := by
  have hlast : slot.lastDefined? ops = none := List.find?_eq_none.mpr fun op hop => by
    simpa using h op (List.mem_reverse.mp hop)
  rw [holder?, hlast]
  rfl

end Slot

namespace OperatorTable

variable {table : OperatorTable} {name : String} {slot : Slot} {ops : List Operator}
  {op : Operator}

/-- One more definition is made in the table after the others. -/
theorem ofDefinitions_append_singleton :
    ofDefinitions (ops ++ [op]) = (ofDefinitions ops).define op := by
  rw [ofDefinitions, List.foldl_append, List.foldl_cons, List.foldl_nil, ← ofDefinitions]

/-- Definitions leave a table tidy. -/
theorem tidy_ofDefinitions (ops : List Operator) : (ofDefinitions ops).Tidy := by
  induction ops using List.reverseRecOn with
  | nil => exact .empty
  | append_singleton ops op ih =>
    rw [ofDefinitions_append_singleton]
    exact ih.define op

/-- After some definitions a table holds what they leave in each slot. -/
theorem mem_ofDefinitions : op ∈ (ofDefinitions ops).toList ↔ op.slot.holder? ops = some op := by
  induction ops using List.reverseRecOn with
  | nil => exact iff_of_false (by exact List.not_mem_nil) nofun
  | append_singleton ops last ih =>
    rw [ofDefinitions_append_singleton, (tidy_ofDefinitions ops).mem_define,
      Slot.holder?_append_singleton, ih, Operator.sameSlot_iff, Nat.pos_iff_ne_zero]
    by_cases hslot : last.slot = op.slot
    · rw [if_pos hslot]
      by_cases hpriority : last.priority = 0
      · simp [hpriority, hslot]
      · simp [hpriority, hslot, eq_comm]
    · have hne : op ≠ last := fun heq => hslot (heq ▸ rfl)
      simp [hslot, hne, Ne.symm hslot]

/-- A slot holds one operator at most. -/
theorem eq_of_slot_eq {a b : Operator} (ha : a ∈ (ofDefinitions ops).toList)
    (hb : b ∈ (ofDefinitions ops).toList) (h : a.slot = b.slot) : a = b := by
  rw [mem_ofDefinitions] at ha hb
  exact Option.some.inj (ha.symm.trans (h ▸ hb))

/-- A table lists its operators name by name. -/
theorem toList_eq (table : OperatorTable) : table.toList = table.names.flatMap table.lookup := by
  have hentry : ∀ e ∈ table.byName.entries, e.2 = table.lookup e.1 := fun e he => by
    rw [lookup, SortedMap.find?_eq_some_iff.mpr he]
    rfl
  rw [toList, names, SortedMap.values, SortedMap.keys, List.flatMap_map, ← List.flatMap_def]
  exact List.flatMap_congr hentry

/-- The names with a bucket come in ascending order. -/
theorem pairwise_names (table : OperatorTable) :
    table.names.Pairwise fun a b => Text.codePointOrder a b = .lt :=
  List.pairwise_map.mpr table.byName.ascending

/-- A tidy table lists no operator twice. -/
theorem Tidy.nodup_toList (h : table.Tidy) : table.toList.Nodup := by
  rw [toList_eq, List.nodup_flatMap]
  refine ⟨fun name _ => (h.ascending name).imp fun {a b} hlt heq => ?_,
    table.pairwise_names.imp fun {a b} hlt x hx hx' => ?_⟩
  · rw [heq, @ReflCmp.compare_self _ Operator.compare] at hlt
    cases hlt
  · exact SortedMap.ne_of_lt hlt ((h.named b x hx').symm.trans (h.named a x hx))

/-- The operators of a name in one slot are what the slot holds. -/
theorem mem_lookup_ofDefinitions :
    op ∈ (ofDefinitions ops).lookup slot.name ∧ op.slot = slot ↔ slot.holder? ops = some op := by
  rw [(tidy_ofDefinitions ops).mem_lookup]
  constructor
  · rintro ⟨hop, rfl⟩
    exact mem_ofDefinitions.mp hop.1
  · intro h
    obtain rfl := Slot.slot_of_holder? h
    exact ⟨⟨mem_ofDefinitions.mpr h, rfl⟩, rfl⟩

/-- A definition displaces what the slot of its operator holds. -/
theorem displaced_ofDefinitions : (ofDefinitions ops).displaced op = op.slot.holder? ops := by
  have hrival : ∀ other ∈ (ofDefinitions ops).lookup op.name,
      op.replaces other = true ↔ other.slot = op.slot := fun other hother => by
    have hname : other.name = op.name := (tidy_ofDefinitions ops).named _ other hother
    rw [Operator.replaces_comm, Operator.replaces_iff, ← Operator.sameSlot_iff, Operator.SameSlot,
      and_iff_right hname]
  -- what is found in the bucket is in it, in the slot of the operator
  have hheld : ∀ other, ((ofDefinitions ops).lookup op.name).find? op.replaces = some other →
      op.slot.holder? ops = some other := fun other hother => by
    have hmem := List.mem_of_find?_eq_some hother
    have hfound : op.replaces other = true := List.find?_some hother
    exact mem_lookup_ofDefinitions.mp ⟨hmem, (hrival other hmem).mp hfound⟩
  rw [displaced]
  ext other
  refine ⟨hheld other, fun h => ?_⟩
  obtain ⟨hmem, hslot⟩ := mem_lookup_ofDefinitions.mpr h
  obtain ⟨found, hfound⟩ := Option.isSome_iff_exists.mp
    (List.find?_isSome.mpr ⟨other, hmem, (hrival other hmem).mpr hslot⟩)
  exact hfound.trans ((hheld found hfound).symm.trans h)

/-- The size of a table counts the operators in its list. -/
theorem size_eq (table : OperatorTable) : table.size = table.toList.length := by
  rw [toList, List.length_flatten, List.sum, List.foldr_map, size]

/-- The operators of a table are as many as the slots that hold one. -/
theorem exists_slots (ops : List Operator) :
    ∃ slots : List Slot, slots.Nodup ∧ (∀ slot, slot ∈ slots ↔ (slot.holder? ops).isSome) ∧
      (ofDefinitions ops).size = slots.length := by
  refine ⟨(ofDefinitions ops).toList.map Operator.slot, ?_, fun slot => ?_, ?_⟩
  · exact List.Nodup.map_on (fun a ha b hb heq => eq_of_slot_eq ha hb heq)
      (tidy_ofDefinitions ops).nodup_toList
  · rw [List.mem_map, Option.isSome_iff_exists]
    constructor
    · rintro ⟨op, hop, rfl⟩
      exact ⟨op, mem_ofDefinitions.mp hop⟩
    · rintro ⟨op, hop⟩
      obtain rfl := Slot.slot_of_holder? hop
      exact ⟨op, mem_ofDefinitions.mpr hop, rfl⟩
  · rw [List.length_map, size_eq]

/-- A tidy table is without buckets exactly if it is without operators. -/
theorem Tidy.isEmpty_iff (h : table.Tidy) : table.isEmpty = true ↔ table.size = 0 := by
  rw [size_eq, List.length_eq_zero_iff, toList_eq, List.flatMap_eq_nil_iff, isEmpty,
    List.isEmpty_iff, ← List.map_eq_nil_iff (f := Prod.fst)]
  change table.names = [] ↔ _
  rw [List.eq_nil_iff_forall_not_mem]
  exact forall_congr' fun name => ⟨fun hno hname => absurd hname hno,
    fun hnil hname => h.mem_names.mp hname (hnil hname)⟩

/-- Definitions that leave the same in each slot give the same table. -/
theorem ofDefinitions_eq_iff {ops' : List Operator} :
    ofDefinitions ops' = ofDefinitions ops ↔
      ∀ slot : Slot, slot.holder? ops' = slot.holder? ops := by
  constructor
  · intro h slot
    ext op
    rw [← mem_lookup_ofDefinitions, ← mem_lookup_ofDefinitions, h]
  · intro h
    refine (tidy_ofDefinitions ops').ext (tidy_ofDefinitions ops) fun op => ?_
    rw [mem_ofDefinitions, mem_ofDefinitions, h]

/-- A table is a function of the last definition in each slot. Whatever operators are defined one
after the other in an empty table, a lookup finds in each slot of its name the last operator that
was defined there, if its priority is positive, and nothing else, in strictly ascending order. The
next definition displaces what its slot holds. No name has an empty bucket: the names with one are
those that a lookup finds operators for, in ascending order, and the table lists its operators name
by name. There are as many operators as slots that hold one, and no bucket is left exactly if there
are none. And other definitions give the same table, in the same order, exactly if they leave the
same in every slot. -/
theorem definitions_decide (ops : List Operator) :
    (∀ (slot : Slot) (op : Operator),
      op ∈ (ofDefinitions ops).lookup slot.name ∧ op.slot = slot ↔
        slot.lastDefined? ops = some op ∧ 0 < op.priority) ∧
    (∀ name, (∀ op ∈ (ofDefinitions ops).lookup name, op.name = name) ∧
      ((ofDefinitions ops).lookup name).Pairwise fun a b => a.compare b = .lt) ∧
    (∀ op, (ofDefinitions ops).displaced op = op.slot.holder? ops) ∧
    ((∀ name, (ofDefinitions ops).byName.find? name ≠ some []) ∧
      (∀ name, name ∈ (ofDefinitions ops).names ↔ (ofDefinitions ops).lookup name ≠ []) ∧
      (ofDefinitions ops).names.Pairwise (fun a b => Text.codePointOrder a b = .lt) ∧
      (ofDefinitions ops).toList =
        (ofDefinitions ops).names.flatMap (ofDefinitions ops).lookup) ∧
    (∃ slots : List Slot, slots.Nodup ∧ (∀ slot, slot ∈ slots ↔ (slot.holder? ops).isSome) ∧
      (ofDefinitions ops).size = slots.length) ∧
    ((ofDefinitions ops).isEmpty = true ↔ (ofDefinitions ops).size = 0) ∧
    ∀ ops', ofDefinitions ops' = ofDefinitions ops ↔
      ∀ slot : Slot, slot.holder? ops' = slot.holder? ops := by
  have htidy := tidy_ofDefinitions ops
  refine ⟨fun slot op => ?_, fun name => ⟨htidy.named name, htidy.ascending name⟩,
    fun _ => displaced_ofDefinitions,
    ⟨htidy.filled, fun _ => htidy.mem_names, pairwise_names _, toList_eq _⟩,
    exists_slots ops, htidy.isEmpty_iff, fun _ => ofDefinitions_eq_iff⟩
  rw [mem_lookup_ofDefinitions, Slot.holder?, Option.filter_eq_some_iff, decide_eq_true_iff]

/-- A minus of an expression. -/
def minus (specifier : Specifier) (priority : Nat) : Operator :=
  ⟨"-", ⟨1⟩, "expr", specifier, priority, ⟨2⟩⟩

/-- Of an infix minus that is defined twice and a prefix minus that is removed, the second infix
minus is left, as if nothing else had been defined. When it is removed too, the bucket goes with
it. -/
theorem definitions_decide_minus :
    let ops := [minus .yfx 500, minus .fy 200, minus .xfx 700, minus .fy 0]
    minus .xfx 700 ∈ (ofDefinitions ops).lookup "-" ∧
      ofDefinitions [minus .xfx 700] = ofDefinitions ops ∧
      (ofDefinitions ops).displaced (minus .xfx 0) = some (minus .xfx 700) ∧
      "-" ∉ (ofDefinitions (ops ++ [minus .xfx 0])).names ∧
      (ofDefinitions (ops ++ [minus .xfx 0])).isEmpty = true := by
  intro ops
  obtain ⟨hlookup, -, hdisplaced, -, -, -, hsame⟩ := definitions_decide ops
  obtain ⟨-, -, -, ⟨-, hnames, -, -⟩, -, hempty, -⟩ := definitions_decide (ops ++ [minus .xfx 0])
  refine ⟨((hlookup ⟨"-", ⟨1⟩, .infixOp⟩ _).mpr ⟨by decide, by decide⟩).1,
    (hsame _).mpr fun slot => ?_, (hdisplaced _).trans (by decide), ?_, hempty.mpr ?_⟩
  · by_cases hmiddle : (minus .xfx 700).slot = slot
    · subst hmiddle
      decide
    · by_cases hfront : (minus .fy 200).slot = slot
      · subst hfront
        decide
      · have hother : ∀ op ∈ ops, op.slot ≠ slot := by
          simp only [ops, List.forall_mem_cons, List.not_mem_nil, false_implies, implies_true]
          exact ⟨hmiddle, hfront, hmiddle, hfront, trivial⟩
        rw [Slot.holder?_eq_none hother]
        exact Slot.holder?_eq_none fun op hop => List.mem_singleton.mp hop ▸ hmiddle
  · rw [hnames]
    decide +kernel
  · decide +kernel

end OperatorTable

end OperatorLALR
