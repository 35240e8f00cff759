import OperatorLALR.Index

/-!
# Sets of indices

A set of indices of one kind is kept as the bits of a natural number, so that two sets are equal
exactly when they have the same members (`IndexSet.ext_mem`). Membership after each operation is
given by one lemma: `mem_empty`, `mem_insert`, `mem_union`, `subset_iff`, `mem_toList`.
-/

namespace OperatorLALR

/-- A finite set of indices of one kind. -/
structure IndexSet (kind : IndexKind) where
  /-- Bit `i` tells whether index `i` is a member. -/
  bits : Nat
  deriving DecidableEq, Repr

/-- A set of terminals. -/
abbrev TerminalSet := IndexSet .terminal

/-- A set of nonterminals. -/
abbrev NonterminalSet := IndexSet .nonterminal

/-- A set of states. -/
abbrev StateSet := IndexSet .state

namespace IndexSet

variable {kind : IndexKind}

/-- The set without members. -/
def empty : IndexSet kind := ⟨0⟩

instance : EmptyCollection (IndexSet kind) := ⟨empty⟩
instance : Inhabited (IndexSet kind) := ⟨empty⟩

/-- Whether an index is a member. -/
def contains (s : IndexSet kind) (i : Index kind) : Bool := s.bits.testBit i.val

instance : Membership (Index kind) (IndexSet kind) := ⟨fun s i => s.contains i = true⟩

instance (i : Index kind) (s : IndexSet kind) : Decidable (i ∈ s) :=
  inferInstanceAs (Decidable (s.contains i = true))

/-- The set with one more member. -/
def insert (s : IndexSet kind) (i : Index kind) : IndexSet kind := ⟨s.bits ||| 1 <<< i.val⟩

/-- The set of the members of either set. -/
def union (s t : IndexSet kind) : IndexSet kind := ⟨s.bits ||| t.bits⟩

instance : Union (IndexSet kind) := ⟨union⟩

/-- Whether every member of the first set is a member of the second. -/
def isSubset (s t : IndexSet kind) : Bool := s.bits ||| t.bits == t.bits

/-- The number of indices whose bits are looked at together. -/
def wordSize : Nat := 64

/-- The members among the indices of a word, in ascending order. -/
def wordMembers (s : IndexSet kind) (word : Nat) : List Nat :=
  let bits := (s.bits >>> (wordSize * word)) % Nat.pow 2 wordSize
  ((List.range wordSize).filter bits.testBit).map (wordSize * word + ·)

/-- The members in ascending order. -/
def toList (s : IndexSet kind) : List (Index kind) :=
  ((List.range (s.bits.log2 / wordSize + 1)).flatMap s.wordMembers).map Index.mk

/-- The number of members. -/
def size (s : IndexSet kind) : Nat := s.toList.length

/-- Whether there is no member. -/
def isEmpty (s : IndexSet kind) : Bool := s.bits == 0

/-- The set with the indices of a list as further members. -/
def insertAll (s : IndexSet kind) (is : List (Index kind)) : IndexSet kind := is.foldl insert s

/-- The set of the indices of a list. -/
def ofList (is : List (Index kind)) : IndexSet kind := insertAll ∅ is

/-- Whether an insertion would enlarge the set, and the set after it. -/
def insertGrowing (s : IndexSet kind) (i : Index kind) : Bool × IndexSet kind :=
  (!s.contains i, s.insert i)

/-- Whether a union would enlarge the first set, and the set after it. -/
def unionGrowing (s t : IndexSet kind) : Bool × IndexSet kind := (!t.isSubset s, s ∪ t)

theorem mem_def {s : IndexSet kind} {i : Index kind} : i ∈ s ↔ s.bits.testBit i.val = true :=
  Iff.rfl

theorem contains_iff {s : IndexSet kind} {i : Index kind} : s.contains i = true ↔ i ∈ s := Iff.rfl

/-- Sets with the same members are equal. -/
theorem ext_mem {s t : IndexSet kind} (h : ∀ i : Index kind, i ∈ s ↔ i ∈ t) : s = t := by
  obtain ⟨a⟩ := s
  obtain ⟨b⟩ := t
  congr 1
  refine Nat.eq_of_testBit_eq fun k => ?_
  exact Bool.eq_iff_iff.mpr (h ⟨k⟩)

@[simp] theorem mem_empty (i : Index kind) : i ∉ (∅ : IndexSet kind) := by
  rw [mem_def]
  change ¬ Nat.testBit 0 i.val = true
  simp

@[simp] theorem mem_insert {s : IndexSet kind} {i j : Index kind} :
    i ∈ s.insert j ↔ i = j ∨ i ∈ s := by
  rw [mem_def, mem_def, insert, Nat.testBit_or, Nat.shiftLeft_eq, Nat.one_mul,
    Nat.testBit_two_pow, Bool.or_eq_true, decide_eq_true_iff, or_comm, Index.ext_iff, eq_comm]

@[simp] theorem mem_union {s t : IndexSet kind} {i : Index kind} : i ∈ s ∪ t ↔ i ∈ s ∨ i ∈ t := by
  rw [mem_def, mem_def, mem_def]
  change Nat.testBit (s.bits ||| t.bits) i.val = true ↔ _
  rw [Nat.testBit_or, Bool.or_eq_true]

/-- The subset test decides inclusion. -/
theorem isSubset_iff {s t : IndexSet kind} :
    s.isSubset t = true ↔ ∀ i : Index kind, i ∈ s → i ∈ t := by
  have hunion : s.isSubset t = true ↔ s ∪ t = t := by
    rw [isSubset, beq_iff_eq]
    obtain ⟨b⟩ := t
    exact (IndexSet.mk.injEq _ _).symm.to_iff
  rw [hunion]
  constructor
  · intro h i hi
    exact h ▸ mem_union.mpr (.inl hi)
  · intro h
    refine ext_mem fun i => ?_
    rw [mem_union]
    exact ⟨fun hi => hi.elim (h i) id, .inr⟩

theorem mem_wordMembers {s : IndexSet kind} {word k : Nat} :
    k ∈ s.wordMembers word ↔ s.bits.testBit k = true ∧ k / wordSize = word := by
  rw [wordMembers]
  simp only [wordSize, Nat.pow_eq, List.mem_map, List.mem_filter, List.mem_range,
    Nat.testBit_mod_two_pow, Nat.testBit_shiftRight, Bool.and_eq_true, decide_eq_true_eq]
  constructor
  · rintro ⟨j, ⟨hj, -, hbit⟩, rfl⟩
    exact ⟨hbit, by omega⟩
  · rintro ⟨hbit, rfl⟩
    refine ⟨k % 64, ⟨Nat.mod_lt _ (by decide), Nat.mod_lt _ (by decide), ?_⟩, Nat.div_add_mod k 64⟩
    rw [Nat.div_add_mod]
    exact hbit

@[simp] theorem mem_toList {s : IndexSet kind} {i : Index kind} : i ∈ s.toList ↔ i ∈ s := by
  obtain ⟨k⟩ := i
  rw [mem_def, toList]
  simp only [List.mem_map, List.mem_flatMap, List.mem_range, mem_wordMembers, Index.mk.injEq,
    exists_eq_right]
  refine ⟨fun ⟨_, _, hbit, _⟩ => hbit, fun hbit => ⟨k / wordSize, ?_, hbit, rfl⟩⟩
  have hle : 2 ^ k ≤ s.bits := Nat.ge_two_pow_of_testBit hbit
  have hpos : s.bits ≠ 0 := by
    have := Nat.two_pow_pos k
    omega
  exact Nat.lt_succ_of_le (Nat.div_le_div_right ((Nat.le_log2 hpos).mpr hle))

/-- The list of the members is strictly ascending. -/
theorem pairwise_toList (s : IndexSet kind) : s.toList.Pairwise (·.val < ·.val) := by
  rw [toList, List.pairwise_map, List.pairwise_flatMap]
  constructor
  · intro word _
    rw [wordMembers, List.pairwise_map]
    exact (List.pairwise_lt_range.filter _).imp fun h => Nat.add_lt_add_left h _
  · refine List.pairwise_lt_range.imp fun {v w} hlt i hi j hj => ?_
    obtain rfl := (mem_wordMembers.mp hi).2
    obtain rfl := (mem_wordMembers.mp hj).2
    exact Nat.lt_of_div_lt_div hlt

@[simp] theorem isEmpty_iff {s : IndexSet kind} : s.isEmpty = true ↔ s = ∅ := by
  obtain ⟨b⟩ := s
  rw [isEmpty, beq_iff_eq]
  exact (IndexSet.mk.injEq _ _).symm.to_iff

@[simp] theorem mem_insertAll {s : IndexSet kind} {is : List (Index kind)} {i : Index kind} :
    i ∈ s.insertAll is ↔ i ∈ is ∨ i ∈ s := by
  induction is generalizing s with
  | nil => simp [insertAll]
  | cons j is ih =>
    change i ∈ (s.insert j).insertAll is ↔ _
    rw [ih, mem_insert, List.mem_cons]
    exact or_left_comm.trans or_assoc.symm

@[simp] theorem mem_ofList {is : List (Index kind)} {i : Index kind} : i ∈ ofList is ↔ i ∈ is := by
  simp [ofList]

end IndexSet

end OperatorLALR
