import OperatorLALR.Operator.Basic
import OperatorLALR.SortedMap

/-!
# Operator tables

The operators defined at some moment, those of one name together in a bucket. A definition takes
away the operator with the same name, category and fixity if there is one, and puts the new operator
at its place in the bucket; a bucket from which the last operator is removed goes away
(`lookup_define`).
-/

namespace OperatorLALR

/-- The operators currently defined. -/
structure OperatorTable where
  /-- The buckets of the names, the names in the order of their code points. -/
  byName : SortedMap String (List Operator) Text.codePointOrder
  deriving DecidableEq, Repr

namespace OperatorTable

/-- The table without operators. -/
def empty : OperatorTable := ⟨∅⟩

instance : EmptyCollection OperatorTable := ⟨empty⟩
instance : Inhabited OperatorTable := ⟨empty⟩

/-- The operators with a given name, in the order of operators. -/
def lookup (table : OperatorTable) (name : String) : List Operator :=
  (table.byName.find? name).getD []

/-- The operator that a definition displaces. -/
def displaced (table : OperatorTable) (op : Operator) : Option Operator :=
  (table.lookup op.name).find? op.replaces

/-- The table after a definition. The bucket of the name is opened if there is none, and sorted
again with the new operator in it. An operator with priority zero only takes away the one that it
displaces, and the bucket if nothing is left in it. -/
def define (table : OperatorTable) (op : Operator) : OperatorTable :=
  let others := (table.lookup op.name).eraseP op.replaces
  if 0 < op.priority then
    ⟨table.byName.insert op.name (sortBy Operator.compare (others ++ [op]))⟩
  else if others.isEmpty then ⟨table.byName.erase op.name⟩
  else ⟨table.byName.insert op.name others⟩

/-- The table after some definitions, one after the other, in a table without operators. -/
def ofDefinitions (ops : List Operator) : OperatorTable := ops.foldl define ∅

/-- The names with a bucket. -/
def names (table : OperatorTable) : List String := table.byName.keys

/-- All operators, bucket by bucket. -/
def toList (table : OperatorTable) : List Operator := table.byName.values.flatten

/-- The number of operators. -/
def size (table : OperatorTable) : Nat :=
  table.byName.values.foldr (fun bucket rest => bucket.length + rest) 0

/-- Whether there is no bucket. -/
def isEmpty (table : OperatorTable) : Bool := table.byName.entries.isEmpty

/-- The operators in their own order, whatever their names. -/
def sorted (table : OperatorTable) : List Operator := sortBy Operator.compare table.toList

variable {table : OperatorTable} {op other : Operator}

/-- A definition leaves the others in the bucket of its name, and adds the operator at its place
unless its priority is zero. The other buckets stay as they are. -/
theorem lookup_define (table : OperatorTable) (op : Operator) (name : String) :
    (table.define op).lookup name =
      if op.name = name then
        if 0 < op.priority then
          sortBy Operator.compare ((table.lookup op.name).eraseP op.replaces ++ [op])
        else (table.lookup op.name).eraseP op.replaces
      else table.lookup name := by
  unfold define
  dsimp only
  split
  · rw [lookup, SortedMap.find?_insert]
    split <;> rfl
  · split
    · next hnil =>
      rw [lookup, SortedMap.find?_erase]
      split
      · exact (List.isEmpty_iff.mp hnil).symm
      · rfl
    · rw [lookup, SortedMap.find?_insert]
      split <;> rfl

/-- The operators of a table are those that look-ups find. -/
theorem mem_toList : op ∈ table.toList ↔ ∃ name, op ∈ table.lookup name := by
  rw [toList, List.mem_flatten]
  constructor
  · rintro ⟨bucket, hbucket, hop⟩
    obtain ⟨name, hname⟩ := SortedMap.mem_values.mp hbucket
    refine ⟨name, ?_⟩
    rw [lookup, hname]
    exact hop
  · rintro ⟨name, hop⟩
    rw [lookup] at hop
    cases hname : table.byName.find? name with
    | none =>
      rw [hname] at hop
      cases hop
    | some bucket =>
      rw [hname] at hop
      exact ⟨bucket, SortedMap.mem_values.mpr ⟨name, hname⟩, hop⟩

/-- What a look-up finds is in the table. -/
theorem mem_of_mem_lookup {name : String} (h : op ∈ table.lookup name) : op ∈ table.toList :=
  mem_toList.mpr ⟨name, h⟩

/-- An operator that is defined with a positive priority is in the table. -/
theorem mem_define_self (h : 0 < op.priority) : op ∈ (table.define op).toList := by
  refine mem_toList.mpr ⟨op.name, ?_⟩
  rw [lookup_define, if_pos rfl, if_pos h, mem_sortBy]
  exact List.mem_append_right _ (List.mem_singleton.mpr rfl)

/-- A definition adds no operator but its own. -/
theorem eq_or_mem_of_mem_define (h : other ∈ (table.define op).toList) :
    other = op ∨ other ∈ table.toList := by
  obtain ⟨name, hname⟩ := mem_toList.mp h
  rw [lookup_define] at hname
  split at hname
  · have hothers : ∀ x ∈ (table.lookup op.name).eraseP op.replaces, x ∈ table.toList :=
      fun x hx => mem_of_mem_lookup (List.mem_of_mem_eraseP hx)
    split at hname
    · rcases List.mem_append.mp (mem_sortBy.mp hname) with hold | hnew
      · exact .inr (hothers other hold)
      · exact .inl (List.mem_singleton.mp hnew)
    · exact .inr (hothers other hname)
  · exact .inr (mem_of_mem_lookup hname)

end OperatorTable

end OperatorLALR
