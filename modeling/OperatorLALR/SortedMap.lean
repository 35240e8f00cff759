import OperatorLALR.Sorting

/-!
# Finite maps in ascending order of keys

A finite map lists its keys in ascending order, and the type carries that it does. So a map is told
by its look-ups (`ext`), and `find?_insert` and `find?_erase` say what a change does to every one of
them.
-/

namespace OperatorLALR

open Std

/-- A finite map with its keys in ascending order. -/
structure SortedMap (κ ν : Type) (cmp : κ → κ → Ordering) where
  /-- The keys with their values. -/
  entries : List (κ × ν)
  ascending : entries.Pairwise fun a b => cmp a.1 b.1 = .lt
  deriving DecidableEq, Repr

namespace SortedMap

variable {κ ν : Type} {cmp : κ → κ → Ordering}

/-- The map without keys. -/
def empty : SortedMap κ ν cmp := ⟨[], .nil⟩

instance : EmptyCollection (SortedMap κ ν cmp) := ⟨empty⟩
instance : Inhabited (SortedMap κ ν cmp) := ⟨empty⟩

/-- The keys in ascending order. -/
def keys (m : SortedMap κ ν cmp) : List κ := m.entries.map Prod.fst

/-- The values in the order of their keys. -/
def values (m : SortedMap κ ν cmp) : List ν := m.entries.map Prod.snd

/-- The value under a key. -/
def find? (m : SortedMap κ ν cmp) (k : κ) : Option ν :=
  (m.entries.find? fun e => cmp k e.1 == .eq).map Prod.snd

/-- The map without a key. -/
def erase (m : SortedMap κ ν cmp) (k : κ) : SortedMap κ ν cmp :=
  ⟨m.entries.filter fun e => cmp k e.1 != .eq, m.ascending.filter _⟩

/-- The entries with a value put at the place of its key, instead of the value that was there. -/
def insertIn (cmp : κ → κ → Ordering) (k : κ) (v : ν) : List (κ × ν) → List (κ × ν)
  | [] => [(k, v)]
  | (a, w) :: rest =>
    match cmp k a with
    | .lt => (k, v) :: (a, w) :: rest
    | .eq => (k, v) :: rest
    | .gt => (a, w) :: insertIn cmp k v rest

/-- An inserted entry is new, and the others were there. -/
theorem eq_or_mem_of_mem_insertIn {k : κ} {v : ν} {e : κ × ν} {entries : List (κ × ν)}
    (h : e ∈ insertIn cmp k v entries) : e = (k, v) ∨ e ∈ entries := by
  induction entries with
  | nil => exact .inl (List.mem_singleton.mp h)
  | cons first rest ih =>
    obtain ⟨a, w⟩ := first
    rw [insertIn] at h
    split at h
    · exact List.mem_cons.mp h
    · exact (List.mem_cons.mp h).imp id (List.mem_cons_of_mem _)
    · rcases List.mem_cons.mp h with rfl | h
      · exact .inr List.mem_cons_self
      · exact (ih h).imp id (List.mem_cons_of_mem _)

@[simp] theorem find?_empty (k : κ) : (∅ : SortedMap κ ν cmp).find? k = none := rfl

variable [TransCmp cmp]

/-- An insertion keeps the keys in ascending order. -/
theorem pairwise_insertIn {k : κ} {v : ν} {entries : List (κ × ν)}
    (h : entries.Pairwise fun a b => cmp a.1 b.1 = .lt) :
    (insertIn cmp k v entries).Pairwise fun a b => cmp a.1 b.1 = .lt := by
  induction entries with
  | nil => exact List.pairwise_singleton _ _
  | cons first rest ih =>
    obtain ⟨a, w⟩ := first
    obtain ⟨hfirst, hrest⟩ := List.pairwise_cons.mp h
    rw [insertIn]
    split
    · next hlt =>
      refine List.pairwise_cons.mpr ⟨fun e he => ?_, h⟩
      rcases List.mem_cons.mp he with rfl | he
      · exact hlt
      · exact TransCmp.lt_trans hlt (hfirst e he)
    · next heq =>
      exact List.pairwise_cons.mpr
        ⟨fun e he => TransCmp.lt_of_eq_of_lt heq (hfirst e he), hrest⟩
    · next hgt =>
      refine List.pairwise_cons.mpr ⟨fun e he => ?_, ih hrest⟩
      rcases eq_or_mem_of_mem_insertIn he with rfl | he
      · exact OrientedCmp.lt_of_gt hgt
      · exact hfirst e he

/-- The map with a value put under a key. -/
def insert (m : SortedMap κ ν cmp) (k : κ) (v : ν) : SortedMap κ ν cmp :=
  ⟨insertIn cmp k v m.entries, pairwise_insertIn m.ascending⟩

/-- Keys in ascending order are different. -/
theorem ne_of_lt {a b : κ} (h : cmp a b = .lt) : b ≠ a := by
  rintro rfl
  rw [@ReflCmp.compare_self _ cmp] at h
  cases h

/-- A key has one value. -/
theorem eq_of_fst_eq {m : SortedMap κ ν cmp} {e e' : κ × ν} (he : e ∈ m.entries)
    (he' : e' ∈ m.entries) (hkey : e.1 = e'.1) : e = e' := by
  obtain ⟨entries, hascending⟩ := m
  dsimp only at he he'
  induction entries with
  | nil => cases he
  | cons first rest ih =>
    obtain ⟨hfirst, hrest⟩ := List.pairwise_cons.mp hascending
    rcases List.mem_cons.mp he with heq | he <;> rcases List.mem_cons.mp he' with heq' | he'
    · rw [heq, heq']
    · exact absurd (heq ▸ hkey).symm (ne_of_lt (hfirst e' he'))
    · exact absurd (heq' ▸ hkey) (ne_of_lt (hfirst e he))
    · exact ih hrest he he'

variable [LawfulEqCmp cmp] {m m' : SortedMap κ ν cmp} {k : κ} {v : ν}

/-- The entries after an insertion are the new one and those of the other keys. -/
theorem mem_insertIn {e : κ × ν} {entries : List (κ × ν)}
    (h : entries.Pairwise fun a b => cmp a.1 b.1 = .lt) :
    e ∈ insertIn cmp k v entries ↔ e = (k, v) ∨ e ∈ entries ∧ e.1 ≠ k := by
  induction entries with
  | nil => simp [insertIn]
  | cons first rest ih =>
    obtain ⟨a, w⟩ := first
    obtain ⟨hfirst, hrest⟩ := List.pairwise_cons.mp h
    rw [insertIn]
    split
    · next hlt =>
      refine List.mem_cons.trans (or_congr_right (iff_self_and.mpr fun he => ?_))
      rcases List.mem_cons.mp he with rfl | he
      · exact ne_of_lt hlt
      · exact ne_of_lt (TransCmp.lt_trans hlt (hfirst e he))
    · next heq =>
      obtain rfl : k = a := LawfulEqCmp.eq_of_compare heq
      rw [List.mem_cons, List.mem_cons]
      constructor
      · exact Or.imp id fun he => ⟨.inr he, ne_of_lt (hfirst e he)⟩
      · rintro (he | ⟨rfl | he, hne⟩)
        · exact .inl he
        · exact absurd rfl hne
        · exact .inr he
    · next hgt =>
      have hne : a ≠ k := (ne_of_lt (OrientedCmp.lt_of_gt hgt)).symm
      rw [List.mem_cons, List.mem_cons, ih hrest]
      constructor
      · rintro (rfl | he | ⟨he, hk⟩)
        · exact .inr ⟨.inl rfl, hne⟩
        · exact .inl he
        · exact .inr ⟨.inr he, hk⟩
      · rintro (he | ⟨rfl | he, hk⟩)
        · exact .inr (.inl he)
        · exact .inl rfl
        · exact .inr (.inr ⟨he, hk⟩)

/-- The entries are what look-ups find. -/
theorem find?_eq_some_iff : m.find? k = some v ↔ (k, v) ∈ m.entries := by
  have hfound : ∀ e, (m.entries.find? fun e => cmp k e.1 == .eq) = some e →
      e ∈ m.entries ∧ k = e.1 := fun e hfind =>
    ⟨List.mem_of_find?_eq_some hfind,
      LawfulEqCmp.eq_of_compare (beq_iff_eq.mp (List.find?_some hfind :))⟩
  constructor
  · intro h
    obtain ⟨⟨a, w⟩, hfind, rfl⟩ := Option.map_eq_some_iff.mp h
    obtain ⟨hmem, rfl⟩ := hfound _ hfind
    exact hmem
  · intro h
    have hisSome : (m.entries.find? fun e => cmp k e.1 == .eq).isSome :=
      List.find?_isSome.mpr ⟨(k, v), h, beq_iff_eq.mpr ReflCmp.compare_self⟩
    obtain ⟨e, hfind⟩ := Option.isSome_iff_exists.mp hisSome
    obtain ⟨hmem, hkey⟩ := hfound e hfind
    rw [find?, hfind, eq_of_fst_eq hmem h hkey.symm]
    rfl

/-- The values are what look-ups find. -/
theorem mem_values : v ∈ m.values ↔ ∃ k, m.find? k = some v := by
  simp only [find?_eq_some_iff]
  exact ⟨fun h => (List.mem_map.mp h).elim fun e he => ⟨e.1, he.2 ▸ he.1⟩,
    fun ⟨k, hk⟩ => List.mem_map.mpr ⟨(k, v), hk, rfl⟩⟩

/-- The keys are those under which look-ups find something. -/
theorem mem_keys : k ∈ m.keys ↔ m.find? k ≠ none := by
  rw [Option.ne_none_iff_exists']
  simp only [find?_eq_some_iff]
  exact ⟨fun h => (List.mem_map.mp h).elim fun e he => ⟨e.2, he.2 ▸ he.1⟩,
    fun ⟨v, hv⟩ => List.mem_map.mpr ⟨(k, v), hv, rfl⟩⟩

/-- A map is told by its look-ups. -/
theorem ext (h : ∀ k, m.find? k = m'.find? k) : m = m' := by
  have := transCmp_comap cmp (Prod.fst : κ × ν → κ)
  have hentries : m.entries = m'.entries :=
    eq_of_ascending m.ascending m'.ascending fun e => by
      rw [← find?_eq_some_iff, ← find?_eq_some_iff, h]
  obtain ⟨entries, hascending⟩ := m
  obtain ⟨entries', hascending'⟩ := m'
  obtain rfl : entries = entries' := hentries
  rfl

variable [DecidableEq κ]

/-- Inserting a value puts it under its key and changes no other. -/
theorem find?_insert (m : SortedMap κ ν cmp) (k j : κ) (v : ν) :
    (m.insert k v).find? j = if k = j then some v else m.find? j := by
  ext w
  rw [find?_eq_some_iff, insert, mem_insertIn m.ascending, ← find?_eq_some_iff, Prod.mk.injEq]
  by_cases hk : k = j
  · simp [hk, eq_comm]
  · simp [hk, Ne.symm hk]

/-- Erasing a key takes its value away and no other. -/
theorem find?_erase (m : SortedMap κ ν cmp) (k j : κ) :
    (m.erase k).find? j = if k = j then none else m.find? j := by
  ext w
  rw [find?_eq_some_iff, erase, List.mem_filter, bne_iff_ne, Ne, LawfulEqCmp.compare_eq_iff_eq,
    ← find?_eq_some_iff]
  by_cases hk : k = j <;> simp [hk]

end SortedMap

end OperatorLALR
