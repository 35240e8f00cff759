/-!
# Finite maps in insertion order

A finite map that keeps its keys in the order in which they first came. Changing the value of a
key leaves the key at its place. `find?_update` says what an update does to every look-up.
-/

namespace OperatorLALR

/-- A finite map with its keys in the order of their first insertion. -/
structure OrderedMap (κ ν : Type) where
  /-- The keys with their values. -/
  entries : List (κ × ν)
  deriving DecidableEq, Repr

namespace OrderedMap

variable {κ ν : Type} [DecidableEq κ]

/-- The map without keys. -/
def empty : OrderedMap κ ν := ⟨[]⟩

instance : EmptyCollection (OrderedMap κ ν) := ⟨empty⟩
instance : Inhabited (OrderedMap κ ν) := ⟨empty⟩

/-- The value in a list of entries under a key. -/
def findIn (k : κ) : List (κ × ν) → Option ν
  | [] => none
  | (a, v) :: rest => if a = k then some v else findIn k rest

/-- The entries with the value under a key replaced, the key at the end if it is new. -/
def updateIn (k : κ) (f : Option ν → ν) : List (κ × ν) → List (κ × ν)
  | [] => [(k, f none)]
  | (a, v) :: rest => if a = k then (a, f (some v)) :: rest else (a, v) :: updateIn k f rest

/-- The value under a key. -/
def find? (m : OrderedMap κ ν) (k : κ) : Option ν := findIn k m.entries

/-- The map with the value under a key computed from the one that was there. -/
def update (m : OrderedMap κ ν) (k : κ) (f : Option ν → ν) : OrderedMap κ ν :=
  ⟨updateIn k f m.entries⟩

/-- The map with a value put under a key. -/
def insert (m : OrderedMap κ ν) (k : κ) (v : ν) : OrderedMap κ ν := m.update k fun _ => v

/-- The keys in order. -/
def keys (m : OrderedMap κ ν) : List κ := m.entries.map Prod.fst

/-- The map of a list of entries; a later entry replaces an earlier one of its key. -/
def ofList (entries : List (κ × ν)) : OrderedMap κ ν :=
  entries.foldl (fun m e => m.insert e.1 e.2) ∅

theorem findIn_updateIn (k j : κ) (f : Option ν → ν) (entries : List (κ × ν)) :
    findIn j (updateIn k f entries) =
      if k = j then some (f (findIn k entries)) else findIn j entries := by
  induction entries with
  | nil => simp [updateIn, findIn]
  | cons e rest ih =>
    obtain ⟨a, v⟩ := e
    by_cases hk : a = k
    · subst hk
      by_cases hj : a = j <;> simp [updateIn, findIn, hj]
    · by_cases hj : a = j
      · subst hj
        simp [updateIn, findIn, hk, Ne.symm hk]
      · simp [updateIn, findIn, hk, hj, ih]

/-- An update changes the value under its key and no other. -/
theorem find?_update (m : OrderedMap κ ν) (k j : κ) (f : Option ν → ν) :
    (m.update k f).find? j = if k = j then some (f (m.find? k)) else m.find? j :=
  findIn_updateIn k j f m.entries

theorem find?_insert (m : OrderedMap κ ν) (k j : κ) (v : ν) :
    (m.insert k v).find? j = if k = j then some v else m.find? j :=
  find?_update m k j _

@[simp] theorem find?_empty (k : κ) : (∅ : OrderedMap κ ν).find? k = none := rfl

/-- An update adds its key at the end, or leaves the keys as they are. -/
theorem keys_update (m : OrderedMap κ ν) (k : κ) (f : Option ν → ν) :
    (m.update k f).keys = if k ∈ m.keys then m.keys else m.keys ++ [k] := by
  obtain ⟨entries⟩ := m
  change (updateIn k f entries).map Prod.fst = _
  simp only [keys]
  induction entries with
  | nil => simp [updateIn]
  | cons e rest ih =>
    obtain ⟨a, v⟩ := e
    by_cases hk : a = k
    · simp [updateIn, hk]
    · rw [updateIn, if_neg hk, List.map_cons, ih]
      by_cases hm : k ∈ rest.map Prod.fst <;> simp [hm, Ne.symm hk]

/-- An update adds no key for the second time. -/
theorem nodup_keys_update {m : OrderedMap κ ν} (h : m.keys.Nodup) (k : κ) (f : Option ν → ν) :
    (m.update k f).keys.Nodup := by
  rw [keys_update]
  split
  · exact h
  · next hk =>
    refine List.nodup_append.mpr ⟨h, by simp, fun j hj k' hk' => ?_⟩
    rw [List.mem_singleton.mp hk']
    rintro rfl
    exact hk hj

/-- Where no key comes twice, all entries are found. -/
theorem find?_of_mem {m : OrderedMap κ ν} (hnodup : m.keys.Nodup) {k : κ} {v : ν}
    (h : (k, v) ∈ m.entries) : m.find? k = some v := by
  obtain ⟨entries⟩ := m
  change (entries.map Prod.fst).Nodup at hnodup
  change findIn k entries = some v
  induction entries with
  | nil => cases h
  | cons e entries ih =>
    obtain ⟨hnot, hnodup⟩ := List.nodup_cons.mp hnodup
    rw [findIn]
    rcases List.mem_cons.mp h with rfl | h
    · exact if_pos rfl
    · have hne : e.1 ≠ k := by
        rintro rfl
        exact hnot (List.mem_map.mpr ⟨_, h, rfl⟩)
      rw [if_neg hne]
      exact ih h hnodup

/-- What holds of all entries holds after an update, if the update keeps it. -/
theorem forall_update {P : κ → ν → Prop} {m : OrderedMap κ ν} {k : κ} {f : Option ν → ν}
    (h : ∀ e ∈ m.entries, P e.1 e.2) (hnew : P k (f none)) (hold : ∀ v, P k v → P k (f (some v))) :
    ∀ e ∈ (m.update k f).entries, P e.1 e.2 := by
  obtain ⟨entries⟩ := m
  change ∀ e ∈ updateIn k f entries, P e.1 e.2
  change ∀ e ∈ entries, P e.1 e.2 at h
  induction entries with
  | nil =>
    intro e he
    rw [List.mem_singleton.mp he]
    exact hnew
  | cons e entries ih =>
    obtain ⟨k', v⟩ := e
    obtain ⟨hv, hentries⟩ := List.forall_mem_cons.mp h
    rw [updateIn]
    split
    · next hk =>
      subst hk
      exact List.forall_mem_cons.mpr ⟨hold v hv, hentries⟩
    · exact List.forall_mem_cons.mpr ⟨hv, ih hentries⟩

/-- A value that is found is one of the entries. -/
theorem mem_of_find? {m : OrderedMap κ ν} {k : κ} {v : ν} (h : m.find? k = some v) :
    (k, v) ∈ m.entries := by
  obtain ⟨entries⟩ := m
  change findIn k entries = some v at h
  change (k, v) ∈ entries
  induction entries with
  | nil => cases h
  | cons e entries ih =>
    rw [findIn] at h
    split at h
    · next hk =>
      rw [← Option.some.inj h, ← hk]
      exact List.mem_cons_self
    · exact List.mem_cons_of_mem e (ih h)

/-- A value found in a map of entries is one of them. -/
theorem mem_of_find?_ofList {entries : List (κ × ν)} {k : κ} {v : ν}
    (h : (ofList entries).find? k = some v) : (k, v) ∈ entries := by
  have hkeep : ∀ (xs : List (κ × ν)) (m : OrderedMap κ ν), (∀ e ∈ m.entries, e ∈ entries) →
      (∀ e ∈ xs, e ∈ entries) → ∀ e ∈ (xs.foldl (fun m e => m.insert e.1 e.2) m).entries,
        e ∈ entries := by
    intro xs
    induction xs with
    | nil => exact fun m hm _ => hm
    | cons x xs ih =>
      intro m hm hxs
      obtain ⟨hx, hrest⟩ := List.forall_mem_cons.mp hxs
      exact ih _ (forall_update (P := fun k v => (k, v) ∈ entries) hm hx fun _ _ => hx) hrest
  exact hkeep entries ∅ nofun (fun _ he => he) _ (mem_of_find? h)

/-- A map of entries gives a key its value if it has no other. -/
theorem find?_ofList {entries : List (κ × ν)} {k : κ} {v : ν} (hmem : (k, v) ∈ entries)
    (hunique : ∀ v', (k, v') ∈ entries → v' = v) : (ofList entries).find? k = some v := by
  have hfound : ∀ (xs : List (κ × ν)) (m : OrderedMap κ ν),
      ((k, v) ∈ xs ∨ ∃ v', m.find? k = some v') →
        ∃ v', (xs.foldl (fun m e => m.insert e.1 e.2) m).find? k = some v' := by
    intro xs
    induction xs with
    | nil => exact fun m hm => hm.resolve_left List.not_mem_nil
    | cons x xs ih =>
      intro m hm
      refine ih _ ?_
      rw [find?_insert]
      rcases hm with hx | ⟨v', hv'⟩
      · rcases List.mem_cons.mp hx with rfl | hx
        · exact .inr ⟨v, if_pos rfl⟩
        · exact .inl hx
      · by_cases hk : x.1 = k
        · exact .inr ⟨x.2, if_pos hk⟩
        · exact .inr ⟨v', (if_neg hk).trans hv'⟩
  obtain ⟨v', hv'⟩ := hfound entries ∅ (.inl hmem)
  have hfind : (ofList entries).find? k = some v' := hv'
  rw [hfind, hunique v' (mem_of_find?_ofList hfind)]

end OrderedMap

end OperatorLALR
