import OperatorLALR.Proofs.Automaton.Powers

/-!
# The numbers of states

The states of an automaton are numbered with 16 bits and nothing keeps the count below the limit.
Up to 65536 states have numbers of their own, and each state found is there under its number;
beyond that, those found last take the numbers and the places of the first
(`state_numbers_exact`). There are grammars within all limits of a definition for which it comes to
that, and then the initial state is the first to be lost (`state_numbers_wrap`).
-/

namespace OperatorLALR

/-- One more state found is added under the next number, or takes the place of an earlier one. -/
theorem numberStates_concat (found : List State) (s : State) :
    numberStates (found ++ [s]) =
      if found.length < stateNumbers then (numberStates found).push s
      else (numberStates found).setIfInBounds (found.length % stateNumbers) s := by
  simp only [numberStates]
  split
  · next hlt =>
    have hall : (found ++ [s]).length ≤ stateNumbers := by
      rw [List.length_append, List.length_singleton]
      exact hlt
    rw [List.drop_eq_nil_of_le hall, List.take_of_length_le hall,
      List.drop_eq_nil_of_le (Nat.le_of_lt hlt), List.take_of_length_le (Nat.le_of_lt hlt)]
    simp only [List.zipIdx_nil, List.foldl_nil, List.push_toArray]
  · next hge =>
    have hle : stateNumbers ≤ found.length := Nat.le_of_not_lt hge
    have hplace : (found.length - stateNumbers) % stateNumbers = found.length % stateNumbers :=
      (Nat.mod_eq_sub_mod hle).symm
    rw [List.drop_append_of_le_length hle, List.take_append_of_le_length hle, List.zipIdx_append,
      List.foldl_append, Nat.zero_add, List.length_drop, List.zipIdx_singleton, List.foldl_cons,
      List.foldl_nil, hplace]

/-- There are at most as many states as numbers. -/
theorem size_numberStates (found : List State) :
    (numberStates found).size = min found.length stateNumbers := by
  induction found using List.reverseRecOn with
  | nil => rfl
  | append_singleton found s ih =>
    rw [numberStates_concat, List.length_append, List.length_singleton]
    split
    · rw [Array.size_push, ih]
      omega
    · rw [Array.size_setIfInBounds, ih]
      omega

/-- The states found last have their numbers: as many as there are numbers. -/
theorem getElem?_numberStates {found : List State} {place : Nat} (hplace : place < found.length)
    (hlast : found.length ≤ place + stateNumbers) :
    (numberStates found)[place % stateNumbers]? = found[place]? := by
  induction found using List.reverseRecOn with
  | nil => exact absurd hplace (Nat.not_lt_zero _)
  | append_singleton found s ih =>
    have hsize := size_numberStates found
    rw [List.length_append, List.length_singleton] at hplace hlast
    rw [numberStates_concat]
    rcases Nat.lt_succ_iff_lt_or_eq.mp hplace with hlt | rfl
    · rw [List.getElem?_append_left hlt]
      have hkept := ih hlt (by omega)
      split
      · rw [Array.getElem?_push, if_neg, hkept]
        rw [Nat.mod_eq_of_lt (by omega)]
        omega
      · rw [Array.getElem?_setIfInBounds_ne, hkept]
        simp only [stateNumbers] at *
        omega
    · rw [List.getElem?_concat_length]
      split
      · next hlt =>
        rw [Nat.mod_eq_of_lt hlt, Array.getElem?_push, if_pos (by omega)]
      · next hge =>
        rw [Array.getElem?_setIfInBounds_self_of_lt]
        rw [hsize, Nat.min_eq_right (Nat.le_of_not_lt hge)]
        exact Nat.mod_lt _ (by decide)

/-- Of the places with one number there is a last. -/
theorem exists_last_place {place found : Nat} (h : place < found) :
    ∃ last, place ≤ last ∧ last < found ∧ found ≤ last + stateNumbers ∧
      StateId.ofPlace last = StateId.ofPlace place := by
  have hdiv := Nat.div_add_mod (found - 1 - place) stateNumbers
  have hmod : (found - 1 - place) % stateNumbers < stateNumbers := Nat.mod_lt _ (by decide)
  refine ⟨place + stateNumbers * ((found - 1 - place) / stateNumbers), Nat.le_add_right _ _,
    by omega, by omega, ?_⟩
  rw [StateId.ofPlace, StateId.ofPlace, Nat.add_mul_mod_self_left]

/-- The numbers given out so far are those counted exactly as long as they fit. -/
theorem ofPlace_exact_iff {found : Nat} :
    (∀ place ≤ found, (StateId.ofPlace place).val = place) ↔ found < stateNumbers := by
  constructor
  · intro h
    rw [← h found (Nat.le_refl found)]
    exact Nat.mod_lt _ (by decide)
  · intro h place hplace
    exact Nat.mod_eq_of_lt (Nat.lt_of_le_of_lt hplace h)

/-- States get different numbers exactly if there are no more of them than numbers. -/
theorem ofPlace_injective_iff {found : Nat} :
    (∀ i j, i < found → j < found → StateId.ofPlace i = StateId.ofPlace j → i = j) ↔
      found ≤ stateNumbers := by
  constructor
  · intro h
    by_contra hmore
    have hlt : stateNumbers < found := Nat.lt_of_not_le hmore
    exact absurd (h 0 stateNumbers (Nat.lt_trans (by decide) hlt) hlt rfl) (by decide)
  · intro h i j hi hj heq
    have hval : i % stateNumbers = j % stateNumbers := congrArg Index.val heq
    rwa [Nat.mod_eq_of_lt (Nat.lt_of_lt_of_le hi h), Nat.mod_eq_of_lt (Nat.lt_of_lt_of_le hj h)]
      at hval

namespace Grammar

variable {g : Grammar} {a : Analysis} {kernel : Kernel} {place : Nat}

/-- The last states found are those of the automaton, each under its number. -/
theorem state?_ofPlace (hkernel : (g.kernels a).items[place]? = some kernel)
    (hlast : (g.kernels a).items.size ≤ place + stateNumbers) :
    (g.automaton a).state? (.ofPlace place) = some (g.stateOf a (g.kernels a) kernel) := by
  have hlength : ((g.kernels a).toList.map (g.stateOf a (g.kernels a))).length =
      (g.kernels a).items.size := by
    rw [List.length_map, Numbering.toList, Array.length_toList]
  have hplace : place < (g.kernels a).items.size := (Array.getElem?_eq_some_iff.mp hkernel).1
  change (numberStates ((g.kernels a).toList.map (g.stateOf a (g.kernels a))))[_]? = _
  rw [StateId.ofPlace, getElem?_numberStates (hlength ▸ hplace) (hlength ▸ hlast),
    List.getElem?_map, Numbering.toList, Array.getElem?_toList, hkernel, Option.map_some]

/-- The state with a kernel is there under its number unless a later state has the same number. -/
theorem state?_ofPlace_iff (hkernel : (g.kernels a).items[place]? = some kernel) :
    (g.automaton a).state? (.ofPlace place) = some (g.stateOf a (g.kernels a) kernel) ↔
      (g.kernels a).items.size ≤ place + stateNumbers := by
  refine ⟨fun h => ?_, state?_ofPlace hkernel⟩
  obtain ⟨last, hle, hlt, hlast, heq⟩ :=
    exists_last_place (Array.getElem?_eq_some_iff.mp hkernel).1
  have hlater : (g.kernels a).items[last]? = some (g.kernels a).items[last] :=
    Array.getElem?_eq_getElem hlt
  have hsame : g.stateOf a (g.kernels a) kernel =
      g.stateOf a (g.kernels a) (g.kernels a).items[last] := by
    rw [← heq, state?_ofPlace hlater hlast] at h
    exact (Option.some.inj h).symm
  have hkernels : kernel = (g.kernels a).items[last] := by
    rw [← Built.kernel_stateOf g a (g.kernels a) kernel, hsame, Built.kernel_stateOf]
  rw [← hkernels] at hlater
  rwa [Numbering.eq_of_getElem? hkernel hlater]

/-- No state is lost exactly if there are no more of them than numbers. -/
theorem states_kept_iff :
    (∀ place kernel, (g.kernels a).items[place]? = some kernel →
      (g.automaton a).state? (.ofPlace place) = some (g.stateOf a (g.kernels a) kernel)) ↔
        (g.kernels a).items.size ≤ stateNumbers := by
  constructor
  · intro h
    have hfirst := (state?_ofPlace_iff (kernels_zero g a)).mp (h 0 _ (kernels_zero g a))
    rwa [Nat.zero_add] at hfirst
  · intro h place kernel hkernel
    exact state?_ofPlace hkernel (Nat.le_trans h (Nat.le_add_left _ _))

/-- The kernels found are those reached from the initial one. The numbers given out are the ones
counted as long as fewer than 65536 kernels are found; up to 65536 kernels get different numbers,
and each has its state under its number. If there are more, exactly the last 65536 do. -/
theorem state_numbers_exact (hg : g.IsDefined) (a : Analysis) :
    (∀ kernel, kernel ∈ (g.kernels a).items ↔
      Relation.ReflTransGen (fun before next => next ∈ g.kernelsAfter a before) initialKernel
        kernel) ∧
    ((∀ found ≤ (g.kernels a).items.size, (StateId.ofPlace found).val = found) ↔
      (g.kernels a).items.size < stateNumbers) ∧
    ((∀ i j, i < (g.kernels a).items.size → j < (g.kernels a).items.size →
        StateId.ofPlace i = StateId.ofPlace j → i = j) ↔
      (g.kernels a).items.size ≤ stateNumbers) ∧
    ((∀ place kernel, (g.kernels a).items[place]? = some kernel →
        (g.automaton a).state? (.ofPlace place) = some (g.stateOf a (g.kernels a) kernel)) ↔
      (g.kernels a).items.size ≤ stateNumbers) ∧
    ∀ place kernel, (g.kernels a).items[place]? = some kernel →
      ((g.automaton a).state? (.ofPlace place) = some (g.stateOf a (g.kernels a) kernel) ↔
        (g.kernels a).items.size ≤ place + stateNumbers) :=
  ⟨fun _ => mem_kernels_iff hg.wellFormed, ofPlace_exact_iff, ofPlace_injective_iff,
    states_kept_iff, fun _ _ => state?_ofPlace_iff⟩

/-- The grammar `S := A b; A := %empty` has fewer states than numbers, so each is kept. -/
theorem state_numbers_exact_optionalPrefix :
    (optionalPrefix.kernels optionalPrefixAnalysis).items.size = 4 ∧
      ∀ place kernel, (optionalPrefix.kernels optionalPrefixAnalysis).items[place]? = some kernel →
        (optionalPrefix.automaton optionalPrefixAnalysis).state? (.ofPlace place) =
          some (optionalPrefix.stateOf optionalPrefixAnalysis
            (optionalPrefix.kernels optionalPrefixAnalysis) kernel) := by
  have hsize : (optionalPrefix.kernels optionalPrefixAnalysis).items.size = 4 := by
    decide +kernel
  obtain ⟨-, -, -, hkept, -⟩ :=
    state_numbers_exact optionalPrefix_isDefined optionalPrefixAnalysis
  exact ⟨hsize, hkept.mpr (by rw [hsize]; decide)⟩

end Grammar

/-- The names of twelve terminals. -/
def letters : List String := ["a", "b", "c", "d", "e", "f", "g", "h", "i", "j", "k", "l"]

/-- The grammar `S := a⁵⁵⁰⁰ | … | l⁵⁵⁰⁰` is defined and analysed, but it has more states than there
are numbers: the count runs over, different kernels get one number, and under the number of the
initial state another one is found. -/
theorem state_numbers_wrap :
    (Grammar.define (powerDeclarations letters 5500)).2 = .ok (powers letters 5500) ∧
      ∃ a, (powers letters 5500).analyse = .ok a ∧
        (¬ ∀ found ≤ ((powers letters 5500).kernels a).items.size,
          (StateId.ofPlace found).val = found) ∧
        (¬ ∀ i j, i < ((powers letters 5500).kernels a).items.size →
          j < ((powers letters 5500).kernels a).items.size →
          StateId.ofPlace i = StateId.ofPlace j → i = j) ∧
        ((powers letters 5500).automaton a).state? initialState ≠
          some ((powers letters 5500).stateOf a ((powers letters 5500).kernels a)
            initialKernel) := by
  have hletters : AreNames letters := ⟨by decide, by decide, by decide, by decide⟩
  have hdefine := define_powers (n := 5500) hletters (by decide) (by decide) (by decide)
  have hg : (powers letters 5500).IsDefined := ⟨powerDeclarations letters 5500, .inl hdefine⟩
  obtain ⟨a, ha⟩ := Powers.exists_analysis hg.wellFormed
  have hsize : stateNumbers < ((powers letters 5500).kernels a).items.size :=
    Nat.lt_of_le_of_lt (by decide) (Powers.lt_size_kernels hg.wellFormed ha)
  refine ⟨hdefine, a, ha, ?_, ?_, ?_⟩
  · rw [ofPlace_exact_iff]
    omega
  · rw [ofPlace_injective_iff]
    omega
  · intro hkept
    have hlast := (Grammar.state?_ofPlace_iff (Grammar.kernels_zero _ a)).mp hkept
    omega

end OperatorLALR
