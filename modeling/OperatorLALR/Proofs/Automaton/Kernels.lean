import Mathlib.Data.List.Sort
import Mathlib.Data.List.Sublists
import OperatorLALR.Automaton.Item
import OperatorLALR.Proofs.Exploration
import OperatorLALR.Proofs.Grammar.WellFormed

/-!
# The exploration of kernels

A kernel is an ascending list of items of the grammar, hence a sublist of the list of them all, and
there are as many of these as the exploration allows for. So the kernels found are those that
transitions lead to from the initial kernel (`mem_kernels_iff`), and each of them is the initial one
or behind another (`kernel_cases`).
-/

namespace OperatorLALR

variable {α : Type}

/-- An insertion by a comparison that decides a strict order keeps a list ascending. -/
theorem pairwise_insertDistinct {cmp : α → α → Ordering} {R : α → α → Prop}
    (hlt : ∀ a b, cmp a b = .lt → R a b) (hgt : ∀ a b, cmp a b = .gt → R b a)
    (heq : ∀ a b, cmp a b = .eq → a = b) (htrans : ∀ a b c, R a b → R b c → R a c) {x : α}
    {ys : List α} (h : ys.Pairwise R) : (insertDistinct cmp x ys).Pairwise R := by
  induction ys with
  | nil => exact List.pairwise_singleton R x
  | cons y ys ih =>
    obtain ⟨hy, hys⟩ := List.pairwise_cons.mp h
    rw [insertDistinct]
    split
    · next hcmp =>
      refine List.pairwise_cons.mpr ⟨?_, h⟩
      intro z hz
      rcases List.mem_cons.mp hz with rfl | hz
      · exact hlt x z hcmp
      · exact htrans x y z (hlt x y hcmp) (hy z hz)
    · exact h
    · next hcmp =>
      refine List.pairwise_cons.mpr ⟨?_, ih hys⟩
      intro z hz
      rcases (mem_insertDistinct heq).mp hz with rfl | hz
      · exact hgt z y hcmp
      · exact hy z hz

/-- Sorting by a comparison that decides a strict order gives an ascending list. -/
theorem pairwise_sortDistinct {cmp : α → α → Ordering} {R : α → α → Prop}
    (hlt : ∀ a b, cmp a b = .lt → R a b) (hgt : ∀ a b, cmp a b = .gt → R b a)
    (heq : ∀ a b, cmp a b = .eq → a = b) (htrans : ∀ a b c, R a b → R b c → R a c)
    (xs : List α) : (sortDistinct cmp xs).Pairwise R := by
  induction xs with
  | nil => exact .nil
  | cons x xs ih => exact pairwise_insertDistinct hlt hgt heq htrans ih

namespace Item

variable {a b c : Item}

/-- One item comes before another in a kernel. -/
def Before (a b : Item) : Prop := a.rule.val < b.rule.val ∨ a.rule = b.rule ∧ a.dot < b.dot

theorem compare_eq_lt_iff : Item.compare a b = .lt ↔ a.Before b := by
  rw [Item.compare, Ordering.then_eq_lt]
  change (Ord.compare a.rule.val b.rule.val = .lt ∨
    Ord.compare a.rule.val b.rule.val = .eq ∧ Ord.compare a.dot b.dot = .lt) ↔ _
  rw [Nat.compare_eq_lt, Nat.compare_eq_eq, Nat.compare_eq_lt, Before, Index.ext_iff]

theorem compare_eq_gt_iff : Item.compare a b = .gt ↔ b.Before a := by
  rw [Item.compare, Ordering.then_eq_gt]
  change (Ord.compare a.rule.val b.rule.val = .gt ∨
    Ord.compare a.rule.val b.rule.val = .eq ∧ Ord.compare a.dot b.dot = .gt) ↔ _
  rw [Nat.compare_eq_gt, Nat.compare_eq_eq, Nat.compare_eq_gt, Before, Index.ext_iff,
    eq_comm (a := b.rule.val)]

/-- Items that compare equal are equal. -/
theorem eq_of_compare (h : Item.compare a b = .eq) : a = b := by
  rw [Item.compare, Ordering.then_eq_eq] at h
  obtain ⟨⟨rule⟩, dot⟩ := a
  obtain ⟨⟨rule'⟩, dot'⟩ := b
  obtain ⟨hrule, hdot⟩ := h
  obtain rfl : rule = rule' := Nat.compare_eq_eq.mp hrule
  obtain rfl : dot = dot' := Nat.compare_eq_eq.mp hdot
  rfl

theorem Before.trans (hab : a.Before b) (hbc : b.Before c) : a.Before c := by
  rw [Before, Index.ext_iff] at *
  omega

theorem Before.irrefl (a : Item) : ¬ a.Before a := by
  rw [Before]
  omega

instance : Std.Antisymm Before := ⟨fun a _ hab hba => absurd (hab.trans hba) (Before.irrefl a)⟩

end Item

namespace Grammar

variable {g : Grammar} {a : Analysis} {item : Item} {items : List Item} {symbol : Symbol}
  {kernel : Kernel}

/-- The items of a grammar in ascending order. -/
def allItems (g : Grammar) : List Item :=
  g.ruleIds.flatMap fun r => (List.range ((g.body r).length + 1)).map (Item.mk r)

theorem mem_allItems :
    item ∈ g.allItems ↔ item.rule.val < g.rules.length ∧ item.dot ≤ (g.body item.rule).length := by
  obtain ⟨r, dot⟩ := item
  simp only [allItems, ruleIds, List.mem_flatMap, Index.mem_below, List.mem_map, List.mem_range,
    Item.mk.injEq, Nat.lt_succ_iff]
  constructor
  · rintro ⟨r', hr, dot', hdot, rfl, rfl⟩
    exact ⟨hr, hdot⟩
  · rintro ⟨hr, hdot⟩
    exact ⟨r, hr, dot, hdot, rfl, rfl⟩

/-- The list of the items is ascending. -/
theorem pairwise_allItems (g : Grammar) : g.allItems.Pairwise Item.Before := by
  rw [allItems, List.pairwise_flatMap]
  constructor
  · intro r _
    rw [List.pairwise_map]
    exact List.pairwise_lt_range.imp fun h => .inr ⟨rfl, h⟩
  · rw [ruleIds, Index.below, List.pairwise_map]
    refine List.pairwise_lt_range.imp fun {m n} hlt x hx y hy => ?_
    obtain ⟨_, _, rfl⟩ := List.mem_map.mp hx
    obtain ⟨_, _, rfl⟩ := List.mem_map.mp hy
    exact .inl hlt

/-- The items are counted rule by rule. -/
theorem length_allItems (g : Grammar) : g.allItems.length = g.itemCount := by
  have hbodies : g.ruleIds.map (fun r => (g.body r).length + 1) =
      g.rules.map fun rule => rule.body.length + 1 := by
    refine List.ext_getElem (by simp [ruleIds, Index.length_below]) ?_
    intro i hi hi'
    rw [List.length_map] at hi'
    simp [ruleIds, Index.below, body, rule?, hi']
  have hsum : ∀ (rules : List Rule) n, rules.foldl (fun n rule => n + rule.body.length + 1) n =
      n + (rules.map fun rule => rule.body.length + 1).sum := by
    intro rules
    induction rules with
    | nil => simp
    | cons rule rules ih =>
      intro n
      rw [List.foldl_cons, ih, List.map_cons, List.sum_cons]
      omega
  rw [allItems, List.length_flatMap, itemCount, hsum, Nat.zero_add, ← hbodies]
  simp only [List.length_map, List.length_range]

/-- An item with a symbol behind its dot may be moved on. -/
theorem advance_mem_allItems (h : item.next? g = some symbol) : item.advance ∈ g.allItems := by
  obtain ⟨hdot, -⟩ := List.getElem?_eq_some_iff.mp h
  refine mem_allItems.mpr ⟨?_, hdot⟩
  by_contra hnot
  have hrule : g.rules.length ≤ item.rule.val := Nat.le_of_not_lt hnot
  have hbody : g.body item.rule = [] := by
    rw [body, rule?, List.getElem?_eq_none hrule]
    rfl
  rw [hbody] at hdot
  exact Nat.not_lt_zero _ hdot

/-- A kernel is an ascending list of items of the grammar. -/
structure IsKernel (g : Grammar) (kernel : Kernel) : Prop where
  ascending : kernel.Pairwise Item.Before
  items : ∀ item ∈ kernel, item ∈ g.allItems

/-- No item is twice in a kernel. -/
theorem IsKernel.nodup (h : g.IsKernel kernel) : kernel.Nodup := by
  refine h.ascending.imp ?_
  rintro item _ hlt rfl
  exact Item.Before.irrefl item hlt

/-- Kernels are among the sublists of the list of items. -/
theorem IsKernel.mem_sublists (h : g.IsKernel kernel) : kernel ∈ g.allItems.sublists := by
  rw [List.mem_sublists]
  have hsubperm := h.nodup.subperm h.items
  exact List.sublist_of_subperm_of_pairwise hsubperm h.ascending g.pairwise_allItems

/-- The kernel of the initial state is one. -/
theorem isKernel_initial (hg : g.WellFormed) : g.IsKernel initialKernel := by
  refine ⟨List.pairwise_singleton _ _, ?_⟩
  intro item hitem
  rw [List.mem_singleton.mp hitem]
  exact mem_allItems.mpr ⟨(List.getElem?_eq_some_iff.mp hg.accept).1, Nat.zero_le _⟩

/-- The items behind a symbol. -/
theorem mem_kernelAfter :
    item ∈ g.kernelAfter items symbol ↔
      ∃ old ∈ items, old.next? g = some symbol ∧ old.advance = item := by
  rw [kernelAfter, mem_sortDistinct fun _ _ => Item.eq_of_compare]
  simp only [List.mem_map, List.mem_filter, beq_iff_eq, and_assoc]

/-- The items behind a symbol make up a kernel. -/
theorem isKernel_kernelAfter (g : Grammar) (items : List Item) (symbol : Symbol) :
    g.IsKernel (g.kernelAfter items symbol) := by
  constructor
  · exact pairwise_sortDistinct (fun _ _ => Item.compare_eq_lt_iff.mp)
      (fun _ _ => Item.compare_eq_gt_iff.mp) (fun _ _ => Item.eq_of_compare)
      (fun _ _ _ => Item.Before.trans) _
  · intro item hitem
    obtain ⟨old, -, hnext, rfl⟩ := mem_kernelAfter.mp hitem
    exact advance_mem_allItems hnext

/-- A transition leads across each symbol behind a dot. -/
theorem mem_kernelsAfter {next : Kernel} :
    next ∈ g.kernelsAfter a kernel ↔ ∃ symbol,
      (∃ item ∈ g.itemsOf a kernel, item.next? g = some symbol) ∧
        g.kernelAfter (g.itemsOf a kernel) symbol = next := by
  simp only [kernelsAfter, markersOf, List.mem_filterMap, mem_fresh, List.mem_map,
    Option.map_eq_some_iff]
  constructor
  · rintro ⟨_, ⟨⟨item, hitem, hnext⟩, -⟩, symbol, rfl, hkernel⟩
    exact ⟨symbol, ⟨item, hitem, hnext⟩, hkernel⟩
  · rintro ⟨symbol, ⟨item, hitem, hnext⟩, hkernel⟩
    exact ⟨some symbol, ⟨⟨item, hitem, hnext⟩, List.not_mem_nil⟩, symbol, rfl, hkernel⟩

/-- The exploration of kernels comes to an end. -/
theorem processesAll_kernels (hg : g.WellFormed) :
    ProcessesAll (g.kernelsAfter a) 0 (Numbering.ofList [initialKernel]) (g.kernels a) := by
  refine processesAll_exploreFrom (P := g.IsKernel) (fun _ => IsKernel.mem_sublists) ?_
    (isKernel_initial hg) ?_
  · intro kernel _ next hnext
    obtain ⟨symbol, -, rfl⟩ := mem_kernelsAfter.mp hnext
    exact isKernel_kernelAfter g _ symbol
  · rw [List.length_sublists, length_allItems]
    exact Nat.lt_succ_self _

/-- The initial kernel was discovered first. -/
theorem kernels_zero (g : Grammar) (a : Analysis) :
    (g.kernels a).items[0]? = some initialKernel :=
  getElem?_exploreFrom_zero _ _ _

/-- The kernels found are those to which transitions lead from the initial one. -/
theorem mem_kernels_iff (hg : g.WellFormed) : kernel ∈ (g.kernels a).items ↔
    Relation.ReflTransGen (fun before next => next ∈ g.kernelsAfter a before) initialKernel
      kernel :=
  (processesAll_kernels hg).mem_iff_reached

/-- The kernels found are closed under transitions. -/
theorem kernels_closed (hg : g.WellFormed) {next : Kernel} (hkernel : kernel ∈ (g.kernels a).items)
    (hnext : next ∈ g.kernelsAfter a kernel) : next ∈ (g.kernels a).items :=
  (mem_kernels_iff hg).mpr (((mem_kernels_iff hg).mp hkernel).tail hnext)

/-- A kernel found is the initial one or behind a transition from one that was found. -/
theorem kernel_cases (hg : g.WellFormed) (hkernel : kernel ∈ (g.kernels a).items) :
    kernel = initialKernel ∨
      ∃ before ∈ (g.kernels a).items, kernel ∈ g.kernelsAfter a before := by
  cases (mem_kernels_iff hg).mp hkernel with
  | refl => exact .inl rfl
  | tail hbefore hnext => exact .inr ⟨_, (mem_kernels_iff hg).mpr hbefore, hnext⟩

/-- Every kernel found is one. -/
theorem isKernel_of_mem (hg : g.WellFormed) (hkernel : kernel ∈ (g.kernels a).items) :
    g.IsKernel kernel := by
  rcases kernel_cases hg hkernel with rfl | ⟨before, -, hnext⟩
  · exact isKernel_initial hg
  · obtain ⟨symbol, -, rfl⟩ := mem_kernelsAfter.mp hnext
    exact isKernel_kernelAfter g _ symbol

end Grammar

end OperatorLALR
