import Mathlib.Data.Nat.Digits.Defs
import OperatorLALR.Proofs.Termination.Stacks

/-!
# Reductions take load from a stack

A reduction puts a node in the place of its handle, or on top if its rule is empty. Where no
nonterminal hides itself, only so many entries on top of a stack vanish. What is below them becomes
lower by a reduction, or stays as high; then the ranks of the trees from there on are the digits of
a number, the topmost the lowest, that gains a digit, or has some replaced by a smaller one. Either
takes room among the numbers with as many digits as there may be (`room_cons_lt`,
`room_replace_lt`), so that each reduction takes load from the stack (`Path.load_lt`).
-/

namespace OperatorLALR

section Room

/-- The room below some digits, the lowest first, among the numbers with a number of digits. -/
def room (base size : Nat) (digits : List Nat) : Nat :=
  (Nat.ofDigits base digits + 1) * base ^ (size - digits.length)

variable {base size x y : Nat} {xs zs : List Nat}

/-- There is no more room than there are numbers. -/
theorem room_le (hbase : 1 < base) (hxs : ∀ x ∈ xs, x < base) (hsize : xs.length ≤ size) :
    room base size xs ≤ base ^ size := by
  calc room base size xs
      ≤ base ^ xs.length * base ^ (size - xs.length) :=
        Nat.mul_le_mul_right _ (Nat.ofDigits_lt_base_pow_length hbase hxs)
    _ = base ^ size := by rw [← pow_add, Nat.add_sub_cancel' hsize]

/-- A further digit below, unless it is the greatest, takes room. -/
theorem room_cons_lt (hx : x + 1 < base) (hsize : xs.length < size) :
    room base size (x :: xs) < room base size xs := by
  obtain ⟨k, hk⟩ : ∃ k, size - xs.length = k + 1 := ⟨size - xs.length - 1, by omega⟩
  have hk' : size - (x :: xs).length = k := by
    rw [List.length_cons]
    omega
  have hpos : 0 < base ^ k := Nat.pow_pos (by omega)
  rw [room, room, hk, hk', Nat.ofDigits_cons, pow_succ, ← Nat.mul_assoc,
    Nat.mul_right_comm, Nat.mul_lt_mul_right hpos, Nat.add_mul, Nat.mul_comm base]
  omega

/-- A smaller digit in the place of some digits takes room. -/
theorem room_replace_lt (hbase : 0 < base) (hyx : y < x) (hsize : (zs ++ x :: xs).length ≤ size) :
    room base size (y :: xs) < room base size (zs ++ x :: xs) := by
  obtain ⟨k, hk⟩ : ∃ k, size - (zs ++ x :: xs).length = k := ⟨_, rfl⟩
  have hk' : size - (y :: xs).length = zs.length + k := by
    simp only [List.length_append, List.length_cons] at hk hsize ⊢
    omega
  have hpos : 0 < base ^ k := Nat.pow_pos hbase
  have hbelow : Nat.ofDigits base (y :: xs) + 1 ≤ Nat.ofDigits base (x :: xs) := by
    rw [Nat.ofDigits_cons, Nat.ofDigits_cons]
    omega
  rw [room, room, hk, hk', Nat.ofDigits_append, pow_add, ← Nat.mul_assoc,
    Nat.mul_lt_mul_right hpos]
  calc (Nat.ofDigits base (y :: xs) + 1) * base ^ zs.length
      ≤ Nat.ofDigits base (x :: xs) * base ^ zs.length := Nat.mul_le_mul_right _ hbelow
    _ = base ^ zs.length * Nat.ofDigits base (x :: xs) := Nat.mul_comm _ _
    _ < Nat.ofDigits base zs + base ^ zs.length * Nat.ofDigits base (x :: xs) + 1 := by omega

end Room

variable {τ β σ : Type} {g : Grammar}

/-- No rank is above that of a token. -/
theorem ParseTree.rank_le (g : Grammar) (tree : ParseTree τ) :
    tree.rank g ≤ g.nonterminals.length + 1 := by
  cases tree with
  | leaf => exact Nat.le_refl _
  | node r => exact Nat.le_succ_of_le (g.rank_le _)

/-- The ranks of the trees on top of a stack, down to the first that does not vanish. -/
noncomputable def topRanks (g : Grammar) : List (StackEntry τ (ParseTree τ)) → List Nat
  | [] => []
  | e :: below => e.item.tree.rank g :: if e.item.tree.vanishes g then topRanks g below else []

/-- What is left of a stack without the entries on top that vanish. -/
def firm (g : Grammar) (stack : List (StackEntry τ (ParseTree τ))) :
    List (StackEntry τ (ParseTree τ)) :=
  stack.dropWhile fun e => e.item.tree.vanishes g

/-- What bounds the reductions on a stack: the height down to the first entry that does not vanish,
and then the room that the ranks from there on leave. -/
noncomputable def load (g : Grammar) (stack : List (StackEntry τ (ParseTree τ))) : Nat :=
  (firm g stack).length * ((g.nonterminals.length + 3) ^ (g.slack + 1) + 1) +
    room (g.nonterminals.length + 3) (g.slack + 1) (topRanks g stack)

section Entries

variable {e : StackEntry τ (ParseTree τ)} {above below stack : List (StackEntry τ (ParseTree τ))}

/-- The ranks on top of a stack go on below an entry that vanishes. -/
theorem topRanks_cons (he : e.item.tree.vanishes g = true) :
    topRanks g (e :: below) = e.item.tree.rank g :: topRanks g below := by
  rw [topRanks, if_pos he]

/-- The ranks on top of a stack go on below entries that vanish. -/
theorem topRanks_append (habove : ∀ e ∈ above, e.item.tree.vanishes g = true) :
    topRanks g (above ++ below) = above.map (fun e => e.item.tree.rank g) ++ topRanks g below := by
  induction above with
  | nil => rfl
  | cons e above ih =>
    obtain ⟨he, habove⟩ := List.forall_mem_cons.mp habove
    rw [List.cons_append, topRanks_cons he, ih habove]
    rfl

/-- The ranks on top of a stack end with an entry that does not vanish. -/
theorem topRanks_cons_of_not (he : ¬ e.item.tree.vanishes g = true) :
    topRanks g (e :: below) = [e.item.tree.rank g] := by
  rw [topRanks, if_neg he]

/-- An entry on top that vanishes does not count. -/
theorem firm_cons (he : e.item.tree.vanishes g = true) : firm g (e :: below) = firm g below :=
  List.dropWhile_cons_of_pos he

/-- An entry on top that does not vanish counts, with all that is below. -/
theorem firm_cons_of_not (he : ¬ e.item.tree.vanishes g = true) :
    firm g (e :: below) = e :: below :=
  List.dropWhile_cons_of_neg he

/-- What does not count is on top. -/
theorem length_firm_le (g : Grammar) (stack : List (StackEntry τ (ParseTree τ))) :
    (firm g stack).length ≤ stack.length :=
  (List.dropWhile_sublist _).length_le

/-- Entries on top that vanish do not count. -/
theorem firm_append (habove : ∀ e ∈ above, e.item.tree.vanishes g = true) :
    firm g (above ++ below) = firm g below :=
  List.dropWhile_append_of_pos habove

/-- Entries of which some does not vanish count. -/
theorem length_lt_firm (habove : ¬ ∀ e ∈ above, e.item.tree.vanishes g = true) :
    below.length < (firm g (above ++ below)).length := by
  induction above with
  | nil => exact absurd (List.forall_mem_nil _) habove
  | cons e above ih =>
    rw [List.cons_append]
    by_cases he : e.item.tree.vanishes g = true
    · rw [firm_cons he]
      exact ih fun h => habove (List.forall_mem_cons.mpr ⟨he, h⟩)
    · rw [firm_cons_of_not he, List.length_cons, List.length_append]
      omega

/-- The ranks on top of a stack are digits. -/
theorem lt_of_mem_topRanks : ∀ x ∈ topRanks g stack, x < g.nonterminals.length + 3 := by
  induction stack with
  | nil => exact nofun
  | cons e below ih =>
    intro x hx
    rw [topRanks] at hx
    rcases List.mem_cons.mp hx with rfl | hx
    · have hle := e.item.tree.rank_le g
      omega
    · split at hx
      · exact ih x hx
      · cases hx

/-- All ranks on top of a stack are of entries that vanish, except for the last. -/
theorem exists_topRanks_le (g : Grammar) (stack : List (StackEntry τ (ParseTree τ))) :
    ∃ v ≤ stack.length, (∀ e ∈ stack.take v, e.item.tree.vanishes g = true) ∧
      (topRanks g stack).length ≤ v + 1 := by
  induction stack with
  | nil => exact ⟨0, Nat.le_refl 0, nofun, Nat.zero_le 1⟩
  | cons e below ih =>
    by_cases he : e.item.tree.vanishes g = true
    · obtain ⟨v, hv, htop, hle⟩ := ih
      rw [topRanks_cons he]
      exact ⟨v + 1, Nat.succ_le_succ hv, List.forall_mem_cons.mpr ⟨he, htop⟩, Nat.succ_le_succ hle⟩
    · rw [topRanks_cons_of_not he]
      exact ⟨0, Nat.zero_le _, nofun, Nat.le_refl 1⟩

/-- A stack that becomes lower, entries on top that vanish apart, loses load. -/
theorem load_lt_of_firm {stack' : List (StackEntry τ (ParseTree τ))}
    (hsize : (topRanks g stack').length ≤ g.slack + 1)
    (hlower : (firm g stack').length < (firm g stack).length) : load g stack' < load g stack := by
  have hroom := room_le (by omega) (fun x => lt_of_mem_topRanks x) hsize
  have hmul := Nat.mul_le_mul_right ((g.nonterminals.length + 3) ^ (g.slack + 1) + 1) hlower
  rw [Nat.succ_mul] at hmul
  rw [load, load]
  omega

/-- A stack that stays as high, entries on top that vanish apart, loses load with room. -/
theorem load_lt_of_room {stack' : List (StackEntry τ (ParseTree τ))}
    (hsame : (firm g stack').length = (firm g stack).length)
    (hroom : room (g.nonterminals.length + 3) (g.slack + 1) (topRanks g stack') <
      room (g.nonterminals.length + 3) (g.slack + 1) (topRanks g stack)) :
    load g stack' < load g stack := by
  rw [load, load, hsame]
  exact Nat.add_lt_add_left hroom _

/-- An entry of lower rank in the place of one, and of the entries above it, takes load from a stack
if these vanish. -/
theorem load_lt_of_rank {first : StackEntry τ (ParseTree τ)}
    (habove : ∀ e ∈ above, e.item.tree.vanishes g = true)
    (hrank : e.item.tree.rank g < first.item.tree.rank g)
    (hvanishes : first.item.tree.vanishes g = true → e.item.tree.vanishes g = true)
    (hsize : (topRanks g (above ++ first :: below)).length ≤ g.slack + 1)
    (hsize' : (topRanks g (e :: below)).length ≤ g.slack + 1) :
    load g (e :: below) < load g (above ++ first :: below) := by
  have hranks : topRanks g (above ++ first :: below) =
      above.map (fun e => e.item.tree.rank g) ++ topRanks g (first :: below) :=
    topRanks_append habove
  have hfirm : firm g (above ++ first :: below) = firm g (first :: below) := firm_append habove
  by_cases hfirst : first.item.tree.vanishes g = true
  · have he := hvanishes hfirst
    rw [topRanks_cons hfirst] at hranks
    refine load_lt_of_room ?_ ?_
    · rw [hfirm, firm_cons he, firm_cons hfirst]
    · rw [topRanks_cons he, hranks]
      exact room_replace_lt (Nat.succ_pos _) hrank (hranks ▸ hsize)
  · rw [firm_cons_of_not hfirst] at hfirm
    rw [topRanks_cons_of_not hfirst] at hranks
    by_cases he : e.item.tree.vanishes g = true
    · refine load_lt_of_firm hsize' ?_
      rw [hfirm, firm_cons he]
      exact Nat.lt_succ_of_le (length_firm_le g below)
    · refine load_lt_of_room ?_ ?_
      · rw [hfirm, firm_cons_of_not he]
        rfl
      · rw [topRanks_cons_of_not he, hranks]
        exact room_replace_lt (Nat.succ_pos _) hrank (hranks ▸ hsize)

end Entries

variable [Token τ] {a : Analysis} {p : Parser τ (ParseTree τ) β σ} {r : RuleId} {rule : Rule}
  {e first : StackEntry τ (ParseTree τ)} {above below stack : List (StackEntry τ (ParseTree τ))}
  {symbols symbols' : List Symbol}

omit [Token τ] in
/-- The node of a rule whose body vanishes does. -/
theorem vanishes_node (hg : g.WellFormed) (hrule : g.rule? r = some rule)
    (hbody : g.Vanishes rule.body) (children : List (ParseTree τ)) :
    (ParseTree.node r children).vanishes g = true := by
  rw [ParseTree.vanishes, Grammar.left_eq hrule]
  exact (Grammar.allNullable_iff hg).mpr (Grammar.vanishes_rule hrule hbody)

/-- The node of a rule in the place of its handle takes load from a stack. -/
theorem load_lt_of_handle (hg : g.Built a) (hr : r ≠ acceptRule) (hrule : g.rule? r = some rule)
    {symbol : Symbol} {rest : List Symbol} (hbody : rule.body = symbol :: rest)
    (hfirst : Spells g p.operators symbol first.item.tree)
    (hrest : List.Forall₂ (Spells g p.operators) rest (stackTrees above))
    {children : List (ParseTree τ)} (he : e.item.tree = .node r children)
    (hsize : (topRanks g (above ++ first :: below)).length ≤ g.slack + 1)
    (hsize' : (topRanks g (e :: below)).length ≤ g.slack + 1) :
    load g (e :: below) < load g (above ++ first :: below) := by
  by_cases habove : ∀ e ∈ above, e.item.tree.vanishes g = true
  · -- the node lifts what comes first in the handle
    have hvanishes : g.Vanishes rest :=
      vanishes_of_spells hg.wellFormed hrest (vanishes_of_mem_stackTrees habove)
    have hrank : e.item.tree.rank g < first.item.tree.rank g := by
      rw [he]
      exact rank_lt_of_spells hg ((Grammar.body_eq hrule).trans hbody) hvanishes hr hrule hfirst
    refine load_lt_of_rank habove hrank (fun hvanishing => ?_) hsize hsize'
    rw [he]
    refine vanishes_node hg.wellFormed hrule ?_ children
    rw [hbody]
    exact vanishes_of_spells hg.wellFormed (.cons hfirst hrest)
      (List.forall_mem_cons.mpr ⟨hvanishing, vanishes_of_mem_stackTrees habove⟩)
  · -- the node comes to lie below what did not vanish
    have hlower : (first :: below).length < (firm g (above ++ first :: below)).length :=
      length_lt_firm habove
    exact load_lt_of_firm hsize' (Nat.lt_of_le_of_lt (length_firm_le g (e :: below)) hlower)

/-- Where no nonterminal hides itself, there are no more ranks on top of a stack than digits. -/
theorem Path.length_topRanks_le (h : Path g a p stack symbols) (hg : g.Built a)
    (hinitial : p.table.initial = initialState) (hself : ∀ n, ¬ g.Hides n n) :
    (topRanks g stack).length ≤ g.slack + 1 := by
  obtain ⟨v, hv, htop, hle⟩ := exists_topRanks_le g stack
  exact Nat.le_trans hle (Nat.succ_le_succ (h.le_slack hg hinitial hself hv htop))

/-- A reduction takes load from the stack. -/
theorem Path.load_lt (h : Path g a p stack symbols) (hg : g.Built a)
    (hinitial : p.table.initial = initialState) (hself : ∀ n, ¬ g.Hides n n) (hr : r ≠ acceptRule)
    (hitem : (g.automaton a).Has (p.stateOn stack) ⟨r, (g.body r).length⟩)
    {children : List (ParseTree τ)} (he : e.item.tree = .node r children)
    (h' : Path g a p (e :: stack.drop (g.body r).length) symbols') :
    load g (e :: stack.drop (g.body r).length) < load g stack := by
  obtain ⟨rule, hrule, hbody⟩ : ∃ rule, g.rule? r = some rule ∧ g.body r = rule.body :=
    hg.exists_rule hitem
  obtain ⟨hlength, hspells, -⟩ := h.handle hg hinitial hitem
  have hsize := h.length_topRanks_le hg hinitial hself
  have hsize' := h'.length_topRanks_le hg hinitial hself
  rw [List.take_length, hbody] at hspells
  rw [hbody] at hlength hsize' ⊢
  cases hsymbols : rule.body with
  | nil =>
    have hnode : e.item.tree.vanishes g = true := by
      rw [he]
      exact vanishes_node hg.wellFormed hrule (hsymbols ▸ Grammar.vanishes_nil) children
    have hranks : topRanks g (e :: stack) = e.item.tree.rank g :: topRanks g stack :=
      topRanks_cons hnode
    have hrank : e.item.tree.rank g ≤ g.nonterminals.length := by
      rw [he]
      exact g.rank_le _
    rw [hsymbols, List.length_nil, List.drop_zero, hranks] at hsize'
    refine load_lt_of_room (congrArg List.length (firm_cons hnode)) ?_
    rw [List.length_nil, List.drop_zero, hranks]
    exact room_cons_lt (by omega) hsize'
  | cons symbol rest =>
    rw [hsymbols, List.length_cons] at hlength hspells hsize'
    obtain ⟨above, first, below, rfl, habove⟩ : ∃ above first below,
        stack = above ++ first :: below ∧ above.length = rest.length := by
      refine ⟨stack.take rest.length, stack[rest.length], stack.drop (rest.length + 1), ?_, ?_⟩
      · rw [← List.drop_eq_getElem_cons, List.take_append_drop]
      · exact List.length_take_of_le (Nat.le_of_succ_le hlength)
    have htake : (above ++ first :: below).take (rest.length + 1) = above ++ [first] := by
      rw [← habove, List.take_length_add_append]
      rfl
    have hdrop : (above ++ first :: below).drop (rest.length + 1) = below := by
      rw [← habove, List.drop_length_add_append]
      rfl
    have htrees : stackTrees (above ++ [first]) = first.item.tree :: stackTrees above := by
      rw [stackTrees, List.reverse_append, List.map_append]
      rfl
    rw [htake, htrees] at hspells
    rw [hdrop] at hsize'
    rw [List.length_cons, hdrop]
    obtain _ | ⟨hfirst, hrest⟩ := hspells
    exact load_lt_of_handle hg hr hrule hsymbols hfirst hrest he hsize hsize'

end OperatorLALR
