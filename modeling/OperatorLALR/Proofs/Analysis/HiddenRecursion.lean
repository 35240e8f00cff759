import OperatorLALR.Proofs.Analysis.Acyclic

/-!
# Nonterminals behind symbols that vanish

A nonterminal hides another if it derives the other behind some symbols that vanish. A chain takes
part in that behind the place where the symbols stand (`Grammar.hides_of_chain`). Where no
nonterminal hides itself, hiding goes on only finitely often (`Grammar.depth_lt`). That no
nonterminal hides itself can be read off the rules if the nonterminals have levels that hiding
raises (`Grammar.not_hides_self_of_levels`).
-/

namespace OperatorLALR

variable {g : Grammar} {source target upper lower : NonterminalId} {tail : List Symbol}

/-- The source of a chain derives its target with the tail behind it. -/
theorem Chain.derives (h : Chain g source target tail) :
    g.Derives [.nonterminal source] (.nonterminal target :: tail) := by
  induction h with
  | nil => exact .refl
  | @cons r rule n target tail rest hrule hbody _ ih =>
    have hbehind : g.Derives ([.nonterminal n] ++ rest) (.nonterminal target :: tail ++ rest) :=
      ih.append .refl
    refine .rule hrule ?_
    rw [hbody]
    exact hbehind

namespace Grammar

/-- A nonterminal derives another behind some symbols that vanish. -/
def Hides (g : Grammar) (upper lower : NonterminalId) : Prop :=
  ∃ hidden rest, hidden ≠ [] ∧ g.Vanishes hidden ∧
    g.Derives [.nonterminal upper] (hidden ++ .nonterminal lower :: rest)

/-- What is hidden by a nonterminal that is hidden is hidden as well. -/
theorem Hides.trans {middle : NonterminalId} (h : g.Hides upper middle)
    (h' : g.Hides middle lower) : g.Hides upper lower := by
  obtain ⟨hidden, rest, hne, hvanishes, hderives⟩ := h
  obtain ⟨hidden', rest', -, hvanishes', hderives'⟩ := h'
  have hmiddle : g.Derives (hidden ++ ([.nonterminal middle] ++ rest))
      (hidden ++ ((hidden' ++ .nonterminal lower :: rest') ++ rest)) :=
    Derives.append .refl (hderives'.append .refl)
  have hlower : (hidden ++ hidden') ++ .nonterminal lower :: (rest' ++ rest) =
      hidden ++ ((hidden' ++ .nonterminal lower :: rest') ++ rest) := by
    simp only [List.append_assoc, List.cons_append]
  refine ⟨hidden ++ hidden', rest' ++ rest, fun hnil => ?_,
    vanishes_append.mpr ⟨hvanishes, hvanishes'⟩, ?_⟩
  · exact hne (List.append_eq_nil_iff.mp hnil).1
  · rw [hlower]
    exact Relation.ReflTransGen.trans hderives hmiddle

/-- The head of a rule hides the nonterminals to which chains lead from one of its body, if the
symbols in front of that one vanish. -/
theorem hides_of_chain {r : RuleId} {rule : Rule} {hidden rest : List Symbol}
    (hrule : g.rule? r = some rule) (hbody : rule.body = hidden ++ .nonterminal source :: rest)
    (hne : hidden ≠ []) (hvanishes : g.Vanishes hidden) (hchain : Chain g source target tail) :
    g.Hides rule.left target := by
  have hsource : g.Derives (hidden ++ ([.nonterminal source] ++ rest))
      (hidden ++ ((.nonterminal target :: tail) ++ rest)) :=
    Derives.append .refl (hchain.derives.append .refl)
  refine ⟨hidden, tail ++ rest, hne, hvanishes, .rule hrule ?_⟩
  rw [hbody]
  exact hsource

open Classical in
/-- The number of nonterminals that hide a nonterminal. -/
noncomputable def depth (g : Grammar) (n : NonterminalId) : Nat :=
  g.nonterminalIds.countP fun upper => g.Hides upper n

/-- No more nonterminals hide one than there are. -/
theorem depth_le (g : Grammar) (n : NonterminalId) : g.depth n ≤ g.nonterminals.length := by
  have hle : g.depth n ≤ g.nonterminalIds.length := List.countP_le_length
  rwa [nonterminalIds, Index.length_below] at hle

/-- Fewer nonterminals hide one that hides another, if it does not hide itself. -/
theorem depth_lt (hself : ¬ g.Hides upper upper) (h : g.Hides upper lower)
    (hupper : upper.val < g.nonterminals.length) : g.depth upper < g.depth lower := by
  have hgrows : Grows (fun n other => g.Hides other n) g.nonterminalIds upper lower :=
    ⟨fun _ hother => hother.trans h, fun _ => ⟨upper, Index.mem_below.mpr hupper, h, hself⟩⟩
  refine hgrows.countP_lt ?_
  rintro rfl
  exact hself h

/-- Levels of nonterminals do not fall from the head of a rule to a nonterminal in its body with
nothing but symbols that vanish in front, and rise if there are some. -/
def Levels (g : Grammar) (level : NonterminalId → Nat) : Prop :=
  ∀ rule ∈ g.rules, ∀ i ∈ List.range rule.body.length, ∀ n ∈ g.nonterminalIds,
    rule.body[i]? = some (.nonterminal n) → allNullable g.nullableSet (rule.body.take i) = true →
      level rule.left ≤ level n ∧ (0 < i → level rule.left < level n)

/-- Levels do not fall from the head of a rule to what stands in its body behind symbols that
vanish. -/
theorem Levels.of_rule {level : NonterminalId → Nat} (h : g.Levels level) (hg : g.WellFormed)
    {r : RuleId} {rule : Rule} {hidden rest : List Symbol} (hrule : g.rule? r = some rule)
    (hbody : rule.body = hidden ++ .nonterminal lower :: rest) (hvanishes : g.Vanishes hidden) :
    level rule.left ≤ level lower ∧ (hidden ≠ [] → level rule.left < level lower) := by
  have hdeclared : g.Declares (.nonterminal lower) :=
    hg.body r rule hrule _ (by simp [hbody])
  have hplace : rule.body[hidden.length]? = some (.nonterminal lower) := by simp [hbody]
  have hlength : hidden.length < rule.body.length := (List.getElem?_eq_some_iff.mp hplace).1
  have hfront : rule.body.take hidden.length = hidden := by simp [hbody]
  have hnullable : allNullable g.nullableSet (rule.body.take hidden.length) = true := by
    rw [hfront]
    exact (allNullable_iff hg).mpr hvanishes
  obtain ⟨hle, hlt⟩ := h rule (mem_rules.mpr ⟨r, hrule⟩) hidden.length (List.mem_range.mpr hlength)
    lower (Index.mem_below.mpr hdeclared.2) hplace hnullable
  exact ⟨hle, fun hne => hlt (List.length_pos_of_ne_nil hne)⟩

/-- An element of two lists stands in the first or in the second. -/
theorem append_eq_append_cons {α : Type} {xs ys front back : List α} {x : α}
    (h : xs ++ ys = front ++ x :: back) :
    (∃ between, xs = front ++ x :: between ∧ back = between ++ ys) ∨
      ∃ between, front = xs ++ between ∧ ys = between ++ x :: back := by
  rcases List.append_eq_append_iff.mp h with ⟨between, rfl, hys⟩ | ⟨between, rfl, hback⟩
  · exact .inr ⟨between, rfl, hys⟩
  · cases between with
    | nil => exact .inr ⟨[], by simp only [List.append_nil], hback.symm⟩
    | cons y between =>
      obtain ⟨rfl, rfl⟩ := List.cons.inj hback
      exact .inl ⟨between, rfl, rfl⟩

/-- Levels do not fall from a nonterminal to what it derives behind symbols that vanish, and rise
if there are some. -/
theorem Levels.of_derives {level : NonterminalId → Nat} (h : g.Levels level) (hg : g.WellFormed)
    {symbols hidden rest : List Symbol} (hderives : g.Derives [.nonterminal upper] symbols)
    (hsymbols : symbols = hidden ++ .nonterminal lower :: rest) (hvanishes : g.Vanishes hidden) :
    level upper ≤ level lower ∧ (hidden ≠ [] → level upper < level lower) := by
  induction hderives generalizing hidden lower rest with
  | refl =>
    rcases List.singleton_eq_append_iff.mp hsymbols with ⟨rfl, hlower⟩ | ⟨-, hnil⟩
    · obtain rfl := Symbol.nonterminal.inj (List.cons.inj hlower).1
      exact ⟨Nat.le_refl _, fun hne => absurd rfl hne⟩
    · cases hnil
  | @tail middle _ _ hstep ih =>
    obtain ⟨before, r, rule, after, hrule, rfl, rfl⟩ := hstep.exists_rule
    rcases append_eq_append_cons hsymbols with ⟨between, rfl, -⟩ | ⟨front, rfl, hfront⟩
    · -- what stands behind the symbols that vanish has not been touched
      exact ih (List.append_assoc _ _ _) hvanishes
    · obtain ⟨hbefore, hfront'⟩ := vanishes_append.mp hvanishes
      rcases append_eq_append_cons hfront with ⟨back, hbody, -⟩ | ⟨between, rfl, rfl⟩
      · -- it comes from the body of the rule
        obtain ⟨hle, hlt⟩ := ih rfl hbefore
        obtain ⟨hle', hlt'⟩ := h.of_rule hg hrule hbody hfront'
        refine ⟨Nat.le_trans hle hle', fun hne => ?_⟩
        by_cases hfirst : before = []
        · have hsecond : front ≠ [] := fun hnil => hne (by rw [hfirst, hnil, List.append_nil])
          exact Nat.lt_of_le_of_lt hle (hlt' hsecond)
        · exact Nat.lt_of_lt_of_le (hlt hfirst) hle'
      · -- the rule is one of the symbols that vanish
        obtain ⟨hbody, hbetween⟩ := vanishes_append.mp hfront'
        have hold : g.Vanishes (before ++ .nonterminal rule.left :: between) :=
          vanishes_append.mpr ⟨hbefore, vanishes_append.mpr ⟨vanishes_rule hrule hbody, hbetween⟩⟩
        have hlt := (ih (by rw [List.append_assoc, List.cons_append]) hold).2 (by simp)
        exact ⟨Nat.le_of_lt hlt, fun _ => hlt⟩

/-- Where the nonterminals have levels, none hides itself. -/
theorem not_hides_self_of_levels {level : NonterminalId → Nat} (h : g.Levels level)
    (hg : g.WellFormed) (n : NonterminalId) : ¬ g.Hides n n := by
  rintro ⟨hidden, rest, hne, hvanishes, hderives⟩
  exact Nat.lt_irrefl _ ((h.of_derives hg hderives rfl hvanishes).2 hne)

end Grammar

end OperatorLALR
