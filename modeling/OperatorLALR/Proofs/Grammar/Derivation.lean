import Mathlib.Logic.Relation
import OperatorLALR.Grammar.Basic

/-!
# Derivations

A list of symbols derives another by replacing nonterminals with the bodies of their rules. It
vanishes if it derives nothing, and a terminal begins it if it derives a list with that terminal in
front. Both are decided symbol by symbol, from the left (`vanishes_append`, `begins_append`).
-/

namespace OperatorLALR.Grammar

/-- One nonterminal of a list is replaced by the body of one of its rules. -/
inductive Rewrites (g : Grammar) : List Symbol → List Symbol → Prop
  | head {r : RuleId} {rule : Rule} (h : g.rule? r = some rule) (rest : List Symbol) :
      Rewrites g (.nonterminal rule.left :: rest) (rule.body ++ rest)
  | tail {xs ys : List Symbol} (symbol : Symbol) (h : Rewrites g xs ys) :
      Rewrites g (symbol :: xs) (symbol :: ys)

/-- Nonterminals are replaced any number of times. -/
def Derives (g : Grammar) : List Symbol → List Symbol → Prop := Relation.ReflTransGen g.Rewrites

/-- The empty list is derived. -/
def Vanishes (g : Grammar) (symbols : List Symbol) : Prop := g.Derives symbols []

/-- A list with a terminal in front is derived. -/
def Begins (g : Grammar) (symbols : List Symbol) (t : TerminalId) : Prop :=
  ∃ rest, g.Derives symbols (.terminal t :: rest)

variable {g : Grammar} {xs ys zs : List Symbol} {t : TerminalId}

/-- A replacement in a list takes place in one of its parts. -/
theorem Rewrites.of_append (h : g.Rewrites (xs ++ ys) zs) :
    (∃ xs', g.Rewrites xs xs' ∧ zs = xs' ++ ys) ∨ ∃ ys', g.Rewrites ys ys' ∧ zs = xs ++ ys' := by
  induction xs generalizing zs with
  | nil => exact .inr ⟨zs, h, rfl⟩
  | cons symbol xs ih =>
    cases h with
    | head hrule => exact .inl ⟨_, .head hrule xs, (List.append_assoc _ _ _).symm⟩
    | tail _ h =>
      rcases ih h with ⟨xs', hxs, rfl⟩ | ⟨ys', hys, rfl⟩
      · exact .inl ⟨symbol :: xs', .tail symbol hxs, rfl⟩
      · exact .inr ⟨ys', hys, rfl⟩

/-- A replacement puts the body of a rule in the place of its head. -/
theorem Rewrites.exists_rule (h : g.Rewrites xs ys) :
    ∃ before r rule after, g.rule? r = some rule ∧
      xs = before ++ .nonterminal rule.left :: after ∧ ys = before ++ (rule.body ++ after) := by
  induction h with
  | @head r rule hrule rest => exact ⟨[], r, rule, rest, hrule, rfl, rfl⟩
  | tail symbol _ ih =>
    obtain ⟨before, r, rule, after, hrule, rfl, rfl⟩ := ih
    exact ⟨symbol :: before, r, rule, after, hrule, rfl, rfl⟩

/-- A replacement may take place in front of further symbols. -/
theorem Rewrites.append_right (h : g.Rewrites xs ys) (zs : List Symbol) :
    g.Rewrites (xs ++ zs) (ys ++ zs) := by
  induction h with
  | head hrule rest =>
    rw [List.append_assoc]
    exact .head hrule (rest ++ zs)
  | tail symbol _ ih => exact .tail symbol ih

/-- A replacement may take place behind further symbols. -/
theorem Rewrites.append_left (h : g.Rewrites xs ys) (zs : List Symbol) :
    g.Rewrites (zs ++ xs) (zs ++ ys) := by
  induction zs with
  | nil => exact h
  | cons symbol zs ih => exact .tail symbol ih

/-- What derives from two lists derives from them one by one. -/
theorem derives_append_iff :
    g.Derives (xs ++ ys) zs ↔ ∃ xs' ys', g.Derives xs xs' ∧ g.Derives ys ys' ∧ zs = xs' ++ ys' := by
  constructor
  · intro h
    induction h with
    | refl => exact ⟨xs, ys, .refl, .refl, rfl⟩
    | tail _ hstep ih =>
      obtain ⟨xs', ys', hxs, hys, rfl⟩ := ih
      rcases hstep.of_append with ⟨xs'', hleft, rfl⟩ | ⟨ys'', hright, rfl⟩
      · exact ⟨xs'', ys', hxs.tail hleft, hys, rfl⟩
      · exact ⟨xs', ys'', hxs, hys.tail hright, rfl⟩
  · rintro ⟨xs', ys', hxs, hys, rfl⟩
    have hleft : g.Derives (xs ++ ys) (xs' ++ ys) := by
      induction hxs with
      | refl => exact .refl
      | tail _ hstep ih => exact ih.tail (hstep.append_right ys)
    have hright : g.Derives (xs' ++ ys) (xs' ++ ys') := by
      induction hys with
      | refl => exact .refl
      | tail _ hstep ih => exact ih.tail (hstep.append_left xs')
    exact Relation.ReflTransGen.trans hleft hright

/-- Lists of symbols derive one another part by part. -/
theorem Derives.append {us vs : List Symbol} (h : g.Derives xs us) (h' : g.Derives ys vs) :
    g.Derives (xs ++ ys) (us ++ vs) :=
  derives_append_iff.mpr ⟨us, vs, h, h', rfl⟩

/-- A nonterminal derives what the body of one of its rules derives. -/
theorem Derives.rule {r : RuleId} {rule : Rule} (hrule : g.rule? r = some rule)
    (h : g.Derives rule.body ys) : g.Derives [.nonterminal rule.left] ys := by
  have hstep : g.Rewrites [.nonterminal rule.left] (rule.body ++ []) := .head hrule []
  rw [List.append_nil] at hstep
  exact Relation.ReflTransGen.head hstep h

/-- From a terminal in front only lists with it in front derive. -/
theorem derives_terminal_cons (h : g.Derives (.terminal t :: xs) ys) :
    ∃ ys', ys = .terminal t :: ys' := by
  induction h with
  | refl => exact ⟨xs, rfl⟩
  | tail _ hstep ih =>
    obtain ⟨ys', rfl⟩ := ih
    cases hstep with
    | tail _ h => exact ⟨_, rfl⟩

/-- From nothing only nothing derives. -/
theorem derives_nil (h : g.Derives [] ys) : ys = [] := by
  induction h with
  | refl => rfl
  | tail _ hstep ih =>
    subst ih
    cases hstep

/-- The empty list vanishes. -/
theorem vanishes_nil : g.Vanishes [] := .refl

/-- Two lists vanish together if each of them does. -/
theorem vanishes_append : g.Vanishes (xs ++ ys) ↔ g.Vanishes xs ∧ g.Vanishes ys := by
  unfold Vanishes
  rw [derives_append_iff]
  constructor
  · rintro ⟨xs', ys', hxs, hys, hnil⟩
    obtain ⟨rfl, rfl⟩ := List.append_eq_nil_iff.mp hnil.symm
    exact ⟨hxs, hys⟩
  · exact fun ⟨hxs, hys⟩ => ⟨[], [], hxs, hys, rfl⟩

/-- A nonterminal vanishes with the body of one of its rules. -/
theorem vanishes_rule {r : RuleId} {rule : Rule} (hrule : g.rule? r = some rule)
    (h : g.Vanishes rule.body) : g.Vanishes [.nonterminal rule.left] := Derives.rule hrule h

/-- Nothing begins the empty list. -/
theorem not_begins_nil : ¬ g.Begins [] t := by
  rintro ⟨rest, h⟩
  cases derives_nil h

/-- A terminal in front is all that begins a list. -/
theorem begins_terminal {t' : TerminalId} : g.Begins (.terminal t' :: xs) t ↔ t = t' := by
  constructor
  · rintro ⟨rest, h⟩
    obtain ⟨ys', hcons⟩ := derives_terminal_cons h
    exact Symbol.terminal.inj (List.cons.inj hcons).1
  · rintro rfl
    exact ⟨xs, .refl⟩

/-- What begins two lists begins the first, or the second if the first vanishes. -/
theorem begins_append : g.Begins (xs ++ ys) t ↔ g.Begins xs t ∨ g.Vanishes xs ∧ g.Begins ys t := by
  constructor
  · rintro ⟨rest, h⟩
    obtain ⟨xs', ys', hxs, hys, hcons⟩ := derives_append_iff.mp h
    cases xs' with
    | nil => exact .inr ⟨hxs, rest, hcons ▸ hys⟩
    | cons symbol xs' =>
      obtain ⟨rfl, -⟩ := List.cons.inj hcons
      exact .inl ⟨xs', hxs⟩
  · rintro (⟨rest, h⟩ | ⟨hvanishes, rest, h⟩)
    · exact ⟨rest ++ ys, h.append .refl⟩
    · exact ⟨rest, Derives.append hvanishes h⟩

/-- What begins the body of a rule begins its head. -/
theorem begins_rule {r : RuleId} {rule : Rule} (hrule : g.rule? r = some rule)
    (h : g.Begins rule.body t) : g.Begins [.nonterminal rule.left] t := by
  obtain ⟨rest, h⟩ := h
  exact ⟨rest, h.rule hrule⟩

/-- How a terminal comes to begin symbols: it stands in front, or begins a rule of what stands in
front, or what stands in front vanishes. -/
inductive Opens (g : Grammar) (t : TerminalId) : List Symbol → Prop
  | terminal (rest : List Symbol) : Opens g t (.terminal t :: rest)
  | enter {r : RuleId} {rule : Rule} (hrule : g.rule? r = some rule) (h : Opens g t rule.body)
      (rest : List Symbol) : Opens g t (.nonterminal rule.left :: rest)
  | skip {n : NonterminalId} {rest : List Symbol} (hn : g.Vanishes [.nonterminal n])
      (h : Opens g t rest) : Opens g t (.nonterminal n :: rest)

/-- What opens two lists opens the first, or the second if the first vanishes. -/
theorem Opens.of_append (h : g.Opens t (xs ++ ys)) :
    g.Opens t xs ∨ g.Vanishes xs ∧ g.Opens t ys := by
  induction xs with
  | nil => exact .inr ⟨vanishes_nil, h⟩
  | cons symbol xs ih =>
    cases h with
    | terminal => exact .inl (.terminal xs)
    | enter hrule h => exact .inl (.enter hrule h xs)
    | skip hn h =>
      rcases ih h with hxs | ⟨hxs, hys⟩
      · exact .inl (.skip hn hxs)
      · exact .inr ⟨vanishes_append.mpr ⟨hn, hxs⟩, hys⟩

/-- What opens symbols after a replacement opens them before. -/
theorem Opens.of_rewrites (hrewrites : g.Rewrites xs ys) (h : g.Opens t ys) : g.Opens t xs := by
  induction hrewrites with
  | head hrule rest =>
    rcases h.of_append with hbody | ⟨hbody, hrest⟩
    · exact .enter hrule hbody rest
    · exact .skip (vanishes_rule hrule hbody) hrest
  | tail symbol _ ih =>
    cases h with
    | terminal => exact .terminal _
    | enter hrule h => exact .enter hrule h _
    | skip hn h => exact .skip hn (ih h)

/-- A terminal opens what it begins. -/
theorem opens_of_begins (h : g.Begins xs t) : g.Opens t xs := by
  obtain ⟨rest, hderives⟩ := h
  induction hderives using Relation.ReflTransGen.head_induction_on with
  | refl => exact .terminal rest
  | head hrewrites _ ih => exact ih.of_rewrites hrewrites

/-- A terminal begins what it opens. -/
theorem Opens.begins (h : g.Opens t xs) : g.Begins xs t := by
  induction h with
  | terminal => exact begins_terminal.mpr rfl
  | @enter r rule hrule _ rest ih =>
    have hfirst := begins_rule hrule ih
    exact begins_append.mpr (.inl hfirst)
  | skip hn _ ih => exact begins_append.mpr (.inr ⟨hn, ih⟩)

end OperatorLALR.Grammar
