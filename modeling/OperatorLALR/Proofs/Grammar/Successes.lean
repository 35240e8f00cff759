import OperatorLALR.Proofs.Grammar.Consistency

/-!
# Definitions without failures

Where all declarations of a list succeed (`Definition.Succeeds`), the grammar is that of the last
definition. Terminals with new names succeed one after the other (`succeeds_terminals`), and so do
rules that are permitted and new (`succeeds_rules`), as long as there are indices left.
-/

namespace OperatorLALR

namespace Definition

variable {d d' d'' : Definition}

/-- All declarations of a list succeed one after the other, and lead to a definition. -/
inductive Succeeds : Definition → List Declaration → Definition → Prop
  | nil (d : Definition) : Succeeds d [] d
  | cons {d d' d'' : Definition} {step : Declaration} {steps : List Declaration}
      {declared : Declared} (hstep : d.declare step = (.ok declared, d'))
      (h : Succeeds d' steps d'') : Succeeds d (step :: steps) d''

/-- Declarations that succeed may be followed by others. -/
theorem Succeeds.append {front back : List Declaration} (h : Succeeds d front d')
    (h' : Succeeds d' back d'') : Succeeds d (front ++ back) d'' := by
  induction h with
  | nil => exact h'
  | cons hstep _ ih => exact .cons hstep (ih h')

/-- Where all declarations succeed, the grammar is that of the last definition. -/
theorem Succeeds.ofDeclared {steps : List Declaration} (h : Succeeds d steps d') :
    Grammar.ofDeclared (d.declareAll steps).1 (d.declareAll steps).2 = d'.finish := by
  induction h with
  | nil => rfl
  | cons hstep _ ih =>
    rw [declareAll, hstep]
    exact (Grammar.ofDeclared_cons _ _ _).trans ih

/-- A permitted rule that is new has no fault while there is an index left for it. -/
theorem Permits.ruleFault_eq_none {rule : Rule} (h : d.Permits rule)
    (hnew : ∀ other ∈ d.rules, (other.left, other.body) ≠ (rule.left, rule.body))
    (hroom : d.rules.length + 1 < indexLimit) : d.ruleFault rule = none := by
  have hbody : rule.body.findSome? d.bodyFault = none := by
    refine List.findSome?_eq_none_iff.mpr fun symbol hsymbol => ?_
    cases symbol with
    | terminal t =>
      obtain ⟨hne, terminal, hterminal, htag⟩ := h.terminals t hsymbol
      simp [bodyFault, hterminal, htag, hne]
    | nonterminal n => simp [bodyFault, h.nonterminals n hsymbol]
  have htag : (rule.tag.filter fun t => !d.declaresTerminal t) = none :=
    Option.filter_eq_none_iff.mpr fun t ht => by simp [h.tag t ht]
  have hdistinct : ¬ (d.rules.any fun other =>
      other.left == rule.left && other.body == rule.body) = true := by
    rw [List.any_eq_true]
    rintro ⟨other, hother, heq⟩
    rw [Bool.and_eq_true, beq_iff_eq, beq_iff_eq] at heq
    exact hnew other hother (Prod.ext heq.1 heq.2)
  have hleft : ¬ (!d.declaresNonterminal rule.left) = true := by simp [h.left]
  rw [ruleFault, if_neg hleft, if_neg (Nat.not_lt_of_le h.length_body), hbody, htag]
  dsimp only
  rw [if_neg hdistinct, if_neg (Nat.not_le_of_lt hroom)]

/-- Plain terminals with new names are declared one after the other. -/
theorem succeeds_terminals {names : List String} (hnames : ∀ name ∈ names, name ≠ "")
    (hnodup : names.Nodup) (hfresh : ∀ name ∈ names, ∀ t ∈ d.terminals, t.name ≠ name)
    (hroom : d.terminals.length + names.length ≤ indexLimit) :
    Succeeds d (names.map (.terminal · none))
      { d with terminals := d.terminals ++ names.map (⟨·, none, .plain⟩) } := by
  induction names generalizing d with
  | nil => simpa using Succeeds.nil d
  | cons name names ih =>
    obtain ⟨hname, hnames⟩ := List.forall_mem_cons.mp hnames
    obtain ⟨hnew, hnodup⟩ := List.nodup_cons.mp hnodup
    obtain ⟨hfreshName, hfresh⟩ := List.forall_mem_cons.mp hfresh
    rw [List.length_cons] at hroom
    have hadmits : d.Admits ⟨name, none, .plain⟩ := ⟨hname, hfreshName, by omega⟩
    have hstep : d.declare (.terminal name none) = (.ok (.terminal ⟨d.terminals.length⟩),
        { d with terminals := d.terminals ++ [⟨name, none, .plain⟩] }) := by
      rw [declare, hadmits.addTerminal]
      rfl
    refine .cons hstep ?_
    have hrest := ih (d := { d with terminals := d.terminals ++ [⟨name, none, .plain⟩] }) hnames
      hnodup ?_ ?_
    · simpa only [List.append_assoc, List.singleton_append, List.map_cons] using hrest
    · intro other hother t ht
      rcases List.mem_append.mp ht with ht | ht
      · exact hfresh other hother t ht
      · rw [List.mem_singleton.mp ht]
        rintro rfl
        exact hnew hother
    · rw [List.length_append, List.length_singleton]
      omega

/-- Rules that are permitted and new are declared one after the other. -/
theorem succeeds_rules {rules : List Rule} (hpermits : ∀ rule ∈ rules, d.Permits rule)
    (hfresh : ∀ rule ∈ rules, ∀ other ∈ d.rules, (other.left, other.body) ≠ (rule.left, rule.body))
    (hdistinct : rules.Pairwise fun rule other =>
      (rule.left, rule.body) ≠ (other.left, other.body))
    (hroom : d.rules.length + rules.length < indexLimit) :
    Succeeds d (rules.map fun rule => .rule rule.left rule.body rule.tag)
      { d with rules := d.rules ++ rules } := by
  induction rules generalizing d with
  | nil => simpa using Succeeds.nil d
  | cons rule rules ih =>
    obtain ⟨hrule, hpermits⟩ := List.forall_mem_cons.mp hpermits
    obtain ⟨hfreshRule, hfresh⟩ := List.forall_mem_cons.mp hfresh
    obtain ⟨hnew, hdistinct⟩ := List.pairwise_cons.mp hdistinct
    rw [List.length_cons] at hroom
    have hfault : d.ruleFault rule = none := hrule.ruleFault_eq_none hfreshRule (by omega)
    have hstep : d.declare (.rule rule.left rule.body rule.tag) =
        (.ok (.rule ⟨d.rules.length + 1⟩), { d with rules := d.rules ++ [rule] }) := by
      rw [declare, addRule, hfault]
      rfl
    refine .cons hstep ?_
    have hwithin : d.Within { d with rules := d.rules ++ [rule] } :=
      { Within.refl d with rules := List.prefix_append _ _ }
    have hrest := ih (fun other hother => (hpermits other hother).mono hwithin) ?_ hdistinct ?_
    · simpa only [List.append_assoc, List.singleton_append] using hrest
    · intro other hother earlier hearlier
      rcases List.mem_append.mp hearlier with hearlier | hearlier
      · exact hfresh other hother earlier hearlier
      · rw [List.mem_singleton.mp hearlier]
        exact hnew other hother
    · rw [List.length_append, List.length_singleton]
      omega

end Definition

end OperatorLALR
