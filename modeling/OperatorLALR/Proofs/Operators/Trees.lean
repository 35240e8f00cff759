import OperatorLALR.Proofs.Operators.Expressions

/-!
# Expressions as trees

The derivation trees of the grammar of expressions, over tokens that are either atoms and
parentheses or operators of the three fixities, are built from atoms by parentheses and operators
(`Expression.of_spells`). What fits as an operand has at most the priority of its operator
(`ParseTree.Fits.le_of_left`, `ParseTree.Fits.le_of_right`), so that a bound on a node bounds its
operands as well.
-/

namespace OperatorLALR

variable {τ : Type}

/-- A reading is of an atom or a parenthesis, or of an operator by the terminal of its fixity. -/
def Reading.Proper (reading : Reading) : Prop :=
  match reading.operator with
  | none => reading.terminal.val ≤ 3
  | some op => reading.terminal = op.fixity.terminal

/-- The trees of expressions: operators stand where their fixities tell. -/
inductive Expression : ParseTree τ → Prop
  | atom (token : τ) (i : Nat) : Expression (.node ⟨4⟩ [.leaf token ⟨⟨1⟩, none⟩ i])
  | parens (left right : τ) (i j : Nat) {e : ParseTree τ} (h : Expression e) :
      Expression (.node ⟨5⟩ [.leaf left ⟨⟨2⟩, none⟩ i, e, .leaf right ⟨⟨3⟩, none⟩ j])
  | prefixOp (token : τ) (i : Nat) {op : Operator} {e : ParseTree τ} (hop : op.fixity = .prefixOp)
      (h : Expression e) : Expression (.node ⟨2⟩ [.leaf token ⟨⟨5⟩, some op⟩ i, e])
  | infixOp (token : τ) (i : Nat) {op : Operator} {e e' : ParseTree τ} (hop : op.fixity = .infixOp)
      (h : Expression e) (h' : Expression e') :
      Expression (.node ⟨1⟩ [e, .leaf token ⟨⟨4⟩, some op⟩ i, e'])
  | postfixOp (token : τ) (i : Nat) {op : Operator} {e : ParseTree τ} (hop : op.fixity = .postfixOp)
      (h : Expression e) : Expression (.node ⟨3⟩ [e, .leaf token ⟨⟨6⟩, some op⟩ i])

/-- A proper reading as an atom or a parenthesis is not of an operator. -/
theorem Reading.Proper.plain {reading : Reading} (h : reading.Proper) {t : TerminalId}
    (ht : reading.terminal = t) (hle : t.val ≤ 3) : reading = ⟨t, none⟩ := by
  obtain ⟨terminal, operator⟩ := reading
  obtain rfl : terminal = t := ht
  cases operator with
  | none => rfl
  | some op =>
    have hop : terminal = op.fixity.terminal := h
    rw [hop] at hle
    cases hfixity : op.fixity <;> rw [hfixity] at hle <;> exact absurd hle (by decide)

/-- A proper reading as the terminal of a fixity is of an operator of this fixity. -/
theorem Reading.Proper.operator {reading : Reading} (h : reading.Proper) {fixity : Fixity}
    (ht : reading.terminal = fixity.terminal) :
    ∃ op, reading = ⟨fixity.terminal, some op⟩ ∧ op.fixity = fixity := by
  obtain ⟨terminal, operator⟩ := reading
  obtain rfl : terminal = fixity.terminal := ht
  cases operator with
  | none =>
    have hle : fixity.terminal.val ≤ 3 := h
    cases fixity <;> exact absurd hle (by decide)
  | some op =>
    refine ⟨op, rfl, ?_⟩
    have hop : fixity.terminal = op.fixity.terminal := h
    cases hfixity : op.fixity <;> cases fixity <;> rw [hfixity] at hop <;>
      first | rfl | exact absurd hop (by decide)

section Spelling

variable [Token τ] {operators : OperatorTable}

/-- A tree for a terminal with a proper reading is a leaf that is properly read as it. -/
theorem Spells.exists_leaf {t : TerminalId} {tree : ParseTree τ}
    (h : Spells expressions operators (.terminal t) tree)
    (hproper : ∀ v ∈ tree.views, v.reading.Proper) :
    ∃ token reading i, tree = .leaf token reading i ∧ reading.terminal = t ∧ reading.Proper := by
  cases h with
  | leaf => exact ⟨_, _, _, rfl, rfl, hproper _ (List.mem_singleton_self _)⟩

/-- A tree for an atom or a parenthesis. -/
theorem Spells.exists_plain {t : TerminalId} {tree : ParseTree τ}
    (h : Spells expressions operators (.terminal t) tree)
    (hproper : ∀ v ∈ tree.views, v.reading.Proper) (hle : t.val ≤ 3) :
    ∃ token i, tree = .leaf token ⟨t, none⟩ i := by
  obtain ⟨token, reading, i, rfl, ht, hreading⟩ := h.exists_leaf hproper
  rw [hreading.plain ht hle]
  exact ⟨token, i, rfl⟩

/-- A tree for an operator of some fixity. -/
theorem Spells.exists_operator {t : TerminalId} {tree : ParseTree τ}
    (h : Spells expressions operators (.terminal t) tree) (fixity : Fixity)
    (ht : t = fixity.terminal) (hproper : ∀ v ∈ tree.views, v.reading.Proper) :
    ∃ token op i, tree = .leaf token ⟨t, some op⟩ i ∧ op.fixity = fixity := by
  obtain ⟨token, reading, i, rfl, hreads, hreading⟩ := h.exists_leaf hproper
  subst ht
  obtain ⟨op, rfl, hop⟩ := hreading.operator hreads
  exact ⟨token, op, i, rfl, hop⟩

/-- A derivation tree with proper readings is an expression. -/
theorem Expression.of_spells {tree : ParseTree τ}
    (h : Spells expressions operators (.nonterminal ⟨1⟩) tree)
    (hproper : ∀ v ∈ tree.views, v.reading.Proper) : Expression tree := by
  -- the trees for terminals take part in the induction as children
  have hall : ∀ (symbol : Symbol) (tree : ParseTree τ), Spells expressions operators symbol tree →
      symbol = .nonterminal ⟨1⟩ → (∀ v ∈ tree.views, v.reading.Proper) → Expression tree := by
    intro symbol tree h
    refine @Spells.rec τ _ expressions operators
      (fun symbol tree _ => symbol = .nonterminal ⟨1⟩ → (∀ v ∈ tree.views, v.reading.Proper) →
        Expression tree)
      (fun symbols trees _ => List.Forall₂ (fun symbol tree =>
        Spells expressions operators symbol tree ∧ (symbol = .nonterminal ⟨1⟩ →
          (∀ v ∈ tree.views, v.reading.Proper) → Expression tree)) symbols trees)
      ?_ ?_ ?_ ?_ symbol tree h
    · intro token reading position _ heq
      cases heq
    · intro r rule children hrule _ ih hleft hviews
      have hr : r ≠ acceptRule := by
        rintro rfl
        obtain rfl := Option.some.inj hrule
        cases hleft
      have hchildren : ∀ child ∈ children, ∀ v ∈ child.views, v.reading.Proper := by
        intro child hchild v hv
        refine hviews v ?_
        rw [ParseTree.views, ParseTree.viewsOf_eq, List.mem_flatMap]
        exact ⟨child, hchild, hv⟩
      clear hviews
      rcases expressions_rule_cases hrule hr with
        ⟨rfl, hbody⟩ | ⟨rfl, hbody⟩ | ⟨rfl, hbody⟩ | ⟨rfl, hbody⟩ | ⟨rfl, hbody⟩ <;>
        rw [hbody] at ih
      · obtain _ | ⟨he, _ | ⟨hleaf, _ | ⟨he', _ | _⟩⟩⟩ := ih
        simp only [List.forall_mem_cons] at hchildren
        obtain ⟨token, op, i, rfl, hop⟩ := hleaf.1.exists_operator .infixOp rfl hchildren.2.1
        exact .infixOp token i hop (he.2 rfl hchildren.1) (he'.2 rfl hchildren.2.2.1)
      · obtain _ | ⟨hleaf, _ | ⟨he, _ | _⟩⟩ := ih
        simp only [List.forall_mem_cons] at hchildren
        obtain ⟨token, op, i, rfl, hop⟩ := hleaf.1.exists_operator .prefixOp rfl hchildren.1
        exact .prefixOp token i hop (he.2 rfl hchildren.2.1)
      · obtain _ | ⟨he, _ | ⟨hleaf, _ | _⟩⟩ := ih
        simp only [List.forall_mem_cons] at hchildren
        obtain ⟨token, op, i, rfl, hop⟩ := hleaf.1.exists_operator .postfixOp rfl hchildren.2.1
        exact .postfixOp token i hop (he.2 rfl hchildren.1)
      · obtain _ | ⟨hleaf, _ | _⟩ := ih
        simp only [List.forall_mem_cons] at hchildren
        obtain ⟨token, i, rfl⟩ := hleaf.1.exists_plain hchildren.1 (by decide)
        exact .atom token i
      · obtain _ | ⟨hopen, _ | ⟨he, _ | ⟨hclose, _ | _⟩⟩⟩ := ih
        simp only [List.forall_mem_cons] at hchildren
        obtain ⟨left, i, rfl⟩ := hopen.1.exists_plain hchildren.1 (by decide)
        obtain ⟨right, j, rfl⟩ := hclose.1.exists_plain hchildren.2.2.1 (by decide)
        exact .parens left right i j (he.2 rfl hchildren.2.1)
    · exact .nil
    · intro symbol tree symbols trees htree _ ih ihs
      exact .cons ⟨htree, ih⟩ ihs
  exact hall _ tree h rfl hproper

end Spelling

/-- Only an operator in front of its argument has none on its left. -/
theorem Specifier.leftArgument_eq_none_iff {spec : Specifier} :
    spec.leftArgument = none ↔ spec.fixity = .prefixOp := by
  cases spec <;> decide

/-- Only an operator behind its argument has none on its right. -/
theorem Specifier.rightArgument_eq_none_iff {spec : Specifier} :
    spec.rightArgument = none ↔ spec.fixity = .postfixOp := by
  cases spec <;> decide

/-- An argument binds at most as loosely as its operator. -/
theorem Bound.maxPriority_le (bound : Bound) (priority : Nat) :
    bound.maxPriority priority ≤ priority := by
  cases bound
  · exact Nat.sub_le _ _
  · exact Nat.le_refl _

namespace ParseTree

variable {table : ParseTable} {op : Operator} {tree operand : ParseTree τ}

/-- What fits as an argument of an operator has no greater priority. -/
theorem Fits.le_of_argument {argument : Option Bound} (hsome : argument ≠ none)
    (h : operand.Fits table (argument.map fun bound => bound.maxPriority op.priority)) :
    operand.priority table ≤ op.priority := by
  obtain ⟨bound, rfl⟩ := Option.ne_none_iff_exists'.mp hsome
  exact Nat.le_trans (h _ rfl) (bound.maxPriority_le op.priority)

/-- What fits on the left of an operator has no greater priority, if there is an argument at all. -/
theorem Fits.le_of_left (h : operand.Fits table op.leftLimit) (hop : op.fixity ≠ .prefixOp) :
    operand.priority table ≤ op.priority :=
  Fits.le_of_argument (mt Specifier.leftArgument_eq_none_iff.mp hop) h

/-- What fits on the right of an operator has no greater priority, if there is an argument at
all. -/
theorem Fits.le_of_right (h : operand.Fits table op.rightLimit) (hop : op.fixity ≠ .postfixOp) :
    operand.priority table ≤ op.priority :=
  Fits.le_of_argument (mt Specifier.rightArgument_eq_none_iff.mp hop) h

/-- What has no greater priority fits as well. -/
theorem Fits.mono {bound : Option Nat} (h : tree.Fits table bound)
    (hle : operand.priority table ≤ tree.priority table) : operand.Fits table bound :=
  fun limit hlimit => Nat.le_trans hle (h limit hlimit)

end ParseTree

end OperatorLALR
