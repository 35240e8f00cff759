import OperatorLALR.Proofs.Completeness.Decisions

/-!
# Inputs without operators

A token that denotes no operator is read as its own terminal, so that there is one way to read an
input of such tokens (`ReadsAs.eq_plainViews`), and its derivation trees have no operators
(`ParseTree.Parses.plain`). There are some if and only if the input is in the language of the
grammar (`exists_parses_iff`).
-/

namespace OperatorLALR

/-- No token of the tree is read as an operator. -/
def ParseTree.Plain {τ : Type} (tree : ParseTree τ) : Prop :=
  ∀ v ∈ tree.views, v.reading.operator = none

/-- The children of a node without operators have none. -/
theorem ParseTree.Plain.child {τ : Type} {r : RuleId} {children : List (ParseTree τ)}
    (h : (ParseTree.node r children).Plain) {child : ParseTree τ} (hchild : child ∈ children) :
    child.Plain := by
  intro v hv
  refine h v ?_
  rw [ParseTree.views, ParseTree.viewsOf_eq, List.mem_flatMap]
  exact ⟨child, hchild, hv⟩

/-- No operator governs a node without operators. -/
theorem ParseTree.Plain.operandsFit {τ : Type} {table : ParseTable} {r : RuleId}
    {children : List (ParseTree τ)} (h : (ParseTree.node r children).Plain) :
    OperandsFit table r children := by
  have hnone : table.governor? r children = none := by
    rw [ParseTable.governor?, Option.bind_eq_none_iff]
    intro place _
    rw [Option.map_eq_none_iff, Option.bind_eq_none_iff]
    intro child hplace
    have hchild := h.child (List.mem_of_getElem? hplace)
    cases child with
    | leaf token reading position => exact hchild _ (List.mem_singleton_self _)
    | node => rfl
  exact .of_ungoverned hnone

variable {τ : Type} [Token τ] {g : Grammar} {operators : OperatorTable} {tokens : List τ}
  {tree : ParseTree τ}

/-- A token without an operator name is read as its own terminal. -/
theorem Reads.eq_plain {operators : OperatorTable} {token : τ} {reading : Reading}
    (h : Reads operators token reading) (hname : Token.operatorName token = none) :
    reading = ⟨Token.terminal token, none⟩ := by
  cases h with
  | plain => rfl
  | operator hname' =>
    rw [hname] at hname'
    cases hname'

/-- The tokens of an input, each read as its own terminal. -/
def plainViews (tokens : List τ) : List (TokenView τ) :=
  tokens.zipIdx.map fun e => ⟨e.1, ⟨Token.terminal e.1, none⟩, e.2, 0⟩

/-- Every token may be read as its own terminal. -/
theorem readsAs_plainViews (operators : OperatorTable) (tokens : List τ) :
    ReadsAs operators tokens (plainViews tokens) where
  places := by
    rw [plainViews, List.map_map]
    exact List.map_id _
  reads := by
    intro v hv
    obtain ⟨e, -, rfl⟩ := List.mem_map.mp hv
    exact ⟨.plain, rfl⟩

/-- The view of a token is at its place. -/
theorem getElem?_plainViews (tokens : List τ) (i : Nat) :
    (plainViews tokens)[i]? =
      tokens[i]?.map fun token => ⟨token, ⟨Token.terminal token, none⟩, i, 0⟩ := by
  rw [plainViews, List.getElem?_map, List.getElem?_zipIdx, Option.map_map, Nat.zero_add]
  rfl

/-- A token that is read as its own terminal is read without an operator. -/
theorem operator_of_mem_plainViews {view : TokenView τ} (h : view ∈ plainViews tokens) :
    view.reading.operator = none := by
  obtain ⟨e, -, rfl⟩ := List.mem_map.mp h
  rfl

/-- The lookahead at the end of the input. -/
theorem lookaheadAt_plainViews_of_none {i : Nat} (h : tokens[i]? = none) :
    lookaheadAt (plainViews tokens) i = .inputEnd := by
  rw [lookaheadAt, getElem?_plainViews, h]
  rfl

/-- The lookahead before a token. -/
theorem lookaheadAt_plainViews_of_some {i : Nat} {token : τ} (h : tokens[i]? = some token) :
    lookaheadAt (plainViews tokens) i = .token ⟨token, ⟨Token.terminal token, none⟩, i, 0⟩ := by
  rw [lookaheadAt, getElem?_plainViews, h]
  rfl

/-- Tokens that denote no operators can be read in one way only. -/
theorem ReadsAs.eq_plainViews {views : List (TokenView τ)} (h : ReadsAs operators tokens views)
    (hnames : ∀ token ∈ tokens, Token.operatorName token = none) : views = plainViews tokens := by
  refine List.ext_getElem? fun i => ?_
  rw [getElem?_plainViews]
  cases hview : views[i]? with
  | none =>
    rw [List.getElem?_eq_none_iff, h.length_eq, ← List.getElem?_eq_none_iff] at hview
    rw [hview]
    rfl
  | some view =>
    obtain ⟨htoken, rfl⟩ := h.getElem? hview
    obtain ⟨hreads, hstamp⟩ := h.reads view (List.mem_of_getElem? hview)
    have hplain := hreads.eq_plain (hnames view.token (List.mem_of_getElem? htoken))
    rw [htoken, Option.map_some, ← hplain, ← hstamp]

/-- The symbols as which tokens are read that denote no operators. -/
theorem map_symbol_plainViews (tokens : List τ) :
    (plainViews tokens).map TokenView.symbol =
      tokens.map fun token => .terminal (Token.terminal token) := by
  have hfst : tokens.zipIdx.map Prod.fst = tokens := List.zipIdx_map_fst 0 tokens
  conv_rhs => rw [← hfst]
  rw [plainViews, List.map_map, List.map_map]
  rfl

/-- A word that comes next in the input: the views of its tokens. -/
theorem exists_views_of_prefix {w : List TerminalId} {i : Nat}
    (hw : w <+: (tokens.map Token.terminal).drop i) :
    ∃ views, views <+: (plainViews tokens).drop i ∧
      views.map TokenView.symbol = w.map .terminal := by
  refine ⟨((plainViews tokens).drop i).take w.length, List.take_prefix _ _, ?_⟩
  have hsymbols : (plainViews tokens).map TokenView.symbol =
      (tokens.map Token.terminal).map .terminal := by
    rw [map_symbol_plainViews, List.map_map]
    rfl
  rw [List.map_take, List.map_drop, hsymbols, ← List.map_drop, ← List.map_take,
    ← List.prefix_iff_eq_take.mp hw]

/-- The first terminal of a word that comes next in the input: its token, and what comes after. -/
theorem exists_token_of_prefix {t : TerminalId} {w : List TerminalId} {i : Nat}
    (hw : t :: w <+: (tokens.map Token.terminal).drop i) :
    ∃ token, tokens[i]? = some token ∧ Token.terminal token = t ∧
      w <+: (tokens.map Token.terminal).drop (i + 1) := by
  obtain ⟨more, hmore⟩ := hw
  have hfirst : (tokens.map Token.terminal)[i]? = some t := by
    rw [← List.head?_drop, ← hmore]
    rfl
  rw [List.getElem?_map, Option.map_eq_some_iff] at hfirst
  obtain ⟨token, htoken, hterminal⟩ := hfirst
  refine ⟨token, htoken, hterminal, more, ?_⟩
  rw [← List.drop_drop, ← hmore]
  rfl

/-- There are derivation trees over tokens that denote no operators if and only if these are in the
language of the grammar. -/
theorem exists_parses_iff (hnames : ∀ token ∈ tokens, Token.operatorName token = none) :
    (∃ tree : ParseTree τ, tree.Parses g operators tokens) ↔
      g.Derives [.nonterminal g.start]
        (tokens.map fun token => .terminal (Token.terminal token)) := by
  rw [← map_symbol_plainViews]
  constructor
  · rintro ⟨tree, hparses⟩
    rw [← hparses.readsAs.eq_plainViews hnames]
    exact hparses.spells.derives
  · intro hderives
    obtain ⟨trees, htrees, hviews⟩ :=
      exists_spells_of_derives (readsAs_plainViews operators tokens).reads hderives
    obtain ⟨tree, rest, htree, hrest, rfl⟩ := List.forall₂_cons_left_iff.mp htrees
    obtain rfl := List.forall₂_nil_left_iff.mp hrest
    rw [ParseTree.viewsOf, ParseTree.viewsOf, List.append_nil] at hviews
    refine ⟨tree, htree, ?_⟩
    rw [← tree.map_place_views, hviews]
    exact (readsAs_plainViews operators tokens).places

/-- A derivation tree over tokens that denote no operators has none. -/
theorem ParseTree.Parses.plain (h : tree.Parses g operators tokens)
    (hnames : ∀ token ∈ tokens, Token.operatorName token = none) : tree.Plain := by
  intro v hv
  rw [h.readsAs.eq_plainViews hnames] at hv
  exact operator_of_mem_plainViews hv

end OperatorLALR
