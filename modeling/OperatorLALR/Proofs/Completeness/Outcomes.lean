import OperatorLALR.Proofs.Soundness.Safety
import OperatorLALR.Proofs.Soundness.Priorities
import OperatorLALR.Proofs.Search.Termination

/-!
# How a parse ends

Where the source gives all its tokens, the maker of nodes never fails, all runs of the
nondeterministic parser end, and no limit keeps the parser from trying several ways, a parse over
the table of a grammar has one of two ends. It accepts with the node of a tree with which some run
accepts, or it rejects the input and no run accepts (`Parser.exists_outcome`).
-/

namespace OperatorLALR

variable {τ ν β ε σ : Type}

/-- A maker of nodes never fails. -/
def NodeMaker.Total (maker : NodeMaker τ ν β σ) : Prop :=
  ∀ r items memory, ∃ node, (maker.reduce r items memory).1 = .ok node

/-- A node is made from a tree, and read as it where nodes keep their trees. -/
structure NodeMaker.Makes (maker : NodeMaker τ ν β σ) (node : ν) (tree : ParseTree τ) : Prop where
  shows : Shows maker (.node node) tree
  view : ∀ view, maker.Keeps view → view node = tree

/-- A maker of trees never fails. -/
theorem treeMaker_total : (treeMaker : NodeMaker τ (ParseTree τ) β σ).Total :=
  fun r items _ => ⟨.node r (items.map HandleItem.tree), rfl⟩

/-- A node that is made from a tree is read as it. -/
theorem Shows.makes {maker : NodeMaker τ ν β σ} {node : ν} {tree : ParseTree τ}
    (h : Shows maker (.node node) tree) : maker.Makes node tree :=
  ⟨h, fun _ hview => h.treeBy_eq hview⟩

namespace Parser

variable {p : Parser τ ν β σ} {m m' : Machine τ ν ε σ}

/-- Reading takes tokens from the front of the source. -/
theorem source_of_readToken {r : Except ε (Option τ)} (h : readToken m = (r, m')) :
    m'.source <:+ m.source := by
  unfold readToken at h
  split at h
  · obtain ⟨-, rfl⟩ := Prod.mk.inj h
    exact List.suffix_rfl
  · split at h
    · obtain ⟨-, rfl⟩ := Prod.mk.inj h
      exact List.suffix_rfl
    · split at h
      · obtain ⟨-, rfl⟩ := Prod.mk.inj h
        exact List.suffix_rfl
      · next hsource =>
        obtain ⟨-, rfl⟩ := Prod.mk.inj h
        rw [hsource]
        exact List.suffix_cons _ _
      · next hsource =>
        obtain ⟨-, rfl⟩ := Prod.mk.inj h
        rw [hsource]
        exact List.suffix_cons _ _

/-- A failure to read comes from the source. -/
theorem mem_source_of_readToken {cause : ε} (h : readToken m = (.error cause, m')) :
    .error cause ∈ m.source := by
  unfold readToken at h
  split at h
  · cases (Prod.mk.inj h).1
  · split at h
    · cases (Prod.mk.inj h).1
    · split at h
      · cases (Prod.mk.inj h).1
      · cases (Prod.mk.inj h).1
      · next hsource =>
        rw [hsource, ← Except.error.inj (Prod.mk.inj h).1]
        exact List.mem_cons_self

variable [Token τ]

/-- A look takes tokens from the front of the source. -/
theorem Looked.source {lookahead : Lookahead τ} (h : Looked p m lookahead m') :
    m'.source <:+ m.source := by
  cases h with
  | known => exact List.suffix_rfl
  | ended _ hread =>
    have hsuffix := source_of_readToken hread
    exact hsuffix
  | single _ hread =>
    have hsuffix := source_of_readToken hread
    exact hsuffix
  | several _ hread _ hleave =>
    have hsuffix := source_of_readToken hread
    obtain ⟨depth, rfl⟩ := leaveChoice_ok hleave
    exact hsuffix

omit [Token τ] in
/-- A move leaves the source as it is. -/
theorem Moved.source {lookahead : Lookahead τ} {a : Action} (h : Moved p lookahead m a m') :
    m'.source = m.source := by
  cases h with
  | shift | only => rfl
  | reduce hr =>
    obtain ⟨shape, priority, node, memory, next, -, -, -, -, -, rfl⟩ := reduce_done hr
    rfl
  | branch _ hleave =>
    obtain ⟨depth, rfl⟩ := leaveChoice_ok hleave
    rfl
  | back _ hback =>
    obtain ⟨⟨way, c, pending⟩, -, rfl⟩ := Option.map_eq_some_iff.mp hback
    rfl

/-- During a parse the source is what is left of the source at the start. -/
theorem source_of_reaches {source : List (Except ε τ)} {memory : σ}
    (h : p.Reaches (.start source memory) m) : m.source <:+ source := by
  induction h with
  | refl => exact List.suffix_rfl
  | @tail m m' _ hstep ih =>
    refine List.IsSuffix.trans ?_ ih
    rcases step_next hstep with ⟨lookahead, m₁, -, hlooked, hmoved⟩ | ⟨b, d, hlook, hback⟩
    · rw [hmoved.source]
      exact hlooked.source
    · obtain ⟨-, token, hread, -⟩ := look_refused hlook
      have hsuffix := source_of_readToken hread
      obtain ⟨⟨way, c, pending⟩, -, rfl⟩ := Option.map_eq_some_iff.mp hback
      exact hsuffix

variable {tokens : List τ} {last : Machine τ ν ε σ}

/-- All branches that a search comes upon are reached by runs. -/
theorem Searches.reaches {branches : List (Branch τ)} (h : p.Searches tokens [.start] branches) :
    ∀ b ∈ branches, Search.Reaches (Branch.next p.overTrees tokens) .start b := by
  refine Search.Explores.forall h (fun _ hb b' hb' => hb.tail hb') ?_
  intro b hb
  rw [List.mem_singleton.mp hb]
  exact .refl

/-- A parse over the table of a grammar that ends with an error rejects the input, unless the source
or the maker fails or a limit keeps the parser from trying several ways. -/
theorem rejected_of_parse {g : Grammar} {a : Analysis} (h : g.Built a)
    (hp : Serves g a p.overTrees) (hc : g.Covers a p.table) (hmaker : p.maker.Total)
    (hways : p.maxChoiceDepth = none ∨ ∀ b,
      Search.Reaches (Branch.next p.overTrees tokens) .start b →
        (b.next p.overTrees tokens).length ≤ 1)
    {n : Nat} {memory : σ} {e : ParseError ε β}
    (hparse : p.parse n (tokens.map .ok) memory = some (.error e, last)) :
    e.isRejection = true := by
  obtain ⟨m, hreach, hstep⟩ := run_eq_some hparse
  obtain ⟨saved, b, rest, hsearch, hfollows⟩ := Follows.of_reaches hreach
  have hfew : p.maxChoiceDepth ≠ none → ∀ b, Search.Reaches (Branch.next p.overTrees tokens) .start
      b → (b.next p.overTrees tokens).length ≤ 1 := fun hlimit => hways.resolve_left hlimit
  cases step_failed hstep with
  | rejected => rfl
  | source hread =>
    have hmem := (source_of_reaches hreach).subset (mem_source_of_readToken hread)
    obtain ⟨token, -, htoken⟩ := List.mem_map.mp hmem
    cases htoken
  | @maker cause r items memory _ hmake =>
    obtain ⟨node, hnode⟩ := hmaker r items memory
    rw [hmake] at hnode
    cases hnode
  | @readings _ m₁ token first other others hnone hread hmany hlimit =>
    obtain ⟨-, hnext⟩ := hfollows.next_eq hnone hread
    have hle := hfew hlimit b (hsearch.reaches b List.mem_cons_self)
    rw [hnext, hmany, List.length_map, List.length_cons, List.length_cons] at hle
    omega
  | @actions _ lookahead m₁ first other others hlooked hopen hlimit =>
    obtain ⟨saved₁, b₁, rest₁, hsearch₁, h₁⟩ := hfollows.looked hlooked
    obtain ⟨-, hnext⟩ := h₁.next_of_open hlooked.lookahead_eq hopen
    have hle := hfew hlimit b₁ ((hsearch.trans hsearch₁).reaches b₁ List.mem_cons_self)
    rw [hnext, List.length_map, List.length_cons, List.length_cons] at hle
    omega
  | @table _ lookahead m₁ _ hlooked hfault =>
    obtain ⟨saved₁, b₁, rest₁, hsearch₁, h₁⟩ := hfollows.looked hlooked
    have hsound := (hsearch.trans hsearch₁).sound h hp b₁ List.mem_cons_self
    exact absurd hfault (hsound.not_fault h hp hc h₁.mirrors hlooked.lookahead_eq)

/-- A parse ends by accepting with the node of a tree with which some run accepts, or by rejecting
the input where no run accepts. -/
theorem exists_outcome {g : Grammar} {a : Analysis} (h : g.Built a) (hp : Serves g a p.overTrees)
    (hc : g.Covers a p.table) (hmaker : p.maker.Total)
    (hways : p.maxChoiceDepth = none ∨ ∀ b,
      Search.Reaches (Branch.next p.overTrees tokens) .start b →
        (b.next p.overTrees tokens).length ≤ 1)
    (hends : Search.Ends (Branch.next p.overTrees tokens) .start) (memory : σ) :
    ∃ n, ∃ result : Except (ParseError ε β) ν, ∃ last : Machine τ ν ε σ,
      p.parse n (tokens.map .ok) memory = some (result, last) ∧
      ((∃ node tree b, result = .ok node ∧ p.maker.Makes node tree ∧
          Search.Reaches (Branch.next p.overTrees tokens) .start b ∧
          b.result? p.overTrees = some tree) ∨
        (∃ position lookahead expected, result = .error (.rejected position lookahead expected)) ∧
          ∀ b, Search.Reaches (Branch.next p.overTrees tokens) .start b →
            b.result? p.overTrees = none) := by
  obtain ⟨n, result, last, hparse⟩ := exists_parse (ε := ε) hends memory
  refine ⟨n, result, last, hparse, ?_⟩
  cases result with
  | ok node =>
    obtain ⟨m, b, rest, tree, -, -, hsearch, -, hresult, hshows⟩ := exists_of_parse_eq_ok hparse
    exact .inl ⟨node, tree, b, rfl, hshows.makes, hsearch.reaches b List.mem_cons_self, hresult⟩
  | error e =>
    have he := rejected_of_parse h hp hc hmaker hways hparse
    refine .inr ⟨?_, fun b hreach => ?_⟩
    · cases e with
      | rejected position lookahead expected => exact ⟨position, lookahead, expected, rfl⟩
      | _ => cases he
    · by_contra hresult
      obtain ⟨tree, htree⟩ := Option.ne_none_iff_exists'.mp hresult
      rw [not_rejected_of_reaches hreach htree hparse] at he
      cases he

end Parser

end OperatorLALR
