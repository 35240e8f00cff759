import OperatorLALR.Build
import OperatorLALR.Proofs.Analysis.Acyclic

/-!
# Which cycles an analysis finds

An analysis fails exactly for the grammars with a nonterminal that is lifted, by way of others, to
itself (`analyse_rejects_lifts`), and blames a nonterminal that is. Lifting goes through the
leading symbols of rules. A nonterminal that derives itself only behind symbols that vanish is not
lifted to itself, and the analysis passes it by (`vanishingPrefix_not_rejected`).
-/

namespace OperatorLALR

variable {g : Grammar} {buckets : ChainBuckets} {chain : RuleChain} {target : NonterminalId}

/-- The nonterminals along a chain lift one another if nothing is left behind it. -/
theorem Chain.lifts {source : NonterminalId} {tail : List Symbol} (h : Chain g source target tail)
    (htail : g.Vanishes tail) : Relation.ReflTransGen g.Lifts source target := by
  induction h with
  | nil => exact .refl
  | @cons r rule _ _ _ rest hrule hbody _ ih =>
    obtain ⟨htail, hrest⟩ := Grammar.vanishes_append.mp htail
    exact .head ⟨r, rule, rest, hrule, rfl, hbody, hrest⟩ (ih htail)

/-- A nonterminal that lifts another derives it. -/
theorem Grammar.Lifts.derives {upper lower : NonterminalId} (h : g.Lifts upper lower) :
    Relation.TransGen g.Rewrites [.nonterminal upper] [.nonterminal lower] := by
  obtain ⟨r, rule, rest, hrule, rfl, hbody, hrest⟩ := h
  have hstep : g.Rewrites [.nonterminal rule.left] (.nonterminal lower :: rest) := by
    simpa [hbody] using Rewrites.head hrule []
  have hlower : g.Derives [.nonterminal lower] [.nonterminal lower] := .refl
  exact .head' hstep (hlower.append hrest)

/-- A nonterminal that is lifted to another by way of others derives it. -/
theorem Grammar.derives_of_lifts {upper lower : NonterminalId}
    (h : Relation.TransGen g.Lifts upper lower) :
    Relation.TransGen g.Rewrites [.nonterminal upper] [.nonterminal lower] := by
  induction h with
  | single hlifts => exact hlifts.derives
  | tail _ hlifts ih => exact ih.trans hlifts.derives

/-- The extensions of a chain are given up only for one that is cyclic. -/
theorem not_acyclic_of_extendBuckets {rs : List RuleId}
    (hextend : g.extendBuckets g.nullableSet (g.firstSets g.nullableSet) chain rs buckets = none) :
    ¬ chain.Acyclic g rs := by
  intro hacyclic
  induction rs generalizing buckets with
  | nil => cases hextend
  | cons r rs ih =>
    obtain ⟨hr, hrs⟩ := List.forall_mem_cons.mp hacyclic
    rw [Grammar.extendBuckets] at hextend
    split at hextend
    · next hcyclic => exact hr hcyclic.2 hcyclic.1
    · dsimp only at hextend
      split at hextend
      · exact ih hextend hrs
      · exact ih (Option.map_eq_none_iff.mp hextend) hrs

/-- The target of a chain with a cyclic extension is lifted to itself. -/
theorem RuleChain.IsChain.lifts (hg : g.WellFormed) (h : chain.IsChain g)
    (hcyclic : ¬ chain.Acyclic g (g.rulesLedBy chain.source)) :
    Relation.TransGen g.Lifts chain.target chain.target := by
  simp only [RuleChain.Acyclic, not_forall, not_not] at hcyclic
  obtain ⟨r, hr, hnullable, hsource⟩ := hcyclic
  obtain ⟨rule, rest, hrule, hbody⟩ := Grammar.mem_rulesLedBy.mp hr
  obtain ⟨hextended, -, -, hvanishes⟩ := Grammar.extendChain_spec hg hrule hbody
  obtain ⟨hchainNullable, hrest⟩ := hvanishes.mp hnullable
  obtain ⟨tail, htail, -, hiff⟩ := h
  have hback := htail.lifts (hiff.mp hchainNullable)
  exact .head' ⟨r, rule, rest, hrule, hextended.symm.trans hsource, hbody, hrest⟩ hback

/-- A search fails only for a nonterminal that is lifted to itself. -/
theorem lifts_of_searchesChains (hg : g.WellFormed) {waiting : List RuleChain}
    (h : Searching g target waiting buckets) (hsearch : SearchesChains g waiting buckets none) :
    Relation.TransGen g.Lifts target target := by
  generalize hresult : none = result at hsearch
  induction hsearch with
  | done => cases hresult
  | cyclic hextend =>
    obtain ⟨htarget, hchain⟩ := h.isChain
    rw [← htarget]
    exact hchain.lifts hg (not_acyclic_of_extendBuckets hextend)
  | extend hextend _ ih => exact ih (h.next (h.extendedBy hg hextend)) hresult

/-- The search for chains to a nonterminal blames that nonterminal, if it fails, and it is lifted to
itself. -/
theorem lifts_of_chainsTo (hg : g.WellFormed) {e : CyclicDerivation}
    (h : g.chainsTo g.nullableSet (g.firstSets g.nullableSet) target = .error e) :
    e = ⟨target, g.nonterminalName target⟩ ∧ Relation.TransGen g.Lifts target target := by
  rcases searchesChains_chainsTo hg target with ⟨_, hok, -⟩ | ⟨herror, hsearch⟩
  · rw [h] at hok
    cases hok
  · rw [h] at herror
    exact ⟨Except.error.inj herror, lifts_of_searchesChains hg (searching_start g target) hsearch⟩

/-- A failing analysis blames a nonterminal that is lifted to itself, by its name. -/
theorem lifts_of_analyse (hg : g.WellFormed) {e : CyclicDerivation} (h : g.analyse = .error e) :
    e.name = g.nonterminalName e.symbol ∧ Relation.TransGen g.Lifts e.symbol e.symbol := by
  unfold Grammar.analyse at h
  dsimp only at h
  split at h
  · cases h
  · next hbuckets =>
    obtain rfl := Except.error.inj h
    obtain ⟨target, -, htarget⟩ := exists_of_mapM_eq_error hbuckets
    obtain ⟨rfl, hlifts⟩ := lifts_of_chainsTo hg htarget
    exact ⟨rfl, hlifts⟩

/-- An analysis fails exactly if some nonterminal derives itself through rules that are each led by
the head of the next, with nothing behind. The nonterminal that is blamed, by its name, is one of
these, and so derives itself. -/
theorem analyse_rejects_lifts (h : g.IsDefined) :
    ((∃ e, g.analyse = .error e) ↔ ∃ n, Relation.TransGen g.Lifts n n) ∧
      ∀ e, g.analyse = .error e → e.name = g.nonterminalName e.symbol ∧
        Relation.TransGen g.Lifts e.symbol e.symbol ∧
        Relation.TransGen g.Rewrites [.nonterminal e.symbol] [.nonterminal e.symbol] := by
  have hg := h.wellFormed
  refine ⟨⟨?_, ?_⟩, ?_⟩
  · rintro ⟨e, he⟩
    exact ⟨e.symbol, (lifts_of_analyse hg he).2⟩
  · rintro ⟨n, hn⟩
    cases ha : g.analyse with
    | error e => exact ⟨e, rfl⟩
    | ok a => exact absurd hn (Analysis.not_lifts_self hg ha n)
  · intro e he
    obtain ⟨hname, hlifts⟩ := lifts_of_analyse hg he
    exact ⟨hname, hlifts, Grammar.derives_of_lifts hlifts⟩

/-- The grammar `S := T A | b; T := S; A := %empty` (as rules 1 to 4). -/
def mutualCycle : Grammar where
  terminals := [.endOfInput, ⟨"b", none, .plain⟩]
  nonterminals := [augmentedStartName, "S", "T", "A"]
  rules := [⟨augmentedStart, [.nonterminal ⟨1⟩], none⟩,
    ⟨⟨1⟩, [.nonterminal ⟨2⟩, .nonterminal ⟨3⟩], none⟩, ⟨⟨1⟩, [.terminal ⟨1⟩], none⟩,
    ⟨⟨2⟩, [.nonterminal ⟨1⟩], none⟩, ⟨⟨3⟩, [], none⟩]
  start := ⟨1⟩
  operators := ∅
  operatorTerminals := ∅

theorem mutualCycle_isDefined : mutualCycle.IsDefined :=
  ⟨[.terminal "b" none, .nonterminal "S", .nonterminal "T", .nonterminal "A",
    .rule ⟨1⟩ [.nonterminal ⟨2⟩, .nonterminal ⟨3⟩] none, .rule ⟨1⟩ [.terminal ⟨1⟩] none,
    .rule ⟨2⟩ [.nonterminal ⟨1⟩] none, .rule ⟨3⟩ [] none], .inl (by decide)⟩

/-- The nonterminals `S` and `T` derive one another, and `S` is blamed. -/
theorem analyse_rejects_lifts_mutualCycle :
    mutualCycle.IsDefined ∧ mutualCycle.analyse = .error ⟨⟨1⟩, "S"⟩ ∧
      Relation.TransGen mutualCycle.Lifts ⟨1⟩ ⟨1⟩ ∧
      Relation.TransGen mutualCycle.Rewrites [.nonterminal ⟨1⟩] [.nonterminal ⟨1⟩] := by
  have herror : mutualCycle.analyse = .error ⟨⟨1⟩, "S"⟩ := by decide +kernel
  obtain ⟨-, hlifts, hderives⟩ := (analyse_rejects_lifts mutualCycle_isDefined).2 _ herror
  exact ⟨mutualCycle_isDefined, herror, hlifts, hderives⟩

/-- The grammar `S := A S | b; A := %empty` (as rules 1 to 3). -/
def vanishingPrefix : Grammar where
  terminals := [.endOfInput, ⟨"b", none, .plain⟩]
  nonterminals := [augmentedStartName, "S", "A"]
  rules := [⟨augmentedStart, [.nonterminal ⟨1⟩], none⟩,
    ⟨⟨1⟩, [.nonterminal ⟨2⟩, .nonterminal ⟨1⟩], none⟩, ⟨⟨1⟩, [.terminal ⟨1⟩], none⟩,
    ⟨⟨2⟩, [], none⟩]
  start := ⟨1⟩
  operators := ∅
  operatorTerminals := ∅

/-- The nonterminal `S` derives itself behind `A`, which vanishes. The grammar is analysed all the
same, and a table is built for it. -/
theorem vanishingPrefix_not_rejected :
    vanishingPrefix.IsDefined ∧
      Relation.TransGen vanishingPrefix.Rewrites [.nonterminal ⟨1⟩] [.nonterminal ⟨1⟩] ∧
      (¬ ∃ e, vanishingPrefix.analyse = .error e) ∧
      ∃ table, (vanishingPrefix.build .default).2 = .ok table := by
  refine ⟨⟨[.terminal "b" none, .nonterminal "S", .nonterminal "A",
    .rule ⟨1⟩ [.nonterminal ⟨2⟩, .nonterminal ⟨1⟩] none, .rule ⟨1⟩ [.terminal ⟨1⟩] none,
    .rule ⟨2⟩ [] none], .inl (by decide)⟩, ?_, ?_, ?_⟩
  · have hrecursive : vanishingPrefix.rule? ⟨1⟩ =
        some ⟨⟨1⟩, [.nonterminal ⟨2⟩, .nonterminal ⟨1⟩], none⟩ := rfl
    have hempty : vanishingPrefix.rule? ⟨3⟩ = some ⟨⟨2⟩, [], none⟩ := rfl
    exact .head (.head hrecursive []) (.single (.head hempty [.nonterminal ⟨1⟩]))
  · have hsome : vanishingPrefix.analyse.toOption.isSome = true := by decide +kernel
    rintro ⟨e, he⟩
    rw [he] at hsome
    cases hsome
  · have hsome : (vanishingPrefix.build .default).2.toOption.isSome = true := by decide +kernel
    cases htable : (vanishingPrefix.build .default).2 with
    | ok table => exact ⟨table, rfl⟩
    | error e =>
      rw [htable] at hsome
      cases hsome

end OperatorLALR
