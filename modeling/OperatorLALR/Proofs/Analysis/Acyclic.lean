import OperatorLALR.Proofs.Analysis.Chains

/-!
# No nonterminal derives itself

A nonterminal lifts another if it has a rule that is led by the other with nothing behind it, going
by what vanishes. The search for chains fails on a nonterminal that is lifted by way of others to
itself, so that a grammar with an analysis has none (`Analysis.not_lifts_self`). Hence lifting goes
on only finitely often: it decreases the number of nonterminals above (`Analysis.rank_lt`).
-/

namespace OperatorLALR

variable {g : Grammar} {a : Analysis} {target : NonterminalId} {buckets buckets' : ChainBuckets}
  {chain : RuleChain}

/-- No extension of a chain leads from a nonterminal to itself with nothing behind it. -/
def RuleChain.Acyclic (g : Grammar) (chain : RuleChain) (rs : List RuleId) : Prop :=
  ∀ r ∈ rs, (g.extendChain g.nullableSet (g.firstSets g.nullableSet) chain r).nullable = true →
    (g.extendChain g.nullableSet (g.firstSets g.nullableSet) chain r).source ≠ chain.target

/-- A chain whose extensions have been put into the buckets has no cyclic one. -/
theorem acyclic_of_extendBuckets {rs : List RuleId} {kept : List RuleChain}
    (hextend : g.extendBuckets g.nullableSet (g.firstSets g.nullableSet) chain rs buckets =
      some (kept, buckets')) : chain.Acyclic g rs := by
  induction rs generalizing buckets kept with
  | nil => exact nofun
  | cons r rs ih =>
    rw [Grammar.extendBuckets] at hextend
    split at hextend
    · cases hextend
    · next hnot =>
      refine List.forall_mem_cons.mpr ⟨fun hn heq => hnot ⟨heq, hn⟩, ?_⟩
      dsimp only at hextend
      split at hextend
      · exact ih hextend
      · obtain ⟨⟨kept', buckets''⟩, hmap, heq⟩ := Option.map_eq_some_iff.mp hextend
        obtain ⟨rfl, rfl⟩ := Prod.mk.inj heq
        exact ih hmap

/-- A search that ends has found no cyclic extension of a chain that it kept. -/
theorem acyclic_of_searchesChains (hg : g.WellFormed) {waiting : List RuleChain}
    (h : Searching g target waiting buckets)
    (hacyclic : ∀ c, Kept buckets c → c ∈ waiting ∨ c.Acyclic g (g.rulesLedBy c.source))
    (hsearch : SearchesChains g waiting buckets (some buckets')) :
    ∀ c, Kept buckets' c → c.Acyclic g (g.rulesLedBy c.source) := by
  generalize hresult : some buckets' = result at hsearch
  induction hsearch with
  | done buckets =>
    obtain rfl := Option.some.inj hresult
    exact fun c hc => (hacyclic c hc).resolve_left List.not_mem_nil
  | cyclic => cases hresult
  | extend hextend _ ih =>
    have hextended := h.extendedBy hg hextend
    refine ih (h.next hextended) (fun c hc => ?_) hresult
    rcases (hextended.kept_iff c).mp hc with hold | hnew
    · rcases hacyclic c hold with hwaiting | hdone
      · rcases List.mem_cons.mp hwaiting with rfl | hwaiting
        · exact .inr (acyclic_of_extendBuckets hextend)
        · exact .inl (List.mem_append.mpr (.inl hwaiting))
      · exact .inr hdone
    · exact .inl (List.mem_append.mpr (.inr hnew))

/-- The chains to a nonterminal that were kept have no cyclic extensions. -/
theorem acyclic_of_chainsTo (hg : g.WellFormed)
    (h : g.chainsTo g.nullableSet (g.firstSets g.nullableSet) target = .ok buckets) :
    ∀ c, Kept buckets c → c.Acyclic g (g.rulesLedBy c.source) :=
  acyclic_of_searchesChains hg (searching_start g target)
    (fun _ hc => .inl (List.mem_singleton.mpr (kept_start.mp hc))) (searchesChains_of_ok hg h)

/-- A nonterminal lifts another if it has a rule that is led by the other, with nothing behind. -/
def Grammar.Lifts (g : Grammar) (upper lower : NonterminalId) : Prop :=
  ∃ r rule rest, g.rule? r = some rule ∧ rule.left = upper ∧
    rule.body = .nonterminal lower :: rest ∧ g.Vanishes rest

/-- From a nonterminal that lifts another by way of others leads a chain with nothing behind it. -/
theorem exists_chain_of_lifts {upper lower : NonterminalId}
    (h : Relation.ReflTransGen g.Lifts upper lower) :
    ∃ tail, Chain g upper lower tail ∧ g.Vanishes tail := by
  induction h using Relation.ReflTransGen.head_induction_on with
  | refl => exact ⟨[], .nil _, Grammar.vanishes_nil⟩
  | head hlifts _ ih =>
    obtain ⟨r, rule, rest, hrule, rfl, hbody, hrest⟩ := hlifts
    obtain ⟨tail, hchain, htail⟩ := ih
    exact ⟨tail ++ rest, .cons hrule hbody hchain, Grammar.vanishes_append.mpr ⟨htail, hrest⟩⟩

/-- A nonterminal whose chains have been found is not lifted to itself. -/
theorem not_lifts_of_chainsTo (hg : g.WellFormed)
    (h : g.chainsTo g.nullableSet (g.firstSets g.nullableSet) target = .ok buckets) :
    ¬ Relation.TransGen g.Lifts target target := by
  intro hlifts
  obtain ⟨m, ⟨r, rule, rest, hrule, hleft, hbody, hrest⟩, hback⟩ :=
    Relation.TransGen.head'_iff.mp hlifts
  obtain ⟨tail, hchain, htail⟩ := exists_chain_of_lifts hback
  have hexact := chainsTo_exact hg h
  obtain ⟨bucket, hbucket, -, hnullable⟩ := hexact.complete m tail hchain
  obtain ⟨c, hc, hcn⟩ := (hexact.sound m bucket hbucket).nullable.mp (hnullable htail)
  obtain ⟨hsource, htarget, -⟩ := (hexact.sound m bucket hbucket).chains c hc
  -- the search has extended the chain by the rule, and found that it is cyclic
  have hacyclic := acyclic_of_chainsTo hg h c ⟨m, bucket, hbucket, hc⟩ r
  rw [hsource] at hacyclic
  obtain ⟨hextended, -, -, hvanishes⟩ := Grammar.extendChain_spec hg hrule (hsource ▸ hbody)
  refine hacyclic (Grammar.mem_rulesLedBy.mpr ⟨rule, rest, hrule, hbody⟩)
    (hvanishes.mpr ⟨hcn, hrest⟩) ?_
  rw [hextended, htarget, hleft]

/-- Nonterminals that lift others are declared. -/
theorem Grammar.Lifts.lt (hg : g.WellFormed) {upper lower : NonterminalId}
    (h : g.Lifts upper lower) : upper.val < g.nonterminals.length := by
  obtain ⟨r, rule, -, hrule, rfl, -, -⟩ := h
  exact hg.left_lt (Grammar.mem_rules.mpr ⟨r, hrule⟩)

namespace Analysis

/-- No nonterminal is lifted to itself. -/
theorem not_lifts_self (hg : g.WellFormed) (ha : g.analyse = .ok a) (n : NonterminalId) :
    ¬ Relation.TransGen g.Lifts n n := by
  intro h
  obtain ⟨m, hlifts, -⟩ := Relation.TransGen.head'_iff.mp h
  obtain ⟨buckets, -, hbuckets⟩ :=
    exists_getElem?_right (eq_of_analyse ha).2.2 (Index.getElem?_below (hlifts.lt hg))
  exact not_lifts_of_chainsTo hg hbuckets h

end Analysis

namespace Grammar

open Classical in
/-- The number of nonterminals that lift a nonterminal, directly or by way of others. -/
noncomputable def rank (g : Grammar) (n : NonterminalId) : Nat :=
  g.nonterminalIds.countP fun upper => Relation.TransGen g.Lifts upper n

/-- No more nonterminals lift one than there are. -/
theorem rank_le (g : Grammar) (n : NonterminalId) : g.rank n ≤ g.nonterminals.length := by
  have hle : g.rank n ≤ g.nonterminalIds.length := List.countP_le_length
  rwa [nonterminalIds, Index.length_below] at hle

/-- Fewer nonterminals lift one that lifts another. -/
theorem rank_lt (hg : g.WellFormed) (ha : g.analyse = .ok a) {upper lower : NonterminalId}
    (h : g.Lifts upper lower) (hupper : upper.val < g.nonterminals.length) :
    g.rank upper < g.rank lower := by
  have hmem : upper ∈ g.nonterminalIds := Index.mem_below.mpr hupper
  have hself := Analysis.not_lifts_self hg ha upper
  have hgrows : Grows (fun n other => Relation.TransGen g.Lifts other n) g.nonterminalIds upper
      lower :=
    ⟨fun other hother => hother.tail h, fun _ => ⟨upper, hmem, .single h, hself⟩⟩
  refine hgrows.countP_lt ?_
  rintro rfl
  exact hself (.single h)

end Grammar

end OperatorLALR
