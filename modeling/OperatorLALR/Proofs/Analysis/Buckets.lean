import OperatorLALR.Proofs.Analysis.Cycles

/-!
# What is kept of the rule chains

A left-recursive grammar has chains without end, of which the search keeps a few. `ChainBy` names
the rules of a chain. Every chain in a bucket lists such rules, with what begins the tail behind
them (`RuleChain.Lists`), and all but the first have added a terminal or that the tail may vanish
(`ChainBucket.knowledge`), so that a bucket stays small. Both hold after each chain that is kept
(`Searching.invariant`). The buckets still say all that there is to say of the chains between two
nonterminals, and the search is given up only for the first nonterminal with a cycle of rules behind
which everything vanishes (`chains_exact`).
-/

namespace OperatorLALR

variable {g : Grammar} {a : Analysis} {source target n : NonterminalId}
  {buckets buckets' : ChainBuckets} {bucket : ChainBucket} {chain : RuleChain}
  {tail : List Symbol}

/-- Rules, the innermost first, lead from one nonterminal to another, each body led by the head of
the next rule. The tail is what they put behind the last nonterminal. -/
inductive ChainBy (g : Grammar) :
    List RuleId → NonterminalId → NonterminalId → List Symbol → Prop
  | nil (n : NonterminalId) : ChainBy g [] n n []
  | cons {rules : List RuleId} {r : RuleId} {rule : Rule} {n target : NonterminalId}
      {tail rest : List Symbol} (hrule : g.rule? r = some rule)
      (hbody : rule.body = .nonterminal n :: rest) (h : ChainBy g rules n target tail) :
      ChainBy g (rules ++ [r]) rule.left target (tail ++ rest)

/-- Rules that lead from one nonterminal to another are those of a chain. -/
theorem ChainBy.toChain {rules : List RuleId} (h : ChainBy g rules source target tail) :
    Chain g source target tail := by
  induction h with
  | nil n => exact .nil n
  | cons hrule hbody _ ih => exact .cons hrule hbody ih

/-- A chain is one of rules. -/
theorem Chain.exists_rules (h : Chain g source target tail) :
    ∃ rules, ChainBy g rules source target tail := by
  induction h with
  | nil n => exact ⟨[], .nil n⟩
  | cons hrule hbody _ ih =>
    obtain ⟨rules, hrules⟩ := ih
    exact ⟨_, .cons hrule hbody hrules⟩

/-- A nonterminal is cyclic if some rules lead from it to itself with a tail that vanishes, that is,
with rests that all vanish. -/
def Grammar.Cyclic (g : Grammar) (n : NonterminalId) : Prop :=
  ∃ rules tail, rules ≠ [] ∧ ChainBy g rules n n tail ∧ g.Vanishes tail

/-- The cyclic nonterminals are those that are lifted to themselves. -/
theorem cyclic_iff_lifts : g.Cyclic n ↔ Relation.TransGen g.Lifts n n := by
  constructor
  · rintro ⟨rules, tail, hne, hrules, htail⟩
    generalize htarget : n = target at hrules
    cases hrules with
    | nil => exact absurd rfl hne
    | @cons rules r rule m _ tail rest hrule hbody hrules =>
      obtain ⟨htail, hrest⟩ := Grammar.vanishes_append.mp htail
      have hback := hrules.toChain.lifts htail
      exact .head' ⟨r, rule, rest, hrule, rfl, hbody, hrest⟩ (htarget ▸ hback)
  · intro h
    obtain ⟨m, ⟨r, rule, rest, hrule, rfl, hbody, hrest⟩, hback⟩ :=
      Relation.TransGen.head'_iff.mp h
    obtain ⟨tail, hchain, htail⟩ := exists_chain_of_lifts hback
    obtain ⟨rules, hrules⟩ := hchain.exists_rules
    exact ⟨rules ++ [r], tail ++ rest, List.append_ne_nil_of_right_ne_nil _ (List.cons_ne_nil r []),
      .cons hrule hbody hrules, Grammar.vanishes_append.mpr ⟨htail, hrest⟩⟩

/-- A cyclic nonterminal is declared. -/
theorem Grammar.Cyclic.lt (hg : g.WellFormed) (h : g.Cyclic n) :
    n.val < g.nonterminals.length := by
  obtain ⟨_, hlifts, -⟩ := Relation.TransGen.head'_iff.mp (cyclic_iff_lifts.mp h)
  exact hlifts.lt hg

namespace Grammar

/-- The chains to a nonterminal are found unless it is cyclic. -/
theorem chainsTo_eq_ok_iff (hg : g.WellFormed) :
    (∃ buckets, g.chainsTo g.nullableSet (g.firstSets g.nullableSet) n = .ok buckets) ↔
      ¬ g.Cyclic n := by
  rw [cyclic_iff_lifts]
  refine ⟨fun ⟨_, hok⟩ => not_lifts_of_chainsTo hg hok, fun hnot => ?_⟩
  cases hresult : g.chainsTo g.nullableSet (g.firstSets g.nullableSet) n with
  | ok buckets => exact ⟨buckets, rfl⟩
  | error e => exact absurd (lifts_of_chainsTo hg hresult).2 hnot

/-- The search for the chains to a nonterminal fails if it is cyclic, and blames it. -/
theorem chainsTo_eq_error_iff (hg : g.WellFormed) {e : CyclicDerivation} :
    g.chainsTo g.nullableSet (g.firstSets g.nullableSet) n = .error e ↔
      g.Cyclic n ∧ e = ⟨n, g.nonterminalName n⟩ := by
  rw [cyclic_iff_lifts]
  constructor
  · intro herror
    obtain ⟨he, hlifts⟩ := lifts_of_chainsTo hg herror
    exact ⟨hlifts, he⟩
  · rintro ⟨hlifts, rfl⟩
    rcases searchesChains_chainsTo hg n with ⟨buckets, hok, -⟩ | ⟨herror, -⟩
    · exact absurd hlifts (not_lifts_of_chainsTo hg hok)
    · exact herror

/-- An analysis fails for the first cyclic nonterminal. -/
theorem analyse_eq_error_iff (hg : g.WellFormed) {e : CyclicDerivation} :
    g.analyse = .error e ↔ g.Cyclic e.symbol ∧ (∀ n, g.Cyclic n → e.symbol.val ≤ n.val) ∧
      e.name = g.nonterminalName e.symbol := by
  have htraversal : g.analyse = .error e ↔
      g.nonterminalIds.mapM (g.chainsTo g.nullableSet (g.firstSets g.nullableSet)) = .error e := by
    unfold analyse
    dsimp only
    split
    · next hok => simp [hok]
    · next herror => simp [herror]
  rw [htraversal, mapM_eq_error_iff]
  constructor
  · rintro ⟨i, n, hn, herror, hbefore⟩
    obtain ⟨hcyclic, rfl⟩ := (chainsTo_eq_error_iff hg).mp herror
    obtain ⟨hi, -⟩ := List.getElem?_eq_some_iff.mp hn
    rw [nonterminalIds, Index.length_below] at hi
    rw [nonterminalIds, Index.getElem?_below hi] at hn
    obtain rfl := Option.some.inj hn
    refine ⟨hcyclic, fun m hm => ?_, rfl⟩
    by_contra hlt
    have hfound := hbefore m.val (Nat.lt_of_not_le hlt) m (Index.getElem?_below (hm.lt hg))
    exact (chainsTo_eq_ok_iff hg).mp hfound hm
  · rintro ⟨hcyclic, hfirst, hname⟩
    refine ⟨e.symbol.val, e.symbol, Index.getElem?_below (hcyclic.lt hg),
      (chainsTo_eq_error_iff hg).mpr ⟨hcyclic, ?_⟩, fun j hj m hm => ?_⟩
    · rw [← hname]
    · rw [nonterminalIds, Index.getElem?_below (Nat.lt_trans hj (hcyclic.lt hg))] at hm
      obtain rfl := Option.some.inj hm
      refine (chainsTo_eq_ok_iff hg).mpr fun hm => ?_
      exact absurd (hfirst _ hm) (Nat.not_le_of_lt hj)

/-- An analysis succeeds exactly without cyclic nonterminals. -/
theorem analyse_eq_ok_iff (hg : g.WellFormed) :
    (∃ a, g.analyse = .ok a) ↔ ∀ n, ¬ g.Cyclic n := by
  constructor
  · rintro ⟨a, ha⟩ n hn
    exact Analysis.not_lifts_self hg ha n (cyclic_iff_lifts.mp hn)
  · intro hnone
    cases ha : g.analyse with
    | ok a => exact ⟨a, rfl⟩
    | error e => exact absurd ((analyse_eq_error_iff hg).mp ha).1 (hnone e.symbol)

end Grammar

/-- A chain lists rules that lead from its source to its target, and says what begins their tail and
whether it vanishes. -/
def RuleChain.Lists (g : Grammar) (chain : RuleChain) : Prop :=
  ∃ tail, ChainBy g chain.rules chain.source chain.target tail ∧
    (∀ t, t ∈ chain.first ↔ g.Begins tail t) ∧ (chain.nullable = true ↔ g.Vanishes tail)

/-- The empty chain lists no rules. -/
theorem lists_empty (n : NonterminalId) : (RuleChain.empty n).Lists g := by
  refine ⟨[], .nil n, fun t => ?_, fun _ => Grammar.vanishes_nil, fun _ => rfl⟩
  exact ⟨fun ht => absurd ht (IndexSet.mem_empty t), fun ht => absurd ht Grammar.not_begins_nil⟩

/-- A chain with a rule in front lists that rule last. -/
theorem lists_extendChain (hg : g.WellFormed) {r : RuleId} (hchain : chain.Lists g)
    (hr : r ∈ g.rulesLedBy chain.source) :
    (g.extendChain g.nullableSet (g.firstSets g.nullableSet) chain r).Lists g := by
  obtain ⟨rule, rest, hrule, hbody⟩ := Grammar.mem_rulesLedBy.mp hr
  obtain ⟨tail, htail, hfirst, hnullable⟩ := hchain
  refine ⟨tail ++ rest, ?_, Grammar.extendChain_tail hg hrule hbody hfirst hnullable⟩
  rw [(Grammar.extendChain_spec hg hrule hbody).1]
  exact .cons hrule hbody htail

/-- What a bucket may know: that it is nullable, or a terminal. -/
def ChainBucket.Knows (bucket : ChainBucket) : Option TerminalId → Prop
  | none => bucket.nullable = true
  | some t => t ∈ bucket.first

/-- What buckets may know: that they are nullable, and each terminal but the end of the input. -/
def Grammar.bucketFacts (g : Grammar) : List (Option TerminalId) :=
  none :: (Index.below (g.terminals.length - 1)).map fun t : TerminalId => some ⟨t.val + 1⟩

/-- Terminals that begin declared symbols may be known. -/
theorem Grammar.Begins.mem_bucketFacts (hg : g.WellFormed)
    (htail : ∀ symbol ∈ tail, g.Declares symbol) {t : TerminalId} (h : g.Begins tail t) :
    some t ∈ g.bucketFacts := by
  have hlt : t.val < g.terminals.length := h.declared hg htail
  have hne : t.val ≠ 0 := by
    intro hzero
    obtain rfl : t = endOfInput := Index.ext hzero
    exact Grammar.not_begins_endOfInput hg htail h
  refine List.mem_cons_of_mem _ (List.mem_map.mpr ⟨⟨t.val - 1⟩, Index.mem_below.mpr ?_, ?_⟩)
  · exact Nat.sub_lt_sub_right (Nat.pos_of_ne_zero hne) hlt
  · rw [Nat.sub_add_cancel (Nat.pos_of_ne_zero hne)]

open Classical in
/-- How much a bucket knows. -/
noncomputable def ChainBucket.knowledge (g : Grammar) (bucket : ChainBucket) : Nat :=
  g.bucketFacts.countP (bucket.Knows ·)

/-- A bucket knows at most one thing more than there are terminals besides the end of the input. -/
theorem ChainBucket.knowledge_le (g : Grammar) (bucket : ChainBucket) :
    bucket.knowledge g ≤ 1 + (g.terminals.length - 1) := by
  classical
  have hle : bucket.knowledge g ≤ g.bucketFacts.length := List.countP_le_length
  rwa [Grammar.bucketFacts, List.length_cons, List.length_map, Index.length_below,
    Nat.add_comm] at hle

/-- A chain that is not superfluous in a bucket with chains adds to what it knows. -/
theorem ChainBucket.knowledge_lt (hnonempty : bucket.chains ≠ [])
    (hfacts : ∀ t ∈ chain.first, some t ∈ g.bucketFacts) (hnot : bucket.subsumes chain = false) :
    bucket.knowledge g < (bucket.add chain).knowledge g := by
  have hgain : ∃ u ∈ g.bucketFacts, (bucket.add chain).Knows u ∧ ¬ bucket.Knows u := by
    by_contra hnone
    have hall : ∀ u ∈ g.bucketFacts, (bucket.add chain).Knows u → bucket.Knows u := by
      intro u hu hnew
      by_contra hold
      exact hnone ⟨u, hu, hnew, hold⟩
    have hfirst : ∀ t ∈ chain.first, t ∈ bucket.first := fun t ht =>
      hall (some t) (hfacts t ht) (IndexSet.mem_union.mpr (.inr ht))
    have hnullable : chain.nullable = true → bucket.nullable = true := fun hn =>
      hall none List.mem_cons_self (Bool.or_eq_true_iff.mpr (.inr hn))
    rw [ChainBucket.subsumes_iff.mpr ⟨hnonempty, hfirst, hnullable⟩] at hnot
    cases hnot
  have hgrows : Grows ChainBucket.Knows g.bucketFacts bucket (bucket.add chain) := by
    refine ⟨fun u hu => ?_, fun _ => hgain⟩
    cases u with
    | none => exact Bool.or_eq_true_iff.mpr (.inl hu)
    | some t => exact IndexSet.mem_union.mpr (.inl hu)
  refine hgrows.countP_lt fun heq => ?_
  obtain ⟨u, -, hnew, hold⟩ := hgain
  exact hold (heq ▸ hnew)

/-- A property of buckets stays when a chain is kept: an extension of one that was kept, which its
bucket does not make superfluous. -/
def Preserved (g : Grammar) (P : ChainBuckets → Prop) : Prop :=
  ∀ buckets chain r, P buckets → Kept buckets chain → r ∈ g.rulesLedBy chain.source →
    let longer := g.extendChain g.nullableSet (g.firstSets g.nullableSet) chain r
    ((buckets.find? longer.source).getD .empty).subsumes longer = false →
      P (addChain buckets longer)

variable {P : ChainBuckets → Prop}

/-- The extensions of a chain keep what is preserved. -/
theorem invariant_of_extendBuckets (hP : Preserved g P) {rs : List RuleId} {kept : List RuleChain}
    (hrs : ∀ r ∈ rs, r ∈ g.rulesLedBy chain.source) (hkept : Kept buckets chain) (h : P buckets)
    (hextend : g.extendBuckets g.nullableSet (g.firstSets g.nullableSet) chain rs buckets =
      some (kept, buckets')) : P buckets' := by
  induction rs generalizing buckets kept with
  | nil =>
    obtain ⟨-, rfl⟩ := Prod.mk.inj (Option.some.inj hextend)
    exact h
  | cons r rs ih =>
    obtain ⟨hr, hrest⟩ := List.forall_mem_cons.mp hrs
    rw [Grammar.extendBuckets] at hextend
    split at hextend
    · cases hextend
    · dsimp only at hextend
      split at hextend
      · exact ih hrest hkept h hextend
      · next hnot =>
        obtain ⟨⟨_, _⟩, hmap, heq⟩ := Option.map_eq_some_iff.mp hextend
        obtain ⟨-, rfl⟩ := Prod.mk.inj heq
        refine ih hrest ?_ ?_ hmap
        · exact kept_addChain_iff.mpr (.inl hkept)
        · exact hP buckets chain r h hkept hr (Bool.eq_false_iff.mpr hnot)

/-- A search keeps what is preserved. -/
theorem Searching.invariant (hg : g.WellFormed) (hP : Preserved g P) {waiting : List RuleChain}
    (hsearching : Searching g target waiting buckets) (h : P buckets)
    (hsearch : SearchesChains g waiting buckets (some buckets')) : P buckets' := by
  generalize hresult : some buckets' = result at hsearch
  induction hsearch with
  | done buckets =>
    obtain rfl := Option.some.inj hresult
    exact h
  | cyclic => cases hresult
  | @extend chain _ _ _ _ _ hextend _ ih =>
    have hkept : Kept _ chain := hsearching.isKept chain List.mem_cons_self
    exact ih (hsearching.next (hsearching.extendedBy hg hextend))
      (invariant_of_extendBuckets hP (fun _ hr => hr) hkept h hextend) hresult

/-- Buckets of chains that list their rules, all of which but the first in a bucket have added to
what it knows. -/
structure BucketsPruned (g : Grammar) (target : NonterminalId) (buckets : ChainBuckets) : Prop where
  sound : BucketsSound g target buckets
  lists : ∀ c, Kept buckets c → c.Lists g
  bounded : ∀ n bucket, buckets.find? n = some bucket →
    bucket.chains.length ≤ 1 + bucket.knowledge g

/-- Adding a chain that is not superfluous keeps buckets pruned. -/
theorem BucketsPruned.addChain (hg : g.WellFormed) (h : BucketsPruned g target buckets)
    (htarget : chain.target = target) (hchain : chain.Lists g)
    (hnot : ((buckets.find? chain.source).getD .empty).subsumes chain = false) :
    BucketsPruned g target (addChain buckets chain) := by
  obtain ⟨tail, hrules, hfirst, hnullable⟩ := hchain
  refine ⟨h.sound.addChain ⟨htarget, tail, hrules.toChain, hfirst, hnullable⟩, ?_, ?_⟩
  · intro c hc
    rcases kept_addChain_iff.mp hc with hc | rfl
    · exact h.lists c hc
    · exact ⟨tail, hrules, hfirst, hnullable⟩
  · intro n bucket hbucket
    rw [OperatorLALR.addChain, OrderedMap.find?_insert] at hbucket
    split at hbucket
    · obtain rfl := Option.some.inj hbucket
      rw [ChainBucket.add, List.length_append, List.length_singleton]
      cases hold : buckets.find? chain.source with
      | none => exact Nat.le_add_right 1 _
      | some old =>
        rw [hold, Option.getD_some] at hnot
        have hlt := ChainBucket.knowledge_lt (h.sound _ old hold).nonempty (fun t ht =>
          ((hfirst t).mp ht).mem_bucketFacts hg (hrules.toChain.declares_tail hg)) hnot
        have hle := h.bounded _ old hold
        rw [Option.getD_some]
        exact Nat.le_trans (Nat.add_le_add_right hle 1) (Nat.add_le_add_left hlt 1)
    · exact h.bounded n bucket hbucket

/-- Keeping a chain keeps buckets pruned. -/
theorem preserved_pruned (hg : g.WellFormed) (target : NonterminalId) :
    Preserved g (BucketsPruned g target) := by
  intro buckets chain r h hkept hr longer hnot
  obtain ⟨rule, rest, hrule, hbody⟩ := Grammar.mem_rulesLedBy.mp hr
  obtain ⟨n, bucket, hbucket, hc⟩ := hkept
  refine h.addChain hg ?_ (lists_extendChain hg (h.lists chain ⟨n, bucket, hbucket, hc⟩) hr) hnot
  rw [(Grammar.extendChain_spec hg hrule hbody).2.1]
  exact ((h.sound n bucket hbucket).chains chain hc).2.1

/-- The buckets found for a nonterminal are pruned. -/
theorem pruned_of_chainsTo (hg : g.WellFormed)
    (h : g.chainsTo g.nullableSet (g.firstSets g.nullableSet) target = .ok buckets) :
    BucketsPruned g target buckets := by
  have hempty : BucketsPruned g target ∅ :=
    ⟨fun _ _ h => (nomatch h), fun _ ⟨_, _, h, _⟩ => (nomatch h), fun _ _ h => (nomatch h)⟩
  refine (searching_start g target).invariant hg (preserved_pruned hg target) ?_
    (searchesChains_of_ok hg h)
  exact hempty.addChain hg rfl (lists_empty target) rfl

/-- What a bucket says is exact for the chains between two nonterminals, and it lists few. -/
structure ChainBucket.Exact (g : Grammar) (source target : NonterminalId) (bucket : ChainBucket) :
    Prop where
  first : ∀ t, t ∈ bucket.first ↔
    ∃ rules tail, ChainBy g rules source target tail ∧ g.Begins tail t
  nullable : bucket.nullable = true ↔
    ∃ rules tail, ChainBy g rules source target tail ∧ g.Vanishes tail
  chains : ∀ chain ∈ bucket.chains,
    chain.source = source ∧ chain.target = target ∧ chain.Lists g
  bounded : bucket.chains.length ≤ 2 + (g.terminals.length - 1)

namespace Analysis

/-- The buckets of an analysis are exact. -/
theorem exact_of_chains? (hg : g.WellFormed) (ha : g.analyse = .ok a)
    (hsource : source.val < g.nonterminals.length) (h : a.chains? source target = some bucket) :
    bucket.Exact g source target := by
  have hsound := sound_of_chains? hg ha h
  obtain ⟨buckets, hbuckets, hfind⟩ := chains?_eq_some_iff.mp h
  have hpruned : BucketsPruned g target buckets := by
    obtain ⟨n, hn, hok⟩ := exists_getElem?_left (eq_of_analyse ha).2.2 hbuckets
    obtain ⟨hlt, -⟩ := List.getElem?_eq_some_iff.mp hn
    rw [Grammar.nonterminalIds, Index.length_below] at hlt
    rw [Grammar.nonterminalIds, Index.getElem?_below hlt] at hn
    obtain rfl : target = n := Option.some.inj hn
    exact pruned_of_chainsTo hg hok
  have hcomplete : ∀ {rules tail}, ChainBy g rules source target tail →
      (∀ t, g.Begins tail t → t ∈ bucket.first) ∧ (g.Vanishes tail → bucket.nullable = true) := by
    intro rules tail hrules
    obtain ⟨bucket', h', hspec⟩ := exists_chains hg ha hsource hrules.toChain
    rw [h] at h'
    rwa [Option.some.inj h']
  refine ⟨fun t => ⟨fun ht => ?_, ?_⟩, ⟨fun hn => ?_, ?_⟩, fun chain hc => ?_, ?_⟩
  · obtain ⟨tail, hchain, htail⟩ := exists_chain_of_mem_first hg ha h ht
    obtain ⟨rules, hrules⟩ := hchain.exists_rules
    exact ⟨rules, tail, hrules, htail⟩
  · rintro ⟨rules, tail, hrules, htail⟩
    exact (hcomplete hrules).1 t htail
  · obtain ⟨tail, hchain, htail⟩ := exists_chain_of_nullable hg ha h hn
    obtain ⟨rules, hrules⟩ := hchain.exists_rules
    exact ⟨rules, tail, hrules, htail⟩
  · rintro ⟨rules, tail, hrules, htail⟩
    exact (hcomplete hrules).2 htail
  · obtain ⟨hs, ht, -⟩ := hsound.chains chain hc
    exact ⟨hs, ht, hpruned.lists chain ⟨source, bucket, hfind, hc⟩⟩
  · have hle := hpruned.bounded source bucket hfind
    have hknowledge := bucket.knowledge_le g
    omega

end Analysis

/-- The search for chains to each nonterminal comes to an end. The analysis fails exactly if some
nonterminal is cyclic, and then for the first that is. Otherwise there is a bucket for two
nonterminals exactly if rules lead from one to the other, and it is exact. -/
theorem chains_exact (h : g.IsDefined) :
    (∀ target,
      (∃ buckets, g.chainsTo g.nullableSet (g.firstSets g.nullableSet) target = .ok buckets ∧
          SearchesChains g [.empty target] (addChain ∅ (.empty target)) (some buckets)) ∨
        g.chainsTo g.nullableSet (g.firstSets g.nullableSet) target =
            .error ⟨target, g.nonterminalName target⟩ ∧
          SearchesChains g [.empty target] (addChain ∅ (.empty target)) none) ∧
    (∀ e, g.analyse = .error e ↔ g.Cyclic e.symbol ∧
      (∀ n, g.Cyclic n → e.symbol.val ≤ n.val) ∧ e.name = g.nonterminalName e.symbol) ∧
    ((∃ a, g.analyse = .ok a) ↔ ∀ n, ¬ g.Cyclic n) ∧
    ∀ a, g.analyse = .ok a → ∀ source target, source.val < g.nonterminals.length →
      ((∃ bucket, a.chains? source target = some bucket) ↔
        ∃ rules tail, ChainBy g rules source target tail) ∧
      ∀ bucket, a.chains? source target = some bucket → bucket.Exact g source target := by
  have hg := h.wellFormed
  refine ⟨searchesChains_chainsTo hg, fun e => Grammar.analyse_eq_error_iff hg,
    Grammar.analyse_eq_ok_iff hg, fun a ha source target hsource => ⟨⟨?_, ?_⟩, ?_⟩⟩
  · rintro ⟨bucket, hbucket⟩
    obtain ⟨tail, hchain⟩ := Analysis.exists_chain hg ha hbucket
    obtain ⟨rules, hrules⟩ := hchain.exists_rules
    exact ⟨rules, tail, hrules⟩
  · rintro ⟨rules, tail, hrules⟩
    obtain ⟨bucket, hbucket, -⟩ := Analysis.exists_chains hg ha hsource hrules.toChain
    exact ⟨bucket, hbucket⟩
  · exact fun bucket hbucket => Analysis.exact_of_chains? hg ha hsource hbucket

/-- The grammar `S := A T | b; A := S c | S d; T := %empty | d` (as rules 1 to 6). -/
def indirectRecursion : Grammar where
  terminals := [.endOfInput, ⟨"b", none, .plain⟩, ⟨"c", none, .plain⟩, ⟨"d", none, .plain⟩]
  nonterminals := [augmentedStartName, "S", "A", "T"]
  rules := [⟨augmentedStart, [.nonterminal ⟨1⟩], none⟩,
    ⟨⟨1⟩, [.nonterminal ⟨2⟩, .nonterminal ⟨3⟩], none⟩, ⟨⟨1⟩, [.terminal ⟨1⟩], none⟩,
    ⟨⟨2⟩, [.nonterminal ⟨1⟩, .terminal ⟨2⟩], none⟩, ⟨⟨2⟩, [.nonterminal ⟨1⟩, .terminal ⟨3⟩], none⟩,
    ⟨⟨3⟩, [], none⟩, ⟨⟨3⟩, [.terminal ⟨3⟩], none⟩]
  start := ⟨1⟩
  operators := ∅
  operatorTerminals := ∅

/-- From `S` chains lead to `S` through either rule of `A`, any number of times. Three of them are
kept. The nonterminals `S` and `T` of another grammar are cyclic, and `S` is blamed. -/
theorem chains_exact_indirectRecursion :
    indirectRecursion.IsDefined ∧ mutualCycle.IsDefined ∧
      (∃ a bucket, indirectRecursion.analyse = .ok a ∧ a.chains? ⟨1⟩ ⟨1⟩ = some bucket ∧
        bucket.chains.map RuleChain.rules = [[], [⟨3⟩, ⟨1⟩], [⟨4⟩, ⟨1⟩]] ∧
        bucket.Exact indirectRecursion ⟨1⟩ ⟨1⟩) ∧
      mutualCycle.analyse = .error ⟨⟨1⟩, "S"⟩ ∧ mutualCycle.Cyclic ⟨1⟩ := by
  have hdefined : indirectRecursion.IsDefined :=
    ⟨[.terminal "b" none, .terminal "c" none, .terminal "d" none, .nonterminal "S",
      .nonterminal "A", .nonterminal "T", .rule ⟨1⟩ [.nonterminal ⟨2⟩, .nonterminal ⟨3⟩] none,
      .rule ⟨1⟩ [.terminal ⟨1⟩] none, .rule ⟨2⟩ [.nonterminal ⟨1⟩, .terminal ⟨2⟩] none,
      .rule ⟨2⟩ [.nonterminal ⟨1⟩, .terminal ⟨3⟩] none, .rule ⟨3⟩ [] none,
      .rule ⟨3⟩ [.terminal ⟨3⟩] none], .inl (by decide)⟩
  have hkept : ∃ a bucket, indirectRecursion.analyse = .ok a ∧ a.chains? ⟨1⟩ ⟨1⟩ = some bucket ∧
      bucket.chains.map RuleChain.rules = [[], [⟨3⟩, ⟨1⟩], [⟨4⟩, ⟨1⟩]] := by
    have hrules : (indirectRecursion.analyse.toOption.bind fun a => (a.chains? ⟨1⟩ ⟨1⟩).map
        fun bucket => bucket.chains.map RuleChain.rules) =
          some [[], [⟨3⟩, ⟨1⟩], [⟨4⟩, ⟨1⟩]] := by decide +kernel
    cases ha : indirectRecursion.analyse with
    | error e =>
      rw [ha] at hrules
      cases hrules
    | ok a =>
      rw [ha] at hrules
      obtain ⟨bucket, hbucket, hchains⟩ := Option.map_eq_some_iff.mp hrules
      exact ⟨a, bucket, rfl, hbucket, hchains⟩
  obtain ⟨a, bucket, ha, hbucket, hchains⟩ := hkept
  have hexact := ((chains_exact hdefined).2.2.2 a ha ⟨1⟩ ⟨1⟩ (by decide)).2 bucket hbucket
  have herror : mutualCycle.analyse = .error ⟨⟨1⟩, "S"⟩ := by decide +kernel
  exact ⟨hdefined, mutualCycle_isDefined, ⟨a, bucket, ha, hbucket, hchains, hexact⟩, herror,
    (((chains_exact mutualCycle_isDefined).2.1 _).mp herror).1⟩

end OperatorLALR
