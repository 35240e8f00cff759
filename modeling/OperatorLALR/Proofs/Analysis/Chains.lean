import OperatorLALR.Proofs.Analysis.First

/-!
# Rule chains are exact

`Chain` says what a rule chain is, whatever search finds it: along a chain from `A` to `C`, the
nonterminal `A` derives `C` and a tail behind it. The buckets of an analysis hold all that chains
between two nonterminals have in common, in spite of the chains that the search drops: what they
hold comes from some chain (`BucketSound`), and the extensions of every chain that was kept are
absorbed by the bucket of its source (`Absorbs`), so that by induction every chain is. The search
comes to an end (`searchesChains_chainsTo`), since every chain that is kept adds a fact.
-/

namespace OperatorLALR

variable {g : Grammar} {xs : List Symbol} {t : TerminalId}

/-- A chain of rules from one nonterminal to another, each body led by the head of the next rule,
with the symbols that it puts behind the last. -/
inductive Chain (g : Grammar) : NonterminalId → NonterminalId → List Symbol → Prop
  | nil (n : NonterminalId) : Chain g n n []
  | cons {r : RuleId} {rule : Rule} {n target : NonterminalId} {tail rest : List Symbol}
      (hrule : g.rule? r = some rule) (hbody : rule.body = .nonterminal n :: rest)
      (h : Chain g n target tail) : Chain g rule.left target (tail ++ rest)

namespace Chain

variable {source target : NonterminalId} {tail rest : List Symbol}

/-- A chain may be continued by a rule of its target. -/
theorem snoc {r : RuleId} {rule : Rule} {n : NonterminalId} (h : Chain g source target tail)
    (hrule : g.rule? r = some rule) (hleft : rule.left = target)
    (hbody : rule.body = .nonterminal n :: rest) : Chain g source n (rest ++ tail) := by
  induction h with
  | nil =>
    subst hleft
    have hchain : Chain g rule.left n ([] ++ rest) := .cons hrule hbody (.nil n)
    rwa [List.nil_append, ← List.append_nil rest] at hchain
  | cons hrule' hbody' _ ih =>
    rw [← List.append_assoc]
    exact .cons hrule' hbody' (ih hleft)

/-- What stands behind a chain has been declared. -/
theorem declares_tail (hg : g.WellFormed) (h : Chain g source target tail) :
    ∀ symbol ∈ tail, g.Declares symbol := by
  induction h with
  | nil => exact nofun
  | @cons r rule _ _ _ _ hrule hbody _ ih =>
    intro symbol hsymbol
    rcases List.mem_append.mp hsymbol with hsymbol | hsymbol
    · exact ih symbol hsymbol
    · refine hg.body r rule hrule symbol ?_
      rw [hbody]
      exact List.mem_cons_of_mem _ hsymbol

/-- A chain leads to a nonterminal of the grammar. -/
theorem target_lt (hg : g.WellFormed) (h : Chain g source target tail)
    (hsource : source.val < g.nonterminals.length) : target.val < g.nonterminals.length := by
  induction h with
  | nil => exact hsource
  | @cons r rule n _ _ _ hrule hbody _ ih =>
    have hmem : Symbol.nonterminal n ∈ rule.body := by
      rw [hbody]
      exact List.mem_cons_self
    exact ih (hg.body r rule hrule _ hmem).2

/-- A chain does not lead to the augmented start symbol. -/
theorem target_ne_start (hg : g.WellFormed) (h : Chain g source target tail)
    (hsource : source ≠ augmentedStart) : target ≠ augmentedStart := by
  induction h with
  | nil => exact hsource
  | @cons r rule n _ _ _ hrule hbody _ ih =>
    have hmem : Symbol.nonterminal n ∈ rule.body := by
      rw [hbody]
      exact List.mem_cons_self
    exact ih (hg.body r rule hrule _ hmem).1

end Chain

/-- A chain that the search builds is a chain, and says what begins its tail and whether the tail
vanishes. -/
def RuleChain.IsChain (g : Grammar) (chain : RuleChain) : Prop :=
  ∃ tail, Chain g chain.source chain.target tail ∧ (∀ t, t ∈ chain.first ↔ g.Begins tail t) ∧
    (chain.nullable = true ↔ g.Vanishes tail)

namespace Grammar

/-- The body of a rule that is led by a nonterminal. -/
theorem mem_rulesLedBy {n : NonterminalId} {r : RuleId} :
    r ∈ g.rulesLedBy n ↔
      ∃ rule rest, g.rule? r = some rule ∧ rule.body = .nonterminal n :: rest := by
  have hhead : (g.body r).head? = some (.nonterminal n) ↔
      ∃ rule rest, g.rule? r = some rule ∧ rule.body = .nonterminal n :: rest := by
    rw [body]
    cases hr : g.rule? r with
    | none => simp
    | some rule => simp [List.head?_eq_some_iff]
  rw [rulesLedBy, List.mem_filter, beq_iff_eq, hhead, ruleIds, Index.mem_below]
  refine ⟨fun h => h.2, fun h => ⟨?_, h⟩⟩
  obtain ⟨rule, _, hrule, -⟩ := h
  exact (List.getElem?_eq_some_iff.mp hrule).1

/-- The empty chain is a chain. -/
theorem isChain_empty (n : NonterminalId) : (RuleChain.empty n).IsChain g := by
  refine ⟨[], .nil n, fun t => ?_, fun _ => vanishes_nil, fun _ => rfl⟩
  exact ⟨fun ht => absurd ht (IndexSet.mem_empty t), fun ht => absurd ht not_begins_nil⟩

/-- What is known of a chain with a rule in front. -/
theorem extendChain_spec (hg : g.WellFormed) {chain : RuleChain} {r : RuleId} {rule : Rule}
    {rest : List Symbol} (hrule : g.rule? r = some rule)
    (hbody : rule.body = .nonterminal chain.source :: rest) :
    (g.extendChain g.nullableSet (g.firstSets g.nullableSet) chain r).source = rule.left ∧
    (g.extendChain g.nullableSet (g.firstSets g.nullableSet) chain r).target = chain.target ∧
    (∀ t, t ∈ (g.extendChain g.nullableSet (g.firstSets g.nullableSet) chain r).first ↔
      t ∈ chain.first ∨ chain.nullable = true ∧ g.Begins rest t) ∧
    ((g.extendChain g.nullableSet (g.firstSets g.nullableSet) chain r).nullable = true ↔
      chain.nullable = true ∧ g.Vanishes rest) := by
  have htail : (g.body r).tail = rest := by
    rw [body_eq hrule, hbody]
    rfl
  refine ⟨left_eq hrule, rfl, ?_, ?_⟩
  · intro t
    simp only [extendChain, RuleChain.extend, htail]
    cases chain.nullable with
    | true => simp [mem_firstOfSymbols_iff hg]
    | false => simp
  · simp only [extendChain, RuleChain.extend, htail, Bool.and_eq_true, allNullable_iff hg]

/-- What a chain says of a tail it says, with a rule in front, of the tail with the rest of the
rule. -/
theorem extendChain_tail (hg : g.WellFormed) {chain : RuleChain} {r : RuleId} {rule : Rule}
    {rest tail : List Symbol} (hrule : g.rule? r = some rule)
    (hbody : rule.body = .nonterminal chain.source :: rest)
    (hfirst : ∀ t, t ∈ chain.first ↔ g.Begins tail t)
    (hnullable : chain.nullable = true ↔ g.Vanishes tail) :
    (∀ t, t ∈ (g.extendChain g.nullableSet (g.firstSets g.nullableSet) chain r).first ↔
      g.Begins (tail ++ rest) t) ∧
    ((g.extendChain g.nullableSet (g.firstSets g.nullableSet) chain r).nullable = true ↔
      g.Vanishes (tail ++ rest)) := by
  obtain ⟨-, -, hlongFirst, hlongNullable⟩ := extendChain_spec hg hrule hbody
  refine ⟨fun t => ?_, ?_⟩
  · rw [hlongFirst, hfirst, hnullable, begins_append]
  · rw [hlongNullable, hnullable, vanishes_append]

/-- A chain with a rule in front is a chain. -/
theorem isChain_extendChain (hg : g.WellFormed) {chain : RuleChain} {r : RuleId}
    (hchain : chain.IsChain g) (hr : r ∈ g.rulesLedBy chain.source) :
    (g.extendChain g.nullableSet (g.firstSets g.nullableSet) chain r).IsChain g := by
  obtain ⟨rule, rest, hrule, hbody⟩ := mem_rulesLedBy.mp hr
  obtain ⟨hsource, htarget, -⟩ := extendChain_spec hg hrule hbody
  obtain ⟨tail, htail, hfirst, hnullable⟩ := hchain
  refine ⟨tail ++ rest, ?_, extendChain_tail hg hrule hbody hfirst hnullable⟩
  rw [hsource, htarget]
  exact .cons hrule hbody htail

end Grammar

/-- What the chains of a bucket have in common is known of it, and each of them is a chain from the
source of the bucket. -/
structure ChainBucket.Sound (g : Grammar) (source target : NonterminalId) (bucket : ChainBucket) :
    Prop where
  nonempty : bucket.chains ≠ []
  chains : ∀ chain ∈ bucket.chains,
    chain.source = source ∧ chain.target = target ∧ chain.IsChain g
  first : ∀ t, t ∈ bucket.first ↔ ∃ chain ∈ bucket.chains, t ∈ chain.first
  nullable : bucket.nullable = true ↔ ∃ chain ∈ bucket.chains, chain.nullable = true

/-- A bucket with one more chain is sound, and so is the first chain on its own. -/
theorem ChainBucket.Sound.add {source target : NonterminalId} {bucket : ChainBucket}
    {chain : RuleChain} (hbucket : bucket = .empty ∨ bucket.Sound g source target)
    (hchain : chain.source = source ∧ chain.target = target ∧ chain.IsChain g) :
    (bucket.add chain).Sound g source target := by
  have hold : (∀ c ∈ bucket.chains, c.source = source ∧ c.target = target ∧ c.IsChain g) ∧
      (∀ t, t ∈ bucket.first ↔ ∃ c ∈ bucket.chains, t ∈ c.first) ∧
      (bucket.nullable = true ↔ ∃ c ∈ bucket.chains, c.nullable = true) := by
    rcases hbucket with rfl | h
    · exact ⟨nofun, fun t => ⟨fun ht => absurd ht (IndexSet.mem_empty t), nofun⟩, nofun, nofun⟩
    · exact ⟨h.chains, h.first, h.nullable⟩
  obtain ⟨hchains, hfirst, hnullable⟩ := hold
  refine ⟨by simp [ChainBucket.add], ?_, ?_, ?_⟩
  · intro c hc
    rcases List.mem_append.mp hc with hc | hc
    · exact hchains c hc
    · rw [List.mem_singleton.mp hc]
      exact hchain
  · intro t
    simp only [ChainBucket.add, IndexSet.mem_union, hfirst, List.mem_append, List.mem_singleton]
    grind
  · simp only [ChainBucket.add, Bool.or_eq_true, hnullable, List.mem_append, List.mem_singleton]
    grind

/-- What a bucket may be known for: that it is there, a terminal, or that it is nullable. -/
inductive ChainFact where
  | known (source : NonterminalId)
  | first (source : NonterminalId) (t : TerminalId)
  | nullable (source : NonterminalId)

/-- A fact holds of the buckets to a nonterminal. -/
def ChainFact.Holds (buckets : ChainBuckets) : ChainFact → Prop
  | .known n => ∃ bucket, buckets.find? n = some bucket
  | .first n t => ∃ bucket, buckets.find? n = some bucket ∧ t ∈ bucket.first
  | .nullable n => ∃ bucket, buckets.find? n = some bucket ∧ bucket.nullable = true

/-- What the buckets to a nonterminal may be known for. -/
def Grammar.chainFacts (g : Grammar) : List ChainFact :=
  g.nonterminalIds.flatMap fun n => .known n :: .nullable n :: g.terminalIds.map (.first n)

/-- There are as many facts as the search allows for. -/
theorem Grammar.length_chainFacts (g : Grammar) :
    g.chainFacts.length = g.nonterminals.length * (g.terminals.length + 2) := by
  rw [chainFacts, List.length_flatMap]
  simp [nonterminalIds, terminalIds, Index.length_below]

/-- Facts of declared symbols are among those that the search allows for. -/
theorem Grammar.mem_chainFacts {u : ChainFact} :
    u ∈ g.chainFacts ↔ match u with
      | .known n | .nullable n => n.val < g.nonterminals.length
      | .first n t => n.val < g.nonterminals.length ∧ t.val < g.terminals.length := by
  cases u <;> simp [chainFacts, nonterminalIds, terminalIds, Index.mem_below]

/-- The bucket of the source of a chain knows all that the chain would add to it. -/
structure Absorbs (buckets : ChainBuckets) (chain : RuleChain) : Prop where
  known : ChainFact.Holds buckets (.known chain.source)
  first : ∀ t ∈ chain.first, ChainFact.Holds buckets (.first chain.source t)
  nullable : chain.nullable = true → ChainFact.Holds buckets (.nullable chain.source)

/-- What knows more absorbs more. -/
theorem Absorbs.mono {buckets buckets' : ChainBuckets} {chain : RuleChain}
    (h : Absorbs buckets chain)
    (hkeeps : ∀ u, ChainFact.Holds buckets u → ChainFact.Holds buckets' u) :
    Absorbs buckets' chain :=
  ⟨hkeeps _ h.known, fun t ht => hkeeps _ (h.first t ht), fun hn => hkeeps _ (h.nullable hn)⟩

/-- A chain has been kept. -/
def Kept (buckets : ChainBuckets) (chain : RuleChain) : Prop :=
  ∃ n bucket, buckets.find? n = some bucket ∧ chain ∈ bucket.chains

/-- All buckets are sound. -/
def BucketsSound (g : Grammar) (target : NonterminalId) (buckets : ChainBuckets) : Prop :=
  ∀ n bucket, buckets.find? n = some bucket → bucket.Sound g n target

variable {target : NonterminalId} {buckets buckets' : ChainBuckets} {chain : RuleChain}

/-- A bucket with chains makes a further one superfluous if it knows all that the chain would
add. -/
theorem ChainBucket.subsumes_iff {bucket : ChainBucket} :
    bucket.subsumes chain = true ↔ bucket.chains ≠ [] ∧ (∀ t ∈ chain.first, t ∈ bucket.first) ∧
      (chain.nullable = true → bucket.nullable = true) := by
  have hnullable : (bucket.nullable || !chain.nullable) = true ↔
      (chain.nullable = true → bucket.nullable = true) := by
    cases chain.nullable <;> simp
  rw [subsumes, Bool.and_eq_true, Bool.and_eq_true, IndexSet.isSubset_iff, hnullable, and_assoc,
    Bool.not_eq_true', List.isEmpty_eq_false_iff]

/-- A bucket that makes a chain superfluous absorbs it. -/
theorem absorbs_of_subsumes
    (h : ((buckets.find? chain.source).getD .empty).subsumes chain = true) :
    Absorbs buckets chain := by
  obtain ⟨hnonempty, hfirst, hnullable⟩ := ChainBucket.subsumes_iff.mp h
  cases hbucket : buckets.find? chain.source with
  | none =>
    rw [hbucket] at hnonempty
    exact absurd rfl hnonempty
  | some bucket =>
    rw [hbucket] at hfirst hnullable
    exact ⟨⟨bucket, hbucket⟩, fun t ht => ⟨bucket, hbucket, hfirst t ht⟩,
      fun hn => ⟨bucket, hbucket, hnullable hn⟩⟩

/-- What the bucket of the source of an absorbed chain knows. -/
theorem Absorbs.exists_bucket (h : Absorbs buckets chain) :
    ∃ bucket, buckets.find? chain.source = some bucket ∧ (∀ t ∈ chain.first, t ∈ bucket.first) ∧
      (chain.nullable = true → bucket.nullable = true) := by
  obtain ⟨bucket, hbucket⟩ := h.known
  refine ⟨bucket, hbucket, fun t ht => ?_, fun hn => ?_⟩
  · obtain ⟨bucket', hbucket', ht'⟩ := h.first t ht
    rw [hbucket] at hbucket'
    exact Option.some.inj hbucket' ▸ ht'
  · obtain ⟨bucket', hbucket', hn'⟩ := h.nullable hn
    rw [hbucket] at hbucket'
    exact Option.some.inj hbucket' ▸ hn'

/-- An absorbed chain is superfluous. -/
theorem subsumes_of_absorbs (hsound : BucketsSound g target buckets) (h : Absorbs buckets chain) :
    ((buckets.find? chain.source).getD .empty).subsumes chain = true := by
  obtain ⟨bucket, hbucket, hfirst, hnullable⟩ := h.exists_bucket
  rw [hbucket]
  exact ChainBucket.subsumes_iff.mpr ⟨(hsound _ bucket hbucket).nonempty, hfirst, hnullable⟩

/-- The buckets with a chain added to that of its source. -/
def addChain (buckets : ChainBuckets) (chain : RuleChain) : ChainBuckets :=
  buckets.insert chain.source (((buckets.find? chain.source).getD .empty).add chain)

/-- Facts about the buckets with one more chain. -/
theorem holds_addChain_iff {u : ChainFact} :
    ChainFact.Holds (addChain buckets chain) u ↔ ChainFact.Holds buckets u ∨ match u with
      | .known n => n = chain.source
      | .first n t => n = chain.source ∧ t ∈ chain.first
      | .nullable n => n = chain.source ∧ chain.nullable = true := by
  have hfind : ∀ n, (addChain buckets chain).find? n = if chain.source = n
      then some (((buckets.find? chain.source).getD .empty).add chain) else buckets.find? n :=
    fun n => OrderedMap.find?_insert buckets chain.source n _
  have hempty : ∀ t, t ∉ ChainBucket.empty.first := fun t => IndexSet.mem_empty t
  cases u with
  | known n =>
    simp only [ChainFact.Holds, hfind]
    by_cases hn : chain.source = n
    · simp [hn]
    · simp [hn, Ne.symm hn]
  | first n t =>
    simp only [ChainFact.Holds, hfind]
    by_cases hn : chain.source = n
    · subst hn
      cases buckets.find? chain.source <;> simp [ChainBucket.add, hempty]
    · simp [hn, Ne.symm hn]
  | nullable n =>
    simp only [ChainFact.Holds, hfind]
    by_cases hn : chain.source = n
    · subst hn
      cases buckets.find? chain.source <;> simp [ChainBucket.add, ChainBucket.empty]
    · simp [hn, Ne.symm hn]

/-- A chain that has been added is absorbed. -/
theorem absorbs_addChain (buckets : ChainBuckets) (chain : RuleChain) :
    Absorbs (addChain buckets chain) chain where
  known := holds_addChain_iff.mpr (.inr rfl)
  first _ ht := holds_addChain_iff.mpr (.inr ⟨rfl, ht⟩)
  nullable hn := holds_addChain_iff.mpr (.inr ⟨rfl, hn⟩)

/-- Chains that were kept stay kept, and the added one is. -/
theorem kept_addChain_iff {c : RuleChain} :
    Kept (addChain buckets chain) c ↔ Kept buckets c ∨ c = chain := by
  have hfind : ∀ n, (addChain buckets chain).find? n = if chain.source = n
      then some (((buckets.find? chain.source).getD .empty).add chain) else buckets.find? n :=
    fun n => OrderedMap.find?_insert buckets chain.source n _
  constructor
  · rintro ⟨n, bucket, hbucket, hc⟩
    rw [hfind] at hbucket
    split at hbucket
    · obtain rfl := Option.some.inj hbucket
      rcases List.mem_append.mp hc with hc | hc
      · cases hold : buckets.find? chain.source with
        | none =>
          rw [hold] at hc
          cases hc
        | some old =>
          rw [hold] at hc
          exact .inl ⟨chain.source, old, hold, hc⟩
      · exact .inr (List.mem_singleton.mp hc)
    · exact .inl ⟨n, bucket, hbucket, hc⟩
  · rintro (⟨n, bucket, hbucket, hc⟩ | rfl)
    · by_cases hn : chain.source = n
      · refine ⟨n, _, (hfind n).trans (if_pos hn), List.mem_append.mpr (.inl ?_)⟩
        rw [hn, hbucket]
        exact hc
      · exact ⟨n, bucket, ((hfind n).trans (if_neg hn)).trans hbucket, hc⟩
    · exact ⟨c.source, _, (hfind c.source).trans (if_pos rfl),
        List.mem_append.mpr (.inr List.mem_cons_self)⟩

/-- Adding a chain keeps buckets sound. -/
theorem BucketsSound.addChain (h : BucketsSound g target buckets)
    (hchain : chain.target = target ∧ chain.IsChain g) :
    BucketsSound g target (addChain buckets chain) := by
  intro n bucket hbucket
  rw [OperatorLALR.addChain, OrderedMap.find?_insert] at hbucket
  split at hbucket
  · next hn =>
    subst hn
    obtain rfl := Option.some.inj hbucket
    refine ChainBucket.Sound.add ?_ ⟨rfl, hchain⟩
    cases hold : buckets.find? chain.source with
    | none => exact .inl rfl
    | some old => exact .inr (h _ old hold)
  · exact h n bucket hbucket

/-- A chain that is not superfluous adds a fact. -/
theorem grows_addChain (hg : g.WellFormed) (h : BucketsSound g target buckets)
    (hchain : chain.IsChain g) (hsource : chain.source.val < g.nonterminals.length)
    (hnot : ((buckets.find? chain.source).getD .empty).subsumes chain = false) :
    Grows ChainFact.Holds g.chainFacts buckets (addChain buckets chain) ∧
      addChain buckets chain ≠ buckets := by
  have hadded := absorbs_addChain buckets chain
  have hgain : ∃ u ∈ g.chainFacts, ChainFact.Holds (addChain buckets chain) u ∧
      ¬ ChainFact.Holds buckets u := by
    by_contra hnone
    have hall : ∀ u ∈ g.chainFacts, ChainFact.Holds (addChain buckets chain) u →
        ChainFact.Holds buckets u := by
      intro u hu hnew
      by_contra hold
      exact hnone ⟨u, hu, hnew, hold⟩
    -- Without a gain the chain would have been absorbed before.
    have habsorbed : Absorbs buckets chain := by
      refine ⟨hall _ (Grammar.mem_chainFacts.mpr hsource) hadded.known, fun t ht => ?_,
        fun hn => hall _ (Grammar.mem_chainFacts.mpr hsource) (hadded.nullable hn)⟩
      obtain ⟨tail, htail, hfirst, -⟩ := hchain
      have hlt : t.val < g.terminals.length :=
        Grammar.Begins.declared hg (htail.declares_tail hg) ((hfirst t).mp ht)
      exact hall _ (Grammar.mem_chainFacts.mpr ⟨hsource, hlt⟩) (hadded.first t ht)
    rw [subsumes_of_absorbs h habsorbed] at hnot
    cases hnot
  refine ⟨⟨fun u hu => holds_addChain_iff.mpr (.inl hu), fun _ => hgain⟩, ?_⟩
  intro heq
  obtain ⟨u, -, hnew, hold⟩ := hgain
  exact hold (heq ▸ hnew)

/-- The extensions of a chain that was kept are absorbed. -/
def Extended (g : Grammar) (buckets : ChainBuckets) (chain : RuleChain) : Prop :=
  ∀ r ∈ g.rulesLedBy chain.source,
    Absorbs buckets (g.extendChain g.nullableSet (g.firstSets g.nullableSet) chain r)

open Classical in
/-- The number of facts that hold of some buckets. -/
noncomputable def factCount (g : Grammar) (buckets : ChainBuckets) : Nat :=
  g.chainFacts.countP (ChainFact.Holds buckets ·)

/-- What is known after some extensions of a chain: they are absorbed, and as many facts have come
in as chains were kept. -/
structure ExtendedBy (g : Grammar) (target : NonterminalId) (chain : RuleChain) (rs : List RuleId)
    (buckets : ChainBuckets) (kept : List RuleChain) (buckets' : ChainBuckets) : Prop where
  sound : BucketsSound g target buckets'
  keeps : ∀ u, ChainFact.Holds buckets u → ChainFact.Holds buckets' u
  absorbs : ∀ r ∈ rs,
    Absorbs buckets' (g.extendChain g.nullableSet (g.firstSets g.nullableSet) chain r)
  kept_iff : ∀ c, Kept buckets' c ↔ Kept buckets c ∨ c ∈ kept
  count : factCount g buckets + kept.length ≤ factCount g buckets'

/-- A rule in front of the others by which the chain need not be extended. -/
theorem ExtendedBy.skip {longer : RuleChain} {r : RuleId} {rs : List RuleId}
    {kept : List RuleChain}
    (hlong : g.extendChain g.nullableSet (g.firstSets g.nullableSet) chain r = longer)
    (hsub : ((buckets.find? longer.source).getD .empty).subsumes longer = true)
    (h : ExtendedBy g target chain rs buckets kept buckets') :
    ExtendedBy g target chain (r :: rs) buckets kept buckets' := by
  refine ⟨h.sound, h.keeps, ?_, h.kept_iff, h.count⟩
  refine List.forall_mem_cons.mpr ⟨?_, h.absorbs⟩
  rw [hlong]
  exact (absorbs_of_subsumes hsub).mono h.keeps

/-- A rule in front of the others by which the chain becomes one that is kept. -/
theorem ExtendedBy.keep {longer : RuleChain} {r : RuleId} {rs : List RuleId}
    {kept : List RuleChain}
    (hlong : g.extendChain g.nullableSet (g.firstSets g.nullableSet) chain r = longer)
    (hgrows : Grows ChainFact.Holds g.chainFacts buckets (addChain buckets longer))
    (hne : addChain buckets longer ≠ buckets)
    (h : ExtendedBy g target chain rs (addChain buckets longer) kept buckets') :
    ExtendedBy g target chain (r :: rs) buckets (longer :: kept) buckets' := by
  refine ⟨h.sound, fun u hu => h.keeps u (hgrows.keeps u hu), ?_, ?_, ?_⟩
  · refine List.forall_mem_cons.mpr ⟨?_, h.absorbs⟩
    rw [hlong]
    exact (absorbs_addChain buckets longer).mono h.keeps
  · intro c
    rw [h.kept_iff, kept_addChain_iff, List.mem_cons, or_assoc]
  · have hcount := h.count
    have hlt : factCount g buckets < factCount g (addChain buckets longer) :=
      hgrows.countP_lt hne
    rw [List.length_cons]
    omega

/-- Extending a chain by some rules. -/
theorem extendBuckets_spec (hg : g.WellFormed) {rs : List RuleId} {kept : List RuleChain}
    (hchain : chain.target = target ∧ chain.IsChain g)
    (hrs : ∀ r ∈ rs, r ∈ g.rulesLedBy chain.source)
    (h : BucketsSound g target buckets)
    (hextend : g.extendBuckets g.nullableSet (g.firstSets g.nullableSet) chain rs buckets =
      some (kept, buckets')) : ExtendedBy g target chain rs buckets kept buckets' := by
  induction rs generalizing buckets kept with
  | nil =>
    obtain ⟨rfl, rfl⟩ := Prod.mk.inj (Option.some.inj hextend)
    exact ⟨h, fun _ hu => hu, nofun, by simp, Nat.le_refl _⟩
  | cons r rs ih =>
    obtain ⟨hr, hrest⟩ := List.forall_mem_cons.mp hrs
    have hlonger := Grammar.isChain_extendChain hg hchain.2 hr
    have hsource : (g.extendChain g.nullableSet (g.firstSets g.nullableSet) chain r).source.val <
        g.nonterminals.length := by
      obtain ⟨rule, rest, hrule, hbody⟩ := Grammar.mem_rulesLedBy.mp hr
      rw [(Grammar.extendChain_spec hg hrule hbody).1]
      exact hg.left_lt (Grammar.mem_rules.mpr ⟨r, hrule⟩)
    rw [Grammar.extendBuckets] at hextend
    generalize hlong : g.extendChain g.nullableSet (g.firstSets g.nullableSet) chain r = longer
      at hextend hlonger hsource
    have htarget : longer.target = target := by
      rw [← hlong]
      exact hchain.1
    split at hextend
    · cases hextend
    · dsimp only at hextend
      split at hextend
      · next hsub => exact (ih hrest h hextend).skip hlong hsub
      · next hsub =>
        obtain ⟨⟨kept', buckets''⟩, hmap, heq⟩ := Option.map_eq_some_iff.mp hextend
        obtain ⟨rfl, rfl⟩ := Prod.mk.inj heq
        have hsound : BucketsSound g target (addChain buckets longer) :=
          h.addChain ⟨htarget, hlonger⟩
        obtain ⟨hgrows, hne⟩ := grows_addChain hg h hlonger hsource (by simpa using hsub)
        exact (ih hrest hsound hmap).keep hlong hgrows hne

/-- What the search for chains to one nonterminal comes to, however many chains it extends: the
buckets, or none if it meets a chain from a nonterminal to itself with nothing behind it. -/
inductive SearchesChains (g : Grammar) :
    List RuleChain → ChainBuckets → Option ChainBuckets → Prop
  | done (buckets : ChainBuckets) : SearchesChains g [] buckets (some buckets)
  | cyclic {chain : RuleChain} {waiting : List RuleChain} {buckets : ChainBuckets}
      (h : g.extendBuckets g.nullableSet (g.firstSets g.nullableSet) chain
        (g.rulesLedBy chain.source) buckets = none) :
      SearchesChains g (chain :: waiting) buckets none
  | extend {chain : RuleChain} {waiting kept : List RuleChain} {buckets buckets' : ChainBuckets}
      {result : Option ChainBuckets}
      (h : g.extendBuckets g.nullableSet (g.firstSets g.nullableSet) chain
        (g.rulesLedBy chain.source) buckets = some (kept, buckets'))
      (hrest : SearchesChains g (waiting ++ kept) buckets' result) :
      SearchesChains g (chain :: waiting) buckets result

/-- Chains that were kept either wait or have all their extensions absorbed. -/
structure Searching (g : Grammar) (target : NonterminalId) (waiting : List RuleChain)
    (buckets : ChainBuckets) : Prop where
  sound : BucketsSound g target buckets
  isKept : ∀ c ∈ waiting, Kept buckets c
  isExtended : ∀ c, Kept buckets c → c ∈ waiting ∨ Extended g buckets c

namespace Searching

variable {waiting kept : List RuleChain}

/-- A chain that waits is one to the nonterminal. -/
theorem isChain (h : Searching g target (chain :: waiting) buckets) :
    chain.target = target ∧ chain.IsChain g := by
  obtain ⟨n, bucket, hbucket, hc⟩ := h.isKept chain List.mem_cons_self
  exact ((h.sound n bucket hbucket).chains chain hc).2

/-- A chain that waits is extended by all rules that are led by its source. -/
theorem extendedBy (hg : g.WellFormed) (h : Searching g target (chain :: waiting) buckets)
    (hextend : g.extendBuckets g.nullableSet (g.firstSets g.nullableSet) chain
      (g.rulesLedBy chain.source) buckets = some (kept, buckets')) :
    ExtendedBy g target chain (g.rulesLedBy chain.source) buckets kept buckets' :=
  extendBuckets_spec hg h.isChain (fun _ hr => hr) h.sound hextend

/-- A waiting chain gives way to the chains that were kept when it was extended. -/
theorem next (h : Searching g target (chain :: waiting) buckets)
    (hextended : ExtendedBy g target chain (g.rulesLedBy chain.source) buckets kept buckets') :
    Searching g target (waiting ++ kept) buckets' := by
  refine ⟨hextended.sound, ?_, ?_⟩
  · intro c hc
    rw [hextended.kept_iff]
    rcases List.mem_append.mp hc with hc | hc
    · exact .inl (h.isKept c (List.mem_cons_of_mem chain hc))
    · exact .inr hc
  · intro c hc
    rcases (hextended.kept_iff c).mp hc with hc | hc
    · rcases h.isExtended c hc with hc | hc
      · rcases List.mem_cons.mp hc with rfl | hc
        · exact .inr hextended.absorbs
        · exact .inl (List.mem_append.mpr (.inl hc))
      · exact .inr fun r hr => (hc r hr).mono hextended.keeps
    · exact .inl (List.mem_append.mpr (.inr hc))

/-- A search with as much fuel as there are chains waiting and facts missing comes to an end. -/
theorem searchesChains (hg : g.WellFormed) {n : Nat} (h : Searching g target waiting buckets)
    (hfuel : waiting.length + g.chainFacts.length ≤ n + factCount g buckets) :
    SearchesChains g waiting buckets
      (g.searchChains g.nullableSet (g.firstSets g.nullableSet) n waiting buckets) := by
  classical
  induction n generalizing waiting buckets with
  | zero =>
    have hle : factCount g buckets ≤ g.chainFacts.length := List.countP_le_length
    have hnil : waiting = [] := List.length_eq_zero_iff.mp (by omega)
    subst hnil
    exact .done buckets
  | succ n ih =>
    cases waiting with
    | nil => exact .done buckets
    | cons chain waiting =>
      rw [Grammar.searchChains]
      split
      · next hextend => exact .cyclic hextend
      · next kept buckets' hextend =>
        have hextended := h.extendedBy hg hextend
        have hcount := hextended.count
        refine .extend hextend (ih (h.next hextended) ?_)
        rw [List.length_cons] at hfuel
        rw [List.length_append]
        omega

/-- A search that ends has extended all chains that it kept. -/
theorem closed (hg : g.WellFormed) (h : Searching g target waiting buckets)
    (hsearch : SearchesChains g waiting buckets (some buckets')) :
    BucketsSound g target buckets' ∧ (∀ c, Kept buckets c → Kept buckets' c) ∧
      ∀ c, Kept buckets' c → Extended g buckets' c := by
  generalize hresult : some buckets' = result at hsearch
  induction hsearch with
  | done buckets =>
    obtain rfl := Option.some.inj hresult
    exact ⟨h.sound, fun _ hc => hc, fun c hc => (h.isExtended c hc).resolve_left List.not_mem_nil⟩
  | cyclic => cases hresult
  | extend hextend _ ih =>
    have hextended := h.extendedBy hg hextend
    obtain ⟨hsound, hkept, hall⟩ := ih (h.next hextended) hresult
    exact ⟨hsound, fun c hc => hkept c ((hextended.kept_iff c).mpr (.inl hc)), hall⟩

end Searching

/-- What the bucket of the nonterminal of a rule knows of a chain that was extended by the rule. -/
theorem Extended.exists_bucket (hg : g.WellFormed) (h : Extended g buckets chain) {r : RuleId}
    {rule : Rule} {rest : List Symbol} (hrule : g.rule? r = some rule)
    (hbody : rule.body = .nonterminal chain.source :: rest) :
    ∃ bucket, buckets.find? rule.left = some bucket ∧
      (∀ t, t ∈ chain.first ∨ chain.nullable = true ∧ g.Begins rest t → t ∈ bucket.first) ∧
      (chain.nullable = true ∧ g.Vanishes rest → bucket.nullable = true) := by
  obtain ⟨hsource, -, hfirst, hnullable⟩ := Grammar.extendChain_spec hg hrule hbody
  have habsorbs := h r (Grammar.mem_rulesLedBy.mpr ⟨rule, rest, hrule, hbody⟩)
  obtain ⟨bucket, hbucket, hfirst', hnullable'⟩ := habsorbs.exists_bucket
  exact ⟨bucket, hsource ▸ hbucket, fun t ht => hfirst' t ((hfirst t).mpr ht),
    fun hn => hnullable' (hnullable.mpr hn)⟩

/-- What chains from a nonterminal have in common is known of its bucket. -/
theorem chain_absorbed (hg : g.WellFormed) {source : NonterminalId} {tail : List Symbol}
    (hsound : BucketsSound g target buckets) (hempty : Kept buckets (.empty target))
    (hextended : ∀ c, Kept buckets c → Extended g buckets c) (h : Chain g source target tail) :
    ∃ bucket, buckets.find? source = some bucket ∧ (∀ t, g.Begins tail t → t ∈ bucket.first) ∧
      (g.Vanishes tail → bucket.nullable = true) := by
  induction h with
  | nil =>
    obtain ⟨n, bucket, hbucket, hc⟩ := hempty
    have hs := hsound n bucket hbucket
    obtain rfl : _ = n := (hs.chains _ hc).1
    exact ⟨bucket, hbucket, fun t ht => absurd ht Grammar.not_begins_nil,
      fun _ => hs.nullable.mpr ⟨_, hc, rfl⟩⟩
  | @cons r rule n _ tail rest hrule hbody _ ih =>
    obtain ⟨inner, hinner, hfirst, hnullable⟩ := ih hsound hempty
    have hs := hsound n inner hinner
    obtain ⟨c₀, hc₀⟩ := List.exists_mem_of_ne_nil _ hs.nonempty
    obtain ⟨bucket, hfound, -⟩ :=
      (hextended c₀ ⟨n, inner, hinner, hc₀⟩).exists_bucket hg hrule ((hs.chains c₀ hc₀).1 ▸ hbody)
    -- Every chain kept for `n` has its extension by the rule absorbed.
    have hknows : ∀ c ∈ inner.chains,
        (∀ t, t ∈ c.first ∨ c.nullable = true ∧ g.Begins rest t → t ∈ bucket.first) ∧
        (c.nullable = true ∧ g.Vanishes rest → bucket.nullable = true) := by
      intro c hc
      obtain ⟨bucket', hfound', hknown⟩ :=
        (hextended c ⟨n, inner, hinner, hc⟩).exists_bucket hg hrule ((hs.chains c hc).1 ▸ hbody)
      obtain rfl := Option.some.inj (hfound.symm.trans hfound')
      exact hknown
    refine ⟨bucket, hfound, ?_, ?_⟩
    · intro t ht
      rcases Grammar.begins_append.mp ht with ht | ⟨hv, ht⟩
      · obtain ⟨c, hc, htc⟩ := (hs.first t).mp (hfirst t ht)
        exact (hknows c hc).1 t (.inl htc)
      · obtain ⟨c, hc, hn⟩ := hs.nullable.mp (hnullable hv)
        exact (hknows c hc).1 t (.inr ⟨hn, ht⟩)
    · intro hv
      obtain ⟨htail, hrest⟩ := Grammar.vanishes_append.mp hv
      obtain ⟨c, hc, hn⟩ := hs.nullable.mp (hnullable htail)
      exact (hknows c hc).2 ⟨hn, hrest⟩

/-- The buckets before a search, with the empty chain only. -/
theorem kept_start {target : NonterminalId} {c : RuleChain} :
    Kept (addChain ∅ (.empty target)) c ↔ c = .empty target := by
  rw [kept_addChain_iff, or_iff_right]
  rintro ⟨n, bucket, hbucket, -⟩
  cases hbucket

/-- The first chain is kept before the search, and none of its extensions has been tried. -/
theorem searching_start (g : Grammar) (target : NonterminalId) :
    Searching g target [.empty target] (addChain ∅ (.empty target)) where
  sound := BucketsSound.addChain (fun _ _ h => by cases h) ⟨rfl, Grammar.isChain_empty target⟩
  isKept _ hc := kept_start.mpr (List.mem_singleton.mp hc)
  isExtended _ hc := .inl (List.mem_singleton.mpr (kept_start.mp hc))

/-- The search for chains to a nonterminal comes to an end, with its buckets or with the nonterminal
blamed. -/
theorem searchesChains_chainsTo (hg : g.WellFormed) (target : NonterminalId) :
    (∃ buckets, g.chainsTo g.nullableSet (g.firstSets g.nullableSet) target = .ok buckets ∧
        SearchesChains g [.empty target] (addChain ∅ (.empty target)) (some buckets)) ∨
      g.chainsTo g.nullableSet (g.firstSets g.nullableSet) target =
          .error ⟨target, g.nonterminalName target⟩ ∧
        SearchesChains g [.empty target] (addChain ∅ (.empty target)) none := by
  have hfuel : 1 + g.chainFacts.length ≤
      g.chainLimit + factCount g (addChain ∅ (.empty target)) := by
    rw [g.length_chainFacts, Grammar.chainLimit]
    omega
  have hsearch := (searching_start g target).searchesChains hg hfuel
  have hstart : OrderedMap.insert ∅ target (ChainBucket.empty.add (.empty target)) =
      addChain ∅ (.empty target) := rfl
  rw [Grammar.chainsTo, hstart]
  generalize g.searchChains g.nullableSet (g.firstSets g.nullableSet) g.chainLimit
    [.empty target] (addChain ∅ (.empty target)) = result at hsearch ⊢
  cases result with
  | none => exact .inr ⟨rfl, hsearch⟩
  | some buckets => exact .inl ⟨buckets, rfl, hsearch⟩

/-- The search that gives the buckets of a nonterminal. -/
theorem searchesChains_of_ok (hg : g.WellFormed)
    (h : g.chainsTo g.nullableSet (g.firstSets g.nullableSet) target = .ok buckets) :
    SearchesChains g [.empty target] (addChain ∅ (.empty target)) (some buckets) := by
  rcases searchesChains_chainsTo hg target with ⟨buckets', hok, hsearch⟩ | ⟨herror, -⟩
  · rw [h] at hok
    rwa [Except.ok.inj hok]
  · rw [h] at herror
    cases herror

/-- What the buckets of a nonterminal know is what the chains to it have in common. -/
structure BucketsExact (g : Grammar) (target : NonterminalId) (buckets : ChainBuckets) : Prop where
  sound : BucketsSound g target buckets
  complete : ∀ source tail, Chain g source target tail →
    ∃ bucket, buckets.find? source = some bucket ∧ (∀ t, g.Begins tail t → t ∈ bucket.first) ∧
      (g.Vanishes tail → bucket.nullable = true)

/-- The search for chains to a nonterminal, if it succeeds, is exact. -/
theorem chainsTo_exact (hg : g.WellFormed)
    (h : g.chainsTo g.nullableSet (g.firstSets g.nullableSet) target = .ok buckets) :
    BucketsExact g target buckets := by
  obtain ⟨hsound, hkept, hextended⟩ :=
    (searching_start g target).closed hg (searchesChains_of_ok hg h)
  exact ⟨hsound, fun source tail hchain =>
    chain_absorbed hg hsound (hkept _ (kept_start.mpr rfl)) hextended hchain⟩

namespace Analysis

variable {a : Analysis} {source : NonterminalId} {bucket : ChainBucket}

/-- The buckets of an analysis are exact. -/
theorem buckets_exact (hg : g.WellFormed) (ha : g.analyse = .ok a) {buckets : ChainBuckets}
    (h : a.buckets[target.val]? = some buckets) : BucketsExact g target buckets := by
  obtain ⟨-, -, hall⟩ := eq_of_analyse ha
  obtain ⟨n, hn, hbuckets⟩ := exists_getElem?_left hall h
  obtain ⟨hlt, -⟩ := List.getElem?_eq_some_iff.mp hn
  rw [Grammar.nonterminalIds, Index.length_below] at hlt
  rw [Grammar.nonterminalIds, Index.getElem?_below hlt] at hn
  obtain rfl : target = n := Option.some.inj hn
  exact chainsTo_exact hg hbuckets

/-- Every nonterminal has buckets. -/
theorem exists_buckets (ha : g.analyse = .ok a) (htarget : target.val < g.nonterminals.length) :
    ∃ buckets, a.buckets[target.val]? = some buckets := by
  obtain ⟨-, -, hall⟩ := eq_of_analyse ha
  obtain ⟨buckets, hbuckets, -⟩ := exists_getElem?_right hall (Index.getElem?_below htarget)
  exact ⟨buckets, hbuckets⟩

/-- The buckets in which the chains between two nonterminals are looked up. -/
theorem chains?_eq_some_iff :
    a.chains? source target = some bucket ↔
      ∃ buckets : ChainBuckets, a.buckets[target.val]? = some buckets ∧
        buckets.find? source = some bucket := by
  rw [chains?, Option.bind_eq_some_iff]

/-- What is known of the chains between two nonterminals. -/
theorem sound_of_chains? (hg : g.WellFormed) (ha : g.analyse = .ok a)
    (h : a.chains? source target = some bucket) : bucket.Sound g source target := by
  obtain ⟨buckets, hbuckets, hbucket⟩ := chains?_eq_some_iff.mp h
  exact (buckets_exact hg ha hbuckets).sound source bucket hbucket

/-- Every chain is behind what is known of the chains between its ends. -/
theorem exists_chains (hg : g.WellFormed) (ha : g.analyse = .ok a)
    (hsource : source.val < g.nonterminals.length) (h : Chain g source target xs) :
    ∃ bucket, a.chains? source target = some bucket ∧
      (∀ t, g.Begins xs t → t ∈ bucket.first) ∧ (g.Vanishes xs → bucket.nullable = true) := by
  obtain ⟨buckets, hbuckets⟩ := exists_buckets ha (h.target_lt hg hsource)
  obtain ⟨bucket, hbucket, hspec⟩ := (buckets_exact hg ha hbuckets).complete source xs h
  exact ⟨bucket, chains?_eq_some_iff.mpr ⟨buckets, hbuckets, hbucket⟩, hspec⟩

/-- Between nonterminals with known chains there is a chain. -/
theorem exists_chain (hg : g.WellFormed) (ha : g.analyse = .ok a)
    (h : a.chains? source target = some bucket) : ∃ tail, Chain g source target tail := by
  have hs := sound_of_chains? hg ha h
  obtain ⟨c, hc⟩ := List.exists_mem_of_ne_nil _ hs.nonempty
  obtain ⟨rfl, rfl, tail, htail, -, -⟩ := hs.chains c hc
  exact ⟨tail, htail⟩

/-- The terminals known of chains begin the tail of one of them. -/
theorem exists_chain_of_mem_first (hg : g.WellFormed) (ha : g.analyse = .ok a)
    (h : a.chains? source target = some bucket) (ht : t ∈ bucket.first) :
    ∃ tail, Chain g source target tail ∧ g.Begins tail t := by
  have hs := sound_of_chains? hg ha h
  obtain ⟨c, hc, htc⟩ := (hs.first t).mp ht
  obtain ⟨rfl, rfl, tail, htail, hfirst, -⟩ := hs.chains c hc
  exact ⟨tail, htail, (hfirst t).mp htc⟩

/-- If chains are known to be nullable, the tail of one of them vanishes. -/
theorem exists_chain_of_nullable (hg : g.WellFormed) (ha : g.analyse = .ok a)
    (h : a.chains? source target = some bucket) (hn : bucket.nullable = true) :
    ∃ tail, Chain g source target tail ∧ g.Vanishes tail := by
  have hs := sound_of_chains? hg ha h
  obtain ⟨c, hc, hnc⟩ := hs.nullable.mp hn
  obtain ⟨rfl, rfl, tail, htail, -, hnullable⟩ := hs.chains c hc
  exact ⟨tail, htail, hnullable.mp hnc⟩

/-- The known chains from a nonterminal. -/
theorem mem_chainsFrom :
    (target, bucket) ∈ a.chainsFrom source ↔ a.chains? source target = some bucket := by
  rw [chainsFrom, List.mem_filterMap]
  constructor
  · rintro ⟨n, -, hn⟩
    obtain ⟨bucket', hbucket', heq⟩ := Option.map_eq_some_iff.mp hn
    obtain ⟨rfl, rfl⟩ := Prod.mk.inj heq
    exact hbucket'
  · intro h
    obtain ⟨buckets, hbuckets, -⟩ := chains?_eq_some_iff.mp h
    refine ⟨target, Index.mem_below.mpr (List.getElem?_eq_some_iff.mp hbuckets).1, ?_⟩
    rw [h, Option.map_some]

/-- The nonterminals that lead the closure of a nonterminal are those to which chains lead. -/
theorem mem_leadingSymbols (hg : g.WellFormed) (ha : g.analyse = .ok a)
    (hsource : source.val < g.nonterminals.length) :
    target ∈ a.leadingSymbols source ↔ ∃ tail, Chain g source target tail := by
  rw [leadingSymbols, List.mem_map]
  constructor
  · rintro ⟨⟨n, bucket⟩, hmem, rfl⟩
    exact exists_chain hg ha (mem_chainsFrom.mp hmem)
  · rintro ⟨tail, htail⟩
    obtain ⟨bucket, hbucket, -⟩ := exists_chains hg ha hsource htail
    exact ⟨(target, bucket), mem_chainsFrom.mpr hbucket, rfl⟩

end Analysis

end OperatorLALR
