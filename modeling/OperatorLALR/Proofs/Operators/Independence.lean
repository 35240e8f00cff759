import OperatorLALR.Build
import OperatorLALR.Parser.Run

/-!
# What does not depend on the operators

No stage of the construction of a table asks which operators there are: with other operators a
grammar has the same analysis, automaton and conflicts, and the table differs in its operators only
(`build_withOperators`). A parser consults the operators that it has itself, so that those of its
table make no difference once it has been set up (`parse_withTableOperators`).
-/

namespace OperatorLALR

variable {τ ν β ε σ : Type}

/-- The grammar with other operators. -/
def Grammar.withOperators (g : Grammar) (operators : OperatorTable) : Grammar :=
  { g with operators := operators }

/-- The table with other operators. -/
def GeneratedTable.withOperators (table : GeneratedTable) (operators : OperatorTable) :
    GeneratedTable :=
  { table with operators := operators }

namespace Grammar

variable (g : Grammar) (operators : OperatorTable)

/-- Chains are extended in the same way with other operators. -/
theorem extendBuckets_withOperators (nullable : NonterminalSet) (firsts : List TerminalSet)
    (chain : RuleChain) (rules : List RuleId) (buckets : ChainBuckets) :
    (g.withOperators operators).extendBuckets nullable firsts chain rules buckets =
      g.extendBuckets nullable firsts chain rules buckets := by
  induction rules generalizing buckets with
  | nil => rfl
  | cons r rules ih =>
    simp only [extendBuckets, ih]
    rfl

/-- The same chains are found with other operators. -/
theorem searchChains_withOperators (nullable : NonterminalSet) (firsts : List TerminalSet)
    (n : Nat) (waiting : List RuleChain) (buckets : ChainBuckets) :
    (g.withOperators operators).searchChains nullable firsts n waiting buckets =
      g.searchChains nullable firsts n waiting buckets := by
  induction n generalizing waiting buckets with
  | zero => rfl
  | succ n ih =>
    cases waiting with
    | nil => rfl
    | cons chain waiting =>
      simp only [searchChains, extendBuckets_withOperators, ih]
      rfl

/-- The analysis is the same with other operators. -/
theorem analyse_withOperators : (g.withOperators operators).analyse = g.analyse := by
  have hchains : ∀ nullable firsts target,
      (g.withOperators operators).chainsTo nullable firsts target =
        g.chainsTo nullable firsts target := by
    intro nullable firsts target
    rw [chainsTo, chainsTo, searchChains_withOperators]
    rfl
  rw [analyse, analyse, funext (hchains _ _)]
  rfl

/-- The table that is generated differs in its operators only. -/
theorem generate_withOperators (m : Automaton) (l : LookaheadSets) (options : BuildOptions) :
    m.generate (g.withOperators operators) l options =
      (m.generate g l options).map fun table => table.withOperators operators := by
  have hsettle : (g.withOperators operators).settleState options l = g.settleState options l := rfl
  rw [Automaton.generate, Automaton.generate, hsettle]
  split
  · rfl
  · next settled _ =>
    have hsame : GeneratedTable.ofSettled (g.withOperators operators) settled =
        (GeneratedTable.ofSettled g settled).withOperators operators := rfl
    dsimp only
    rw [hsame]
    change (if candidatesNumbers < (GeneratedTable.ofSettled g settled).candidates.length then _
      else _) = _
    split <;> rfl

/-- A table that is built is made of settled states. -/
theorem exists_ofSettled {g : Grammar} {options : BuildOptions} {table : GeneratedTable}
    (h : (g.build options).2 = .ok table) : ∃ settled, table = .ofSettled g settled := by
  unfold build at h
  split at h
  · cases h
  · next a _ =>
    dsimp only at h
    split at h
    · cases h
    · next generated hgenerate =>
      split at h
      · cases h
      · obtain rfl := Except.ok.inj h
        unfold Automaton.generate at hgenerate
        split at hgenerate
        · cases hgenerate
        · next settled _ =>
          dsimp only at hgenerate
          split at hgenerate
          · cases hgenerate
          · exact ⟨settled, (Except.ok.inj hgenerate).symm⟩

/-- The construction of the table is the same with other operators: the diagnostics agree, and it
fails in the same way or gives a table that differs in its operators only. -/
theorem build_withOperators (options : BuildOptions) :
    (g.withOperators operators).build options = ((g.build options).1,
      (g.build options).2.map fun table => table.withOperators operators) := by
  rw [build, build, analyse_withOperators]
  cases g.analyse with
  | error e => rfl
  | ok a =>
    have hstages : ((g.withOperators operators).automaton a).generate (g.withOperators operators)
        (((g.withOperators operators).automaton a).lookaheadSets (g.withOperators operators) a)
          options =
        (((g.automaton a).generate g ((g.automaton a).lookaheadSets g a) options).map
          fun table => table.withOperators operators) :=
      generate_withOperators g operators (g.automaton a) ((g.automaton a).lookaheadSets g a) options
    dsimp only
    rw [hstages]
    cases (g.automaton a).generate g ((g.automaton a).lookaheadSets g a) options with
    | error e => rfl
    | ok table =>
      have hexcess : conflictExcess? options
          (reportedConflicts (table.withOperators operators)).length =
            conflictExcess? options (reportedConflicts table).length := rfl
      dsimp only [Except.map]
      rw [hexcess]
      cases conflictExcess? options (reportedConflicts table).length <;> rfl

end Grammar

namespace Parser

variable [Token τ] (p : Parser τ ν β σ) (operators : OperatorTable)

/-- The parser with other operators in its table, and the same at hand. -/
def withTableOperators (p : Parser τ ν β σ) (operators : OperatorTable) : Parser τ ν β σ :=
  { p with table := { p.table with operators := operators } }

/-- A step does not consult the operators of the table. -/
theorem step_withTableOperators (m : Machine τ ν ε σ) :
    (p.withTableOperators operators).step m = p.step m := rfl

/-- A parse does not consult the operators of the table. -/
theorem parse_withTableOperators (n : Nat) (source : List (Except ε τ)) (memory : σ) :
    (p.withTableOperators operators).parse n source memory = p.parse n source memory := by
  have hrun : ∀ (n : Nat) (m : Machine τ ν ε σ),
      (p.withTableOperators operators).run n m = p.run n m := by
    intro n
    induction n with
    | zero => exact fun m => rfl
    | succ n ih =>
      intro m
      rw [run, run, step_withTableOperators]
      cases p.step m with
      | next m' => exact ih m'
      | halt result m' => rfl
  exact hrun n _

end Parser

end OperatorLALR
