import Mathlib.Data.Prod.Lex
import OperatorLALR.Proofs.Completeness.Outcomes
import OperatorLALR.Proofs.Search.Termination
import OperatorLALR.Proofs.Termination.Reductions

/-!
# Parses that end, and parses that do not

A token that is shifted is one less to be read, a reduction takes load from the stack, and at most
two decisions are made in between. So all runs of the nondeterministic parser end where no
nonterminal hides itself, and all parses do (`parse_ends`), however conflicts have been settled. A
grammar with a nonterminal that hides itself may pass the analysis nonetheless, and then a parser
may reduce an empty rule for ever (`Parser.run_eq_none_of_loop`, `hiddenRecursion_never_ends`).
-/

namespace OperatorLALR

variable {τ ν β ε σ : Type}

/-- The number of decisions that a branch has to make before it can act. -/
def Branch.due (b : Branch τ) : Nat :=
  match b.lookahead, b.forced with
  | none, _ => 2
  | some _, none => 1
  | some _, some _ => 0

/-- What bounds the number of steps that a branch can still take: the tokens to be read, and until
the next is read the load of the stack, with the decisions that are due. -/
noncomputable def Branch.toil (g : Grammar) (tokens : List τ) (b : Branch τ) : Nat ×ₗ Nat :=
  toLex (tokens.length - b.position, 2 * load g b.stack + b.due)

variable [Token τ] {g : Grammar} {a : Analysis} {tokens : List τ}

namespace Branch

variable {p : Parser τ (ParseTree τ) β σ} {b b' : Branch τ} {lookahead : Lookahead τ}

/-- A branch for which some actions are left open has not decided on one. -/
theorem Sound.forced_eq_none (h : Sound g a p tokens b) {as : List Action}
    (hopen : p.openActions b.stack lookahead (b.action p lookahead) = some as) :
    b.forced = none := by
  cases hforced : b.forced with
  | none => rfl
  | some action =>
    obtain ⟨_, -, hpermits⟩ := h.forced action hforced
    rw [Branch.action, hforced, Option.getD_some] at hopen
    cases action with
    | dynamic | choice => exact absurd hpermits id
    | _ => cases hopen

omit [Token τ] in
/-- Once the lookahead is known, at most one decision is due. -/
theorem due_le_one (hl : b.lookahead = some lookahead) : b.due ≤ 1 := by
  rw [due, hl]
  cases b.forced with
  | none => exact Nat.le_refl 1
  | some action => exact Nat.zero_le 1

omit [Token τ] in
/-- A branch that reads a token takes toil. -/
theorem toil_lt_of_position (hlt : b.position < tokens.length)
    (hposition : b'.position = b.position + 1) : b'.toil g tokens < b.toil g tokens := by
  refine Prod.Lex.toLex_lt_toLex.mpr (.inl ?_)
  dsimp only
  omega

omit [Token τ] in
/-- A branch that stays where it is takes toil with the load and the decisions due. -/
theorem toil_lt_of_load (hposition : b'.position = b.position)
    (hlt : 2 * load g b'.stack + b'.due < 2 * load g b.stack + b.due) :
    b'.toil g tokens < b.toil g tokens := by
  refine Prod.Lex.toLex_lt_toLex.mpr (.inr ⟨?_, hlt⟩)
  dsimp only
  rw [hposition]

/-- A permitted reduction takes load from the stack, where no nonterminal hides itself. -/
theorem Sound.load_lt_of_reduce (h : Sound g a p tokens b) (hg : g.Built a) (hp : Serves g a p)
    (hself : ∀ n, ¬ g.Hides n n) {r : RuleId} (hr : r ≠ acceptRule)
    (hitem : (g.automaton a).Has (p.stateOn b.stack) ⟨r, (g.body r).length⟩)
    (hreduce : b.reduce? p r = some b') : load g b'.stack < load g b.stack := by
  obtain ⟨symbols, hpath⟩ := h.path
  obtain ⟨symbols', hpath'⟩ := (h.reduce hg hp hitem hreduce).path
  obtain ⟨shape, priority, next, hshape, -, -, -, rfl⟩ := reduce?_eq_some_iff.mp hreduce
  obtain ⟨rule, hrule, -, hlength⟩ := hp.table.rule r shape hshape
  rw [hlength, ← Grammar.body_eq hrule] at hpath' ⊢
  exact hpath.load_lt hg hp.table.initial hself hr hitem rfl hpath'

/-- Every step takes some toil, where no nonterminal hides itself. -/
theorem Sound.toil_lt (h : Sound g a p tokens b) (hg : g.Built a) (hp : Serves g a p)
    (hself : ∀ n, ¬ g.Hides n n) : ∀ b' ∈ b.next p tokens, b'.toil g tokens < b.toil g tokens := by
  intro b' hb'
  have hdecide : ∀ lookahead, b.lookahead = none →
      toil g tokens { b with lookahead := some lookahead } < b.toil g tokens := by
    intro lookahead hl
    have hdue : b.due = 2 := by rw [due, hl]
    have hdue' : due { b with lookahead := some lookahead } ≤ 1 := due_le_one rfl
    refine toil_lt_of_load rfl ?_
    dsimp only
    omega
  cases step_of_mem_next hb' with
  | ended hl => exact hdecide _ hl
  | read hl => exact hdecide _ hl
  | @shift view next hl haction =>
    exact toil_lt_of_position (List.getElem?_eq_some_iff.mp (h.token view hl).1).1 rfl
  | @reduce lookahead r _ hl haction hreduce =>
    have hpermits := h.permits_of_eq hp hl haction fun _ => ⟨nofun, nofun⟩
    have hlt := h.load_lt_of_reduce hg hp hself hpermits.1 hpermits.2 hreduce
    obtain ⟨_, _, _, -, -, -, -, heq⟩ := reduce?_eq_some_iff.mp hreduce
    have hposition : b'.position = b.position := by rw [heq]
    have hl' : b'.lookahead = some lookahead := by rw [heq, ← hl]
    have hdue : b'.due ≤ 1 := due_le_one hl'
    exact toil_lt_of_load hposition (by omega)
  | @force lookahead _ action hl hopen =>
    have hdue : b.due = 1 := by rw [due, hl, h.forced_eq_none hopen]
    have hdue' : due { b with forced := some action } = 0 := by rw [due, hl]
    refine toil_lt_of_load rfl ?_
    dsimp only
    omega

/-- All runs over the table of a grammar end, where no nonterminal hides itself. -/
theorem ends_of_not_hides (hg : g.Built a) (hp : Serves g a p) (hself : ∀ n, ¬ g.Hides n n)
    (tokens : List τ) : Search.Ends (Branch.next p tokens) .start :=
  Search.ends_of_measure (P := Sound g a p tokens) (toil g tokens) (fun _ h => h.next hg hp)
    (fun _ h => h.toil_lt hg hp hself) (.start g a p tokens)

end Branch

/-- Every parse over the table of a grammar ends in which no nonterminal derives itself behind
symbols that vanish: whatever the policies, the operators defined, the limit on choice points, the
maker of nodes and the tokens are. -/
theorem parse_ends {options : BuildOptions} {table : GeneratedTable} (hg : g.IsDefined)
    (ha : g.analyse = .ok a) (hstates : (g.kernels a).items.size < stateNumbers)
    (hself : ∀ n, ¬ g.Hides n n) (hbuild : (g.build options).2 = .ok table)
    (calls : List OperatorCall) (limit : Option Nat) (maker : NodeMaker τ ν β σ) (tokens : List τ)
    (memory : σ) :
    ∃ n, ∃ result : Except (ParseError ε β) ν, ∃ last : Machine τ ν ε σ,
      ((Parser.ofTable table.toParseTable maker limit).defineAll calls).parse n (tokens.map .ok)
        memory = some (result, last) := by
  have h : g.Built a := ⟨hg.wellFormed, ha, hstates⟩
  exact Parser.exists_parse
    (Branch.ends_of_not_hides h (serves_defineAll h hbuild calls limit) hself tokens) memory

/-- The grammar `S := M N; M := %empty | a M; N := b | M c` (as rules 1 to 5). -/
def doublePrefix : Grammar where
  terminals := [.endOfInput, ⟨"a", none, .plain⟩, ⟨"b", none, .plain⟩, ⟨"c", none, .plain⟩]
  nonterminals := [augmentedStartName, "S", "M", "N"]
  rules := [⟨augmentedStart, [.nonterminal ⟨1⟩], none⟩,
    ⟨⟨1⟩, [.nonterminal ⟨2⟩, .nonterminal ⟨3⟩], none⟩, ⟨⟨2⟩, [], none⟩,
    ⟨⟨2⟩, [.terminal ⟨1⟩, .nonterminal ⟨2⟩], none⟩, ⟨⟨3⟩, [.terminal ⟨2⟩], none⟩,
    ⟨⟨3⟩, [.nonterminal ⟨2⟩, .terminal ⟨3⟩], none⟩]
  start := ⟨1⟩
  operators := ∅
  operatorTerminals := ∅

/-- The analysis of the grammar. -/
def doublePrefixAnalysis : Analysis := doublePrefix.analyse.toOption.getD ⟨∅, [], []⟩

/-- The table of the grammar, in which two conflicts of shifts with empty rules are settled. -/
def doublePrefixTable : GeneratedTable :=
  (doublePrefix.build .default).2.toOption.getD ⟨#[], [], [], [], ∅, ∅, []⟩

/-- The nonterminal `S` hides `N` behind `M`, which vanishes, but no nonterminal hides itself, and a
parse of `a` and `c` ends. -/
theorem parse_ends_doublePrefix :
    doublePrefix.Hides ⟨1⟩ ⟨3⟩ ∧ (∀ n, ¬ doublePrefix.Hides n n) ∧
      ∃ n, ∃ result : Except (ParseError Empty Empty) (ParseTree TerminalId),
        ∃ last : Machine TerminalId (ParseTree TerminalId) Empty Unit,
          (Parser.ofTable doublePrefixTable.toParseTable treeMaker none).parse n
            ([⟨1⟩, ⟨3⟩].map .ok) () = some (result, last) := by
  have hdefined : doublePrefix.IsDefined :=
    ⟨[.terminal "a" none, .terminal "b" none, .terminal "c" none, .nonterminal "S",
      .nonterminal "M", .nonterminal "N", .rule ⟨1⟩ [.nonterminal ⟨2⟩, .nonterminal ⟨3⟩] none,
      .rule ⟨2⟩ [] none, .rule ⟨2⟩ [.terminal ⟨1⟩, .nonterminal ⟨2⟩] none,
      .rule ⟨3⟩ [.terminal ⟨2⟩] none, .rule ⟨3⟩ [.nonterminal ⟨2⟩, .terminal ⟨3⟩] none],
      .inl (by decide)⟩
  have hanalysed : doublePrefix.analyse = .ok doublePrefixAnalysis := by decide +kernel
  have hbuild : (doublePrefix.build .default).2 = .ok doublePrefixTable := by decide +kernel
  have hlevels : doublePrefix.Levels fun n => min (n.val - 1) 1 := by
    unfold Grammar.Levels
    decide +kernel
  have hself : ∀ n, ¬ doublePrefix.Hides n n :=
    Grammar.not_hides_self_of_levels hlevels hdefined.wellFormed
  have hsequence : doublePrefix.rule? ⟨1⟩ =
      some ⟨⟨1⟩, [.nonterminal ⟨2⟩, .nonterminal ⟨3⟩], none⟩ := rfl
  have hempty : doublePrefix.rule? ⟨2⟩ = some ⟨⟨2⟩, [], none⟩ := rfl
  have hvanishes : doublePrefix.Vanishes [.nonterminal ⟨2⟩] :=
    Grammar.vanishes_rule hempty Grammar.vanishes_nil
  exact ⟨⟨[.nonterminal ⟨2⟩], [], nofun, hvanishes, .rule hsequence .refl⟩, hself,
    parse_ends hdefined hanalysed (by decide +kernel) hself hbuild [] none treeMaker _ ()⟩

namespace Parser

variable {p : Parser τ ν β σ} {q : StateId} {r : RuleId} {shape : RuleShape}
  {lookahead : Lookahead τ} {m : Machine τ ν ε σ}

omit [Token τ] in
/-- An empty rule is reduced wherever a transition leads on. -/
theorem reduce_of_empty (hmaker : p.maker.Total) (hrule : p.table.rule r = some shape)
    (hlength : shape.length = 0) (hgoto : p.table.goto (p.stateOn m.stack) shape.left = some q) :
    ∃ m' : Machine τ ν ε σ, p.reduce m r = .done (β := β) m' ∧ p.stateOn m'.stack = q ∧
      m'.lookahead = m.lookahead ∧ m'.forced = m.forced := by
  obtain ⟨node, hnode⟩ := hmaker r [] m.memory
  obtain ⟨memory, hmade⟩ : ∃ memory, p.maker.reduce r [] m.memory = (.ok node, memory) :=
    ⟨_, Prod.ext hnode rfl⟩
  have hpriority : nodePriority? shape ([] : List (StackEntry τ ν)) = some 0 := by
    rw [nodePriority?]
    cases shape.operator <;> rfl
  refine ⟨pushNode { m with memory := memory } r [] m.stack q node 0, ?_, rfl, rfl, rfl⟩
  rw [reduce, hrule]
  dsimp only
  rw [hlength, if_neg (Nat.not_lt_zero _), List.take_zero, List.reverse_nil, List.map_nil,
    List.drop_zero, hpriority]
  dsimp only
  rw [hmade]
  dsimp only
  rw [hgoto]

/-- A parser that reduces an empty rule in a state to which that leads back does so for ever. -/
theorem run_eq_none_of_loop (hmaker : p.maker.Total) (hrule : p.table.rule r = some shape)
    (hlength : shape.length = 0) (haction : p.table.action q lookahead.terminal = .reduce r)
    (hgoto : p.table.goto q shape.left = some q) (hstate : p.stateOn m.stack = q)
    (hlookahead : m.lookahead = some lookahead) (hforced : m.forced = none) (n : Nat) :
    p.run n m = none := by
  induction n generalizing m with
  | zero => rfl
  | succ n ih =>
    have hlook : (p.look q m : Attempt τ ν ε β σ) = .done m := by rw [look, hlookahead]
    have hgoto' : p.table.goto (p.stateOn m.stack) shape.left = some q := hstate ▸ hgoto
    obtain ⟨m', hreduce, hstate', hlookahead', hforced'⟩ :=
      reduce_of_empty (m := { m with forced := none }) hmaker hrule hlength hgoto'
    have hstep : p.step m = .next m' := by
      rw [step, hstate, hlook]
      dsimp only
      rw [hlookahead, hforced, Option.getD_some, Option.getD_none, haction, perform]
      rw [hlookahead] at hreduce
      rw [hreduce, proceed]
    rw [run, hstep]
    exact ih hstate' (hlookahead'.trans hlookahead) hforced'

end Parser

/-- The grammar `S := A S c | B b; A := %empty; B := %empty` (as rules 1 to 4). -/
def hiddenRecursion : Grammar where
  terminals := [.endOfInput, ⟨"b", none, .plain⟩, ⟨"c", none, .plain⟩]
  nonterminals := [augmentedStartName, "S", "A", "B"]
  rules := [⟨augmentedStart, [.nonterminal ⟨1⟩], none⟩,
    ⟨⟨1⟩, [.nonterminal ⟨2⟩, .nonterminal ⟨1⟩, .terminal ⟨2⟩], none⟩,
    ⟨⟨1⟩, [.nonterminal ⟨3⟩, .terminal ⟨1⟩], none⟩, ⟨⟨2⟩, [], none⟩, ⟨⟨3⟩, [], none⟩]
  start := ⟨1⟩
  operators := ∅
  operatorTerminals := ∅

/-- The analysis of the grammar. -/
def hiddenRecursionAnalysis : Analysis := hiddenRecursion.analyse.toOption.getD ⟨∅, [], []⟩

/-- The table of the grammar, in which two conflicts of the empty rules are settled. -/
def hiddenRecursionTable : GeneratedTable :=
  (hiddenRecursion.build .default).2.toOption.getD ⟨#[], [], [], [], ∅, ∅, []⟩

/-- A parser over the table. -/
def hiddenRecursionParser : Parser TerminalId (ParseTree TerminalId) Empty Unit :=
  Parser.ofTable hiddenRecursionTable.toParseTable treeMaker none

/-- The nonterminal `S` hides itself behind `A`. On `b` the table prefers the empty rule of `A` to
that of `B`, declared later, and the parser reduces it for ever. -/
theorem hiddenRecursion_never_ends :
    hiddenRecursion.IsDefined ∧ hiddenRecursion.analyse = .ok hiddenRecursionAnalysis ∧
      (hiddenRecursion.kernels hiddenRecursionAnalysis).items.size < stateNumbers ∧
      (hiddenRecursion.build .default).2 = .ok hiddenRecursionTable ∧
      hiddenRecursionParser.maker.Total ∧
      ∀ n, hiddenRecursionParser.parse (ε := Empty) n ([⟨1⟩].map .ok) () = none := by
  refine ⟨⟨[.terminal "b" none, .terminal "c" none, .nonterminal "S", .nonterminal "A",
    .nonterminal "B", .rule ⟨1⟩ [.nonterminal ⟨2⟩, .nonterminal ⟨1⟩, .terminal ⟨2⟩] none,
    .rule ⟨1⟩ [.nonterminal ⟨3⟩, .terminal ⟨1⟩] none, .rule ⟨2⟩ [] none, .rule ⟨3⟩ [] none],
    .inl (by decide)⟩, by decide +kernel, by decide +kernel, by decide +kernel, treeMaker_total, ?_⟩
  have htable : hiddenRecursionParser.table.action ⟨2⟩ ⟨1⟩ = .reduce ⟨3⟩ ∧
      hiddenRecursionParser.table.rule ⟨3⟩ = some ⟨⟨2⟩, 0, none⟩ ∧
      hiddenRecursionParser.table.goto ⟨2⟩ ⟨2⟩ = some ⟨2⟩ := by
    decide +kernel
  have hfirst : (match hiddenRecursionParser.step (ε := Empty) (.start ([⟨1⟩].map .ok) ()) with
      | .next m => decide (hiddenRecursionParser.stateOn m.stack = ⟨2⟩ ∧
          m.lookahead = some (.token ⟨⟨1⟩, ⟨⟨1⟩, none⟩, 0, 0⟩) ∧ m.forced = none)
      | .halt _ _ => false) = true := by
    decide +kernel
  intro n
  cases n with
  | zero => rfl
  | succ n =>
    rw [Parser.parse, Parser.run]
    split at hfirst
    · next m hstep =>
      obtain ⟨hstate, hlookahead, hforced⟩ := of_decide_eq_true hfirst
      rw [hstep]
      exact Parser.run_eq_none_of_loop treeMaker_total htable.2.1 rfl htable.1 htable.2.2 hstate
        hlookahead hforced n
    · cases hfirst

end OperatorLALR
