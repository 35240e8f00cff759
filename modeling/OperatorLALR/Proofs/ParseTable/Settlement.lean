import OperatorLALR.Proofs.ParseTable.Exact

/-!
# What becomes of a conflict

Several actions that compete are left to the operators where these are involved (`Defers`), are
decided by precedences (`Decided`), or else are on record with an action that competes or with the
list of them all. `resolves_of_settle` says that settling a conflict does one of these, and that
nothing is recorded exactly where precedences decide.
-/

namespace OperatorLALR

/-- How the precedences of a terminal to shift and of a rule to reduce decide, by their priorities
or by the associativity that they share. -/
def Precedence.favours (shift reduce : Precedence) : Option Preference :=
  if reduce.priority < shift.priority then some .shift
  else if shift.priority < reduce.priority then some .reduce
  else if shift.assoc = reduce.assoc then
    some (match shift.assoc with
      | .left => .reduce
      | .right => .shift
      | .nonassoc => .neither)
  else none

namespace Precedence

variable {shift reduce : Precedence} {rule : RuleId} {rules : List RuleId}
  {preference : Preference}

/-- A comparison without a mismatch is by the precedences alone. -/
theorem prefers_eq_iff (rule : RuleId) (rules : List RuleId) :
    shift.prefers reduce rule rules = (preference, false) ↔
      shift.favours reduce = some preference := by
  rw [prefers, favours]
  split
  · simp
  · split
    · simp
    · split
      · cases shift.assoc <;> simp
      · split <;> simp

/-- Only equal precedences without an associativity favour neither side. -/
theorem eq_of_favours_neither (h : shift.favours reduce = some .neither) :
    reduce = shift ∧ shift.assoc = .nonassoc := by
  obtain ⟨priority, assoc⟩ := shift
  obtain ⟨priority', assoc'⟩ := reduce
  rw [favours] at h
  dsimp only at h ⊢
  split at h
  · cases h
  · next hle =>
    split at h
    · cases h
    · next hle' =>
      obtain rfl : priority = priority' :=
        Nat.le_antisymm (Nat.le_of_not_lt hle) (Nat.le_of_not_lt hle')
      split at h
      · next hassoc =>
        subst hassoc
        cases assoc with
        | nonassoc => exact ⟨rfl, rfl⟩
        | left | right => cases h
      · cases h

/-- A comparison that favours neither side has no mismatch. -/
theorem favours_of_prefers_neither {mismatch : Bool}
    (h : shift.prefers reduce rule rules = (.neither, mismatch)) :
    shift.favours reduce = some .neither := by
  rw [← prefers_eq_iff rule rules, h]
  rw [prefers] at h
  split at h
  · cases h
  · split at h
    · cases h
    · split at h
      · cases hassoc : shift.assoc with
        | nonassoc =>
          rw [hassoc] at h
          obtain ⟨-, rfl⟩ := Prod.mk.inj h
          rfl
        | left | right =>
          rw [hassoc] at h
          cases h
      · split at h <;> cases h

end Precedence

namespace Grammar

/-- How the precedences of a terminal and a rule decide between its shift and the reduction. -/
def favours (g : Grammar) (t : TerminalId) (r : RuleId) : Option Preference :=
  (g.terminalPrecedence t).bind fun shift => (g.rulePrecedence r).bind shift.favours

/-- The precedences of a terminal and a rule are known and compare in some way. Where that is
without a mismatch it is by the precedences alone. -/
def Compares (g : Grammar) (t : TerminalId) (shiftRules : List RuleId) (preference : Preference)
    (mismatch : Bool) (r : RuleId) : Prop :=
  ∃ shift reduce flag, g.terminalPrecedence t = some shift ∧ g.rulePrecedence r = some reduce ∧
    shift.prefers reduce r shiftRules = (preference, flag) ∧ (mismatch = false → flag = false)

/-- Operators that are known only when parsing decide between some actions: the terminal stands for
operators, or one of them governs the rule of a reduction. -/
def Defers (g : Grammar) (t : TerminalId) (pend : List Action) : Prop :=
  g.isOperatorTerminal t = true ∨ ∃ r, .reduce r ∈ pend ∧ (g.governingPlace r).isSome = true

/-- Precedences decide between a shift and reductions: all reductions compare with it in the same
way, and if they are favoured there is only one. -/
inductive Decided (g : Grammar) (t : TerminalId) (pend : List Action) : Action → Prop
  | shift {next : StateId} (hshift : .shift next ∈ pend)
      (hall : ∀ r, .reduce r ∈ pend → g.favours t r = some .shift) :
      Decided g t pend (.shift next)
  | neither {next : StateId} (hshift : .shift next ∈ pend)
      (hall : ∀ r, .reduce r ∈ pend → g.favours t r = some .neither) :
      Decided g t pend .error
  | reduce {next : StateId} {r : RuleId} (hpend : pend = [.shift next, .reduce r])
      (hfavours : g.favours t r = some .reduce) : Decided g t pend (.reduce r)

/-- What becomes of several competing actions, given in order. -/
inductive Resolves (g : Grammar) (t : TerminalId) (pend : List Action) :
    Verdict → Option ConflictCause → Prop
  | deferred {verdict : Verdict} {cause : ConflictCause} (hdefers : g.Defers t pend)
      (hverdict : verdict = .dynamic pend ∨ verdict = .choice pend) :
      Resolves g t pend verdict (some cause)
  | decided {action : Action} (hstatic : ¬ g.Defers t pend)
      (hdecided : g.Decided t pend action) : Resolves g t pend (.action action) none
  | chosen {action : Action} {cause : ConflictCause} (hstatic : ¬ g.Defers t pend)
      (hopen : ∀ action, ¬ g.Decided t pend action) (hmem : action ∈ pend) :
      Resolves g t pend (.action action) (some cause)
  | listed {cause : ConflictCause} (hstatic : ¬ g.Defers t pend)
      (hopen : ∀ action, ¬ g.Decided t pend action) :
      Resolves g t pend (.choice pend) (some cause)

end Grammar

/-- The order of competing actions: the shift, then the reductions in the order of their rules. -/
inductive Action.Before : Action → Action → Prop
  | shift {next : StateId} {r : RuleId} : Before (.shift next) (.reduce r)
  | reduce {r r' : RuleId} (h : r.val < r'.val) : Before (.reduce r) (.reduce r')

namespace Competition

variable {c : Competition} {next : StateId} {r : RuleId}

/-- The action that a preference between the shift and the reduction by a rule comes to. -/
def decision (c : Competition) (r : RuleId) : Preference → Action
  | .shift => (c.shift.map .shift).getD .error
  | .neither => .error
  | .reduce => .reduce r

/-- The shift is a candidate. -/
@[simp] theorem shift_mem_candidates : .shift next ∈ c.candidates ↔ c.shift = some next := by
  simp [candidates]

/-- The reductions are candidates. -/
@[simp] theorem reduce_mem_candidates : .reduce r ∈ c.candidates ↔ r ∈ c.reduces := by
  simp [candidates]

/-- The candidates are one shift and one reduction if these compete. -/
theorem candidates_eq_pair :
    c.candidates = [.shift next, .reduce r] ↔ c.shift = some next ∧ c.reduces = [r] := by
  obtain ⟨shift, shiftRules, reduces⟩ := c
  cases shift with
  | none =>
    cases reduces <;> simp [candidates]
  | some next' =>
    cases reduces with
    | nil => simp [candidates]
    | cons first others => simp [candidates]

/-- The candidates come in order, those of one competition once each. -/
theorem pairwise_candidates (hreduces : c.reduces.Pairwise fun r r' => r.val < r'.val) :
    c.candidates.Pairwise Action.Before := by
  rw [candidates, List.pairwise_append]
  refine ⟨?_, List.pairwise_map.mpr (hreduces.imp .reduce), ?_⟩
  · cases c.shift <;> simp
  · intro action haction action' haction'
    obtain ⟨next, -, rfl⟩ := List.mem_map.mp haction
    obtain ⟨r, -, rfl⟩ := List.mem_map.mp haction'
    exact .shift

end Competition

namespace Grammar

variable {g : Grammar} {t : TerminalId} {r : RuleId} {shiftRules reduces : List RuleId}
  {preference : Preference} {mismatch : Bool} {soFar : Comparison}

/-- Operators decide in a competition if they do so among its candidates. -/
theorem isDynamic_iff {c : Competition} :
    g.isDynamic t c.reduces = true ↔ g.Defers t c.candidates := by
  simp [isDynamic, Defers]

/-- A reduction that compares like those before keeps the comparison uniform. -/
theorem add_of_favours (hfavours : g.favours t r = some preference)
    (hsoFar : soFar = .pending ∨ soFar = .uniform preference false) :
    soFar.add g t shiftRules r = .uniform preference false := by
  obtain ⟨shift, hshift, hrest⟩ := Option.bind_eq_some_iff.mp hfavours
  obtain ⟨reduce, hreduce, hprefers⟩ := Option.bind_eq_some_iff.mp hrest
  have hprefers := (Precedence.prefers_eq_iff r shiftRules).mpr hprefers
  rcases hsoFar with rfl | rfl <;> simp [Comparison.add, hshift, hreduce, hprefers]

/-- A comparison is not pending once something has been compared. -/
theorem add_ne_pending : soFar.add g t shiftRules r ≠ .pending := by
  intro h
  cases hshift : g.terminalPrecedence t with
  | none => cases soFar <;> simp [Comparison.add, hshift] at h
  | some shift =>
    cases hreduce : g.rulePrecedence r with
    | none => cases soFar <;> simp [Comparison.add, hshift, hreduce] at h
    | some reduce =>
      cases soFar with
      | uniform p m =>
        simp only [Comparison.add, hshift, hreduce] at h
        split at h <;> cases h
      | _ => simp [Comparison.add, hshift, hreduce] at h

/-- If a comparison is uniform with one more reduction, it was so before, and the reduction compares
the same way. -/
theorem of_add_eq_uniform (h : soFar.add g t shiftRules r = .uniform preference mismatch) :
    (soFar = .pending ∨ ∃ before, soFar = .uniform preference before ∧
      (mismatch = false → before = false)) ∧
    g.Compares t shiftRules preference mismatch r := by
  cases hshift : g.terminalPrecedence t with
  | none => cases soFar <;> simp [Comparison.add, hshift] at h
  | some shift =>
    cases hreduce : g.rulePrecedence r with
    | none => cases soFar <;> simp [Comparison.add, hshift, hreduce] at h
    | some reduce =>
      cases hprefers : shift.prefers reduce r shiftRules with
      | mk p flag =>
        cases soFar with
        | missing | inconsistent => simp [Comparison.add] at h
        | pending =>
          simp only [Comparison.add, hshift, hreduce, hprefers] at h
          obtain ⟨rfl, rfl⟩ := Comparison.uniform.inj h
          exact ⟨.inl rfl, shift, reduce, flag, hshift, hreduce, hprefers, id⟩
        | uniform p' before =>
          simp only [Comparison.add, hshift, hreduce, hprefers] at h
          split at h
          · next heq =>
            obtain ⟨rfl, rfl⟩ := Comparison.uniform.inj h
            obtain rfl : p' = p := heq
            exact ⟨.inr ⟨before, rfl, fun hor => (Bool.or_eq_false_iff.mp hor).1⟩, shift, reduce,
              flag, hshift, hreduce, hprefers, fun hor => (Bool.or_eq_false_iff.mp hor).2⟩
          · cases h

/-- A comparison of reductions is not pending. -/
theorem compareReductions_ne_pending (hne : reduces ≠ []) :
    g.compareReductions t shiftRules reduces ≠ .pending := by
  rw [← List.dropLast_append_getLast hne, compareReductions, List.foldl_append]
  exact add_ne_pending

/-- In a uniform comparison all reductions compare the same way. -/
theorem compares_of_compareReductions
    (h : g.compareReductions t shiftRules reduces = .uniform preference mismatch) :
    ∀ r ∈ reduces, g.Compares t shiftRules preference mismatch r := by
  -- the last reduction was added to a uniform comparison, or is the only one
  induction reduces using List.reverseRecOn generalizing mismatch with
  | nil => exact nofun
  | append_singleton reduces last ih =>
    rw [compareReductions, List.foldl_append, List.foldl_cons, List.foldl_nil] at h
    obtain ⟨hbefore, hlast⟩ := of_add_eq_uniform h
    intro r hr
    rcases List.mem_append.mp hr with hr | hr
    · rcases hbefore with hpending | ⟨before, huniform, hflag⟩
      · exact absurd hpending (compareReductions_ne_pending (List.ne_nil_of_mem hr))
      · obtain ⟨shift, reduce, flag, hshift, hreduce, hprefers, hexact⟩ := ih huniform r hr
        exact ⟨shift, reduce, flag, hshift, hreduce, hprefers, fun hm => hexact (hflag hm)⟩
    · rw [List.mem_singleton.mp hr]
      exact hlast

/-- Reductions that compare the same way by precedences make a comparison uniform. -/
theorem compareReductions_of_favours (shiftRules : List RuleId) (hne : reduces ≠ [])
    (hall : ∀ r ∈ reduces, g.favours t r = some preference) :
    g.compareReductions t shiftRules reduces = .uniform preference false := by
  induction reduces using List.reverseRecOn with
  | nil => exact absurd rfl hne
  | append_singleton reduces last ih =>
    obtain ⟨hbefore, hlast⟩ := List.forall_mem_append.mp hall
    rw [compareReductions, List.foldl_append, List.foldl_cons, List.foldl_nil]
    refine add_of_favours (hlast last (List.mem_singleton_self last)) ?_
    cases reduces with
    | nil => exact .inl rfl
    | cons first others => exact .inr (ih (List.cons_ne_nil first others) hbefore)

/-- A comparison without a mismatch is what the precedences favour. -/
theorem Compares.favours (h : g.Compares t shiftRules preference false r) :
    g.favours t r = some preference := by
  obtain ⟨shift, reduce, flag, hshift, hreduce, hprefers, hexact⟩ := h
  rw [hexact rfl] at hprefers
  rw [Grammar.favours, hshift, hreduce]
  exact (Precedence.prefers_eq_iff r shiftRules).mp hprefers

/-- A comparison in favour of neither side is by the precedences. -/
theorem Compares.favours_neither (h : g.Compares t shiftRules .neither mismatch r) :
    g.favours t r = some .neither := by
  obtain ⟨shift, reduce, flag, hshift, hreduce, hprefers, -⟩ := h
  rw [Grammar.favours, hshift, hreduce]
  exact Precedence.favours_of_prefers_neither hprefers

/-- Neither side is favoured only where both have one priority and no associativity. -/
theorem precedence_of_favours_neither (h : g.favours t r = some .neither) :
    ∃ priority, g.terminalPrecedence t = some ⟨priority, .nonassoc⟩ ∧
      g.rulePrecedence r = some ⟨priority, .nonassoc⟩ := by
  obtain ⟨⟨priority, assoc⟩, hshift, hrest⟩ := Option.bind_eq_some_iff.mp h
  obtain ⟨reduce, hreduce, hfavours⟩ := Option.bind_eq_some_iff.mp hrest
  obtain ⟨rfl, rfl⟩ := Precedence.eq_of_favours_neither hfavours
  exact ⟨priority, hshift, hreduce⟩

variable {c : Competition} {options : BuildOptions} {next : StateId} {verdict : Verdict}
  {cause : Option ConflictCause}

/-- Precedences decide only where the comparison is uniform, without a mismatch and not in favour of
several reductions. -/
theorem not_decided (shiftRules : List RuleId) (hne : c.reduces ≠ [])
    (h : ∀ preference, g.compareReductions t shiftRules c.reduces = .uniform preference false →
      preference = .reduce ∧ ∀ r, c.reduces ≠ [r]) (action : Action) :
    ¬ g.Decided t c.candidates action := by
  intro hdecided
  cases hdecided with
  | shift _ hall | neither _ hall =>
    have hreduces := fun r hr => hall r (Competition.reduce_mem_candidates.mpr hr)
    cases (h _ (compareReductions_of_favours shiftRules hne hreduces)).1
  | @reduce next r hpend hfavours =>
    obtain ⟨-, hsingle⟩ := Competition.candidates_eq_pair.mp hpend
    refine (h .reduce (compareReductions_of_favours shiftRules hne ?_)).2 r hsingle
    rw [hsingle]
    exact fun r' hr' => (List.mem_singleton.mp hr').symm ▸ hfavours

/-- The policy on a shift and reductions chooses the shift, or leaves all candidates open. -/
theorem resolves_shiftVerdict {cause : ConflictCause} (hshift : c.shift = some next)
    (hstatic : ¬ g.Defers t c.candidates)
    (hopen : ∀ action, ¬ g.Decided t c.candidates action) :
    g.Resolves t c.candidates (options.shiftVerdict next c) (some cause) := by
  rw [BuildOptions.shiftVerdict]
  split
  · exact .chosen hstatic hopen (Competition.shift_mem_candidates.mpr hshift)
  · exact .listed hstatic hopen

/-- What becomes of a shift and reductions between which no operators decide. -/
theorem resolves_settleShiftReduce (hshift : c.shift = some next) (hne : c.reduces ≠ [])
    (hstatic : ¬ g.Defers t c.candidates) :
    g.Resolves t c.candidates (g.settleShiftReduce options t next c).1
      (g.settleShiftReduce options t next c).2 := by
  have hmem : .shift next ∈ c.candidates := Competition.shift_mem_candidates.mpr hshift
  have hfavours : ∀ preference,
      g.compareReductions t c.shiftRules c.reduces = .uniform preference false →
        ∀ r, .reduce r ∈ c.candidates → g.favours t r = some preference := fun _ huniform r hr =>
    (compares_of_compareReductions huniform r (Competition.reduce_mem_candidates.mp hr)).favours
  have hopen := not_decided (g := g) (t := t) c.shiftRules hne
  unfold settleShiftReduce
  dsimp only
  cases hcompare : g.compareReductions t c.shiftRules c.reduces with
  | pending | missing | inconsistent =>
    exact resolves_shiftVerdict hshift hstatic (hopen (by simp [hcompare]))
  | uniform preference mismatch =>
    cases preference with
    | shift =>
      cases mismatch with
      | false => exact .decided hstatic (.shift hmem (hfavours .shift hcompare))
      | true => exact .chosen hstatic (hopen (by simp [hcompare])) hmem
    | neither =>
      have hall : ∀ r ∈ c.reduces, g.favours t r = some .neither := fun r hr =>
        (compares_of_compareReductions hcompare r hr).favours_neither
      have huniform := compareReductions_of_favours c.shiftRules hne hall
      obtain ⟨-, rfl⟩ := Comparison.uniform.inj (hcompare.symm.trans huniform)
      exact .decided hstatic (.neither hmem (hfavours .neither hcompare))
    | reduce =>
      dsimp only
      split
      · next r hsingle =>
        have hmem' : .reduce r ∈ c.candidates := by simp [hsingle]
        cases mismatch with
        | false =>
          exact .decided hstatic (.reduce (Competition.candidates_eq_pair.mpr ⟨hshift, hsingle⟩)
            (hfavours .reduce hcompare r hmem'))
        | true => exact .chosen hstatic (hopen (by simp [hcompare])) hmem'
      · next hmany =>
        refine resolves_shiftVerdict hshift hstatic (hopen fun preference huniform => ?_)
        obtain ⟨rfl, -⟩ := Comparison.uniform.inj (hcompare.symm.trans huniform)
        exact ⟨rfl, fun r hsingle => hmany r hsingle⟩

/-- Between a shift and reductions precedences and the policy decide where no operators do. -/
theorem settle_shift {q : StateId} (hshift : c.shift = some next) (hne : c.reduces ≠ [])
    (haccept : acceptRule ∉ c.reduces) (hstatic : g.isDynamic t c.reduces = false) :
    g.settle options q t c = .ok (g.settleShiftReduce options t next c) := by
  obtain ⟨shift, shiftRules, reduces⟩ := c
  obtain rfl : shift = some next := hshift
  obtain ⟨first, others, rfl⟩ := List.exists_cons_of_ne_nil hne
  unfold settle
  dsimp only at haccept hstatic ⊢
  rw [if_neg haccept, hstatic]
  rfl

/-- What becomes of reductions without a shift between which no operators decide. -/
theorem resolves_reduceVerdict {first : RuleId} {cause : ConflictCause} (hshift : c.shift = none)
    (hfirst : first ∈ c.reduces) (hstatic : ¬ g.Defers t c.candidates) :
    g.Resolves t c.candidates (options.reduceVerdict first c) (some cause) := by
  have hnone : ∀ next, .shift next ∉ c.candidates := fun next hmem => by
    rw [Competition.shift_mem_candidates, hshift] at hmem
    cases hmem
  have hopen : ∀ action, ¬ g.Decided t c.candidates action := by
    intro action hdecided
    cases hdecided with
    | shift hmem | neither hmem => exact hnone _ hmem
    | reduce hpend => exact hnone _ (hpend ▸ List.mem_cons_self)
  rw [BuildOptions.reduceVerdict]
  split
  · exact .chosen hstatic hopen (Competition.reduce_mem_candidates.mpr hfirst)
  · exact .listed hstatic hopen

/-- What becomes of several competing actions that are settled. -/
theorem resolves_of_settle {q : StateId} (h : g.settle options q t c = .ok (verdict, cause))
    (hmany : 1 < c.candidates.length) : g.Resolves t c.candidates verdict cause := by
  obtain ⟨hne, haccept, hsettles⟩ := settle_conflict h hmany
  cases hsettles with
  | dynamic hdynamic hways =>
    refine .deferred (isDynamic_iff.mp hdynamic) ?_
    cases verdict with
    | action action =>
      have hways : [action] = c.candidates := hways
      rw [← hways] at hmany
      exact absurd hmany (Nat.lt_irrefl 1)
    | dynamic list => exact .inl (congrArg _ hways)
    | choice list => exact .inr (congrArg _ hways)
  | shift hstatic hshift =>
    rw [← Bool.not_eq_true, isDynamic_iff] at hstatic
    exact resolves_settleShiftReduce hshift hne hstatic
  | @reduce first others hstatic hreduces =>
    have hstatic' : ¬ g.Defers t c.candidates := by
      rw [← isDynamic_iff, hstatic]
      exact Bool.false_ne_true
    cases hshift : c.shift with
    | none => exact resolves_reduceVerdict hshift (hreduces ▸ List.mem_cons_self) hstatic'
    | some next =>
      rw [settle_shift hshift hne haccept hstatic] at h
      rw [← (Prod.mk.inj (Except.ok.inj h)).1, ← (Prod.mk.inj (Except.ok.inj h)).2]
      exact resolves_settleShiftReduce hshift hne hstatic'

end Grammar

end OperatorLALR
