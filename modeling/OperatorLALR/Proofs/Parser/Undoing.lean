import OperatorLALR.Parser.Step

/-!
# Undoing shifts and reductions

`Undoes` says how the entries of a stack made from some time on are taken away again: a token goes,
and a node is replaced by the handle on top of the trail, whose record bears a time in the same
range. There is no rule for a node without such a record, so that a derivation of `Undoes` shows
that none was missing. `Rewindable` says of a whole machine that each of its choice points can be
reached in this way, the outer ones through the inner ones, and what is found there. Shifts,
reductions and new choice points keep it.
-/

namespace OperatorLALR

variable {τ ν ε σ : Type}

/-- From a stack and a trail, undoing all that was done at or after a time leads to another stack
and trail. -/
inductive Undoes (stamp : Nat) : List (StackEntry τ ν) → List (Reduction τ ν) →
    List (StackEntry τ ν) → List (Reduction τ ν) → Prop
  /-- All entries are older. -/
  | done {stack : List (StackEntry τ ν)} {trail : List (Reduction τ ν)}
      (h : ∀ e ∈ stack, e.stamp < stamp) : Undoes stamp stack trail stack trail
  /-- A token is taken away. -/
  | token {top : StackEntry τ ν} {below stack : List (StackEntry τ ν)}
      {trail rest : List (Reduction τ ν)} (hstamp : stamp ≤ top.stamp)
      (hitem : top.item.isNode = false) (h : Undoes stamp below trail stack rest) :
      Undoes stamp (top :: below) trail stack rest
  /-- A node is replaced by the handle of the last reduction. -/
  | node {top : StackEntry τ ν} {below stack : List (StackEntry τ ν)} {last : Reduction τ ν}
      {trail rest : List (Reduction τ ν)} (hstamp : stamp ≤ top.stamp)
      (hitem : top.item.isNode = true) (hlast : stamp ≤ last.stamp)
      (h : Undoes stamp (last.handle.reverse ++ below) trail stack rest) :
      Undoes stamp (top :: below) (last :: trail) stack rest

namespace Undoes

variable {stamp : Nat} {stack stack' : List (StackEntry τ ν)} {trail trail' : List (Reduction τ ν)}

/-- What is found is older than the time. -/
theorem older (h : Undoes stamp stack trail stack' trail') : ∀ e ∈ stack', e.stamp < stamp := by
  induction h with
  | done h => exact h
  | token _ _ _ ih => exact ih
  | node _ _ _ _ ih => exact ih

/-- The records that are used up stand on top of the trail and bear a time in the range. -/
theorem trail_eq (h : Undoes stamp stack trail stack' trail') :
    ∃ undone, trail = undone ++ trail' ∧ ∀ r ∈ undone, stamp ≤ r.stamp := by
  induction h with
  | done => exact ⟨[], rfl, by simp⟩
  | token _ _ _ ih => exact ih
  | @node _ _ _ last _ _ _ _ hlast _ ih =>
    obtain ⟨undone, rfl, hundone⟩ := ih
    refine ⟨last :: undone, rfl, ?_⟩
    intro r hr
    rcases List.mem_cons.mp hr with rfl | hr
    · exact hlast
    · exact hundone r hr

end Undoes

/-- No token is on top of a stack whose entries are older. -/
theorem unshift_eq_self {stamp : Nat} {stack : List (StackEntry τ ν)}
    (h : ∀ e ∈ stack, e.stamp < stamp) : unshift stamp stack = stack := by
  cases stack with
  | nil => rfl
  | cons top below =>
    have htop := h top List.mem_cons_self
    rw [unshift, if_neg (by omega)]

/-- Nothing is undone where all entries are older. -/
theorem undoSince_eq_self {stamp : Nat} {stack : List (StackEntry τ ν)}
    {trail : List (Reduction τ ν)} (h : ∀ e ∈ stack, e.stamp < stamp) :
    undoSince stamp stack trail = (stack, trail, 0) := by
  cases trail with
  | nil =>
    rw [undoSince, unshift_eq_self h]
    cases stack with
    | nil => rfl
    | cons top below =>
      have htop := h top List.mem_cons_self
      dsimp only
      rw [if_neg (by omega)]
  | cons last trail =>
    rw [undoSince, unshift_eq_self h]
    cases stack with
    | nil => rfl
    | cons top below =>
      have htop := h top List.mem_cons_self
      dsimp only
      rw [if_neg (by omega)]

/-- A token in the range is passed over. -/
theorem undoSince_token {stamp : Nat} {top : StackEntry τ ν} {below : List (StackEntry τ ν)}
    {trail : List (Reduction τ ν)} (hstamp : stamp ≤ top.stamp)
    (hitem : top.item.isNode = false) :
    undoSince stamp (top :: below) trail = undoSince stamp below trail := by
  have hunshift : unshift stamp (top :: below) = unshift stamp below := by
    rw [unshift, if_pos ⟨hstamp, hitem⟩]
  cases trail <;> rw [undoSince, undoSince, hunshift]

/-- A node in the range gives way to the handle of the last reduction. -/
theorem undoSince_node {stamp : Nat} {top : StackEntry τ ν} {below : List (StackEntry τ ν)}
    {last : Reduction τ ν} {trail : List (Reduction τ ν)} (hstamp : stamp ≤ top.stamp)
    (hitem : top.item.isNode = true) :
    undoSince stamp (top :: below) (last :: trail) =
      ((undoSince stamp (last.handle.reverse ++ below) trail).1,
        (undoSince stamp (last.handle.reverse ++ below) trail).2.1,
        (undoSince stamp (last.handle.reverse ++ below) trail).2.2 + 1) := by
  have hunshift : unshift stamp (top :: below) = top :: below := by
    rw [unshift, if_neg (by simp [hitem])]
  rw [undoSince, hunshift]
  dsimp only
  rw [if_pos hstamp]

/-- The machine undoes what is to be undone, and counts the reductions among it. -/
theorem Undoes.undoSince_eq {stamp : Nat} {stack stack' : List (StackEntry τ ν)}
    {trail trail' : List (Reduction τ ν)} (h : Undoes stamp stack trail stack' trail') :
    undoSince stamp stack trail = (stack', trail', trail.length - trail'.length) := by
  induction h with
  | done h => rw [undoSince_eq_self h, Nat.sub_self]
  | token hstamp hitem _ ih => rw [undoSince_token hstamp hitem, ih]
  | node hstamp hitem _ h ih =>
    obtain ⟨undone, htrail, -⟩ := h.trail_eq
    rw [undoSince_node hstamp hitem, ih, List.length_cons, htrail, List.length_append]
    simp only [Prod.mk.injEq, true_and]
    omega

/-- Each pending choice point can be returned to: behind the innermost one lies the stack and the
trail of the machine that left it, with that machine's own choice points outside. -/
inductive Rewindable : List (StackEntry τ ν) → List (Reduction τ ν) → List (ChoicePoint τ) →
    List (Machine τ ν ε σ) → Prop
  /-- Without choice points there is no trail. -/
  | nil {stack : List (StackEntry τ ν)} : Rewindable stack [] [] []
  | cons {stack : List (StackEntry τ ν)} {trail : List (Reduction τ ν)} {c : ChoicePoint τ}
      {saved : Machine τ ν ε σ} {earlier : List (Machine τ ν ε σ)}
      (hundo : Undoes c.stamp stack trail saved.stack saved.trail)
      (h : Rewindable saved.stack saved.trail saved.choices earlier) :
      Rewindable stack trail (c :: saved.choices) (saved :: earlier)

namespace Rewindable

variable {stack : List (StackEntry τ ν)} {trail : List (Reduction τ ν)}
  {choices : List (ChoicePoint τ)} {saved : List (Machine τ ν ε σ)} {clock : Nat}

/-- The trail is empty where no choice point is pending. -/
theorem trail_eq_nil (h : Rewindable stack trail choices saved) (hchoices : choices = []) :
    trail = [] := by
  cases h with
  | nil => rfl
  | cons => cases hchoices

/-- What lies behind the innermost choice point. -/
theorem innermost {c : ChoicePoint τ} {outer : List (ChoicePoint τ)}
    (h : Rewindable stack trail (c :: outer) saved) :
    ∃ s earlier, saved = s :: earlier ∧ outer = s.choices ∧
      Undoes c.stamp stack trail s.stack s.trail ∧
      Rewindable s.stack s.trail s.choices earlier := by
  cases h with
  | cons hundo h => exact ⟨_, _, rfl, rfl, hundo, h⟩

/-- A new token does not stand in the way of any choice point. -/
theorem shift {top : StackEntry τ ν} (hitem : top.item.isNode = false)
    (hclock : ∀ c ∈ choices, c.stamp ≤ top.stamp) (h : Rewindable stack trail choices saved) :
    Rewindable (top :: stack) trail choices saved := by
  cases h with
  | nil => exact .nil
  | cons hundo h => exact .cons (.token (hclock _ List.mem_cons_self) hitem hundo) h

/-- A new node with its record does not stand in the way of any choice point. -/
theorem reduce {top : StackEntry τ ν} {below : List (StackEntry τ ν)} {record : Reduction τ ν}
    (hitem : top.item.isNode = true) (hstack : stack = record.handle.reverse ++ below)
    (hclock : ∀ c ∈ choices, c.stamp ≤ top.stamp ∧ c.stamp ≤ record.stamp)
    (h : Rewindable stack trail choices saved) :
    Rewindable (top :: below) (if choices.isEmpty then trail else record :: trail) choices
      saved := by
  cases h with
  | nil => exact .nil
  | cons hundo h =>
    obtain ⟨htop, hrecord⟩ := hclock _ List.mem_cons_self
    rw [hstack] at hundo
    exact .cons (.node htop hitem hrecord hundo) h

/-- A choice point that is newer than the whole stack is returned to by undoing nothing. -/
theorem leave {m : Machine τ ν ε σ} {c : ChoicePoint τ} (hclock : ∀ e ∈ m.stack, e.stamp < c.stamp)
    (h : Rewindable m.stack m.trail m.choices saved) :
    Rewindable m.stack m.trail (c :: m.choices) (m :: saved) :=
  .cons (.done hclock) h

end Rewindable

end OperatorLALR
