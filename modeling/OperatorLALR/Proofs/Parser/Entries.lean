import OperatorLALR.Proofs.Parser.Steps

/-!
# What holds of every entry

The entries of a stack are made by shifts and by reductions, and undoing brings back nothing but
entries made before. So a property of all tokens, which nodes inherit from their handles, holds of
every entry on the stack and in the trail of a machine that a parse reaches
(`Machine.AllEntries.of_reaches`), whatever was undone on the way.
-/

namespace OperatorLALR

variable {τ ν β ε σ : Type}

/-- Taking tokens from the top of a stack adds no entry. -/
theorem mem_of_mem_unshift {stamp : Nat} {stack : List (StackEntry τ ν)} {e : StackEntry τ ν}
    (h : e ∈ unshift stamp stack) : e ∈ stack := by
  induction stack with
  | nil => exact h
  | cons top below ih =>
    rw [unshift] at h
    split at h
    · exact List.mem_cons_of_mem top (ih h)
    · exact h

/-- Undoing brings back only entries from the handles of the trail, and keeps the lower records. -/
theorem undoSince_forall {P : StackEntry τ ν → Prop} (stamp : Nat) {stack : List (StackEntry τ ν)}
    {trail : List (Reduction τ ν)} (hstack : ∀ e ∈ stack, P e)
    (htrail : ∀ r ∈ trail, ∀ e ∈ r.handle, P e) :
    (∀ e ∈ (undoSince stamp stack trail).1, P e) ∧
      ∀ r ∈ (undoSince stamp stack trail).2.1, r ∈ trail := by
  induction trail generalizing stack with
  | nil =>
    have hleft : ∀ e ∈ unshift stamp stack, P e := fun e he => hstack e (mem_of_mem_unshift he)
    rw [undoSince]
    split
    · exact ⟨nofun, nofun⟩
    · next top below hunshift =>
      rw [hunshift] at hleft
      refine ⟨?_, nofun⟩
      dsimp only
      split
      · exact fun e he => hleft e (List.mem_cons_of_mem top he)
      · exact hleft
  | cons last trail ih =>
    have hleft : ∀ e ∈ unshift stamp stack, P e := fun e he => hstack e (mem_of_mem_unshift he)
    rw [undoSince]
    split
    · exact ⟨nofun, fun r hr => hr⟩
    · next top below hunshift =>
      rw [hunshift] at hleft
      split
      · have hrestored : ∀ e ∈ last.handle.reverse ++ below, P e := by
          intro e he
          rcases List.mem_append.mp he with he | he
          · exact htrail last List.mem_cons_self e (List.mem_reverse.mp he)
          · exact hleft e (List.mem_cons_of_mem top he)
        obtain ⟨hentries, hrecords⟩ :=
          ih hrestored fun r hr => htrail r (List.mem_cons_of_mem last hr)
        exact ⟨hentries, fun r hr => List.mem_cons_of_mem last (hrecords r hr)⟩
      · exact ⟨hleft, fun r hr => hr⟩

/-- All entries on the stack and in the handles of the trail have a property. -/
structure Machine.AllEntries (P : StackEntry τ ν → Prop) (m : Machine τ ν ε σ) : Prop where
  stack : ∀ e ∈ m.stack, P e
  trail : ∀ r ∈ m.trail, ∀ e ∈ r.handle, P e

/-- A property of entries that all tokens have, and that nodes inherit from their handles. -/
structure Parser.Inherits (p : Parser τ ν β σ) (P : StackEntry τ ν → Prop) : Prop where
  token : ∀ next view stamp, P ⟨next, .token view, 0, stamp⟩
  node : ∀ {r shape} {handle : List (StackEntry τ ν)} {priority node memory memory'} next stamp,
    p.table.rule r = some shape → (∀ e ∈ handle, P e) →
    Parser.nodePriority? shape handle = some priority →
    p.maker.reduce r (handle.map StackEntry.item) memory = (.ok node, memory') →
    P ⟨next, .node node, priority, stamp⟩

namespace Machine.AllEntries

variable {P : StackEntry τ ν → Prop} {p : Parser τ ν β σ} {m m' : Machine τ ν ε σ}

/-- Only stack and trail matter. -/
theorem congr (h : m.AllEntries P) (hstack : m'.stack = m.stack) (htrail : m'.trail = m.trail) :
    m'.AllEntries P := by
  constructor
  · rw [hstack]
    exact h.stack
  · rw [htrail]
    exact h.trail

/-- Returning to a choice point brings back only entries that the machine held. -/
theorem backtrack (h : m.AllEntries P) (hback : m.backtrack? = some m') : m'.AllEntries P := by
  obtain ⟨⟨way, c, pending⟩, -, rfl⟩ := Option.map_eq_some_iff.mp hback
  obtain ⟨hentries, hrecords⟩ := undoSince_forall c.stamp h.stack h.trail
  refine ⟨hentries, ?_⟩
  dsimp only [Machine.resume]
  split
  · exact nofun
  · exact fun r hr => h.trail r (hrecords r hr)

/-- A reduction adds a node that inherits the property, and records a handle that has it. -/
theorem reduce (h : m.AllEntries P) (hp : p.Inherits P) {r : RuleId}
    (hr : p.reduce m r = .done m') : m'.AllEntries P := by
  obtain ⟨shape, priority, node, memory, next, hrule, -, hpriority, hmake, -, rfl⟩ :=
    Parser.reduce_done hr
  have hhandle : ∀ e ∈ (m.stack.take shape.length).reverse, P e := by
    intro e he
    exact h.stack e (List.mem_of_mem_take (List.mem_reverse.mp he))
  constructor
  · intro e he
    rcases List.mem_cons.mp he with rfl | he
    · exact hp.node next m.clock hrule hhandle hpriority hmake
    · exact h.stack e (List.mem_of_mem_drop he)
  · intro record hrecord
    dsimp only [Parser.pushNode] at hrecord
    split at hrecord
    · exact h.trail record hrecord
    · rcases List.mem_cons.mp hrecord with rfl | hrecord
      · exact hhandle
      · exact h.trail record hrecord

/-- A move keeps an inherited property of all entries. -/
theorem moved {lookahead : Lookahead τ} {a : Action} (h : m.AllEntries P) (hp : p.Inherits P)
    (hmoved : Parser.Moved p lookahead m a m') : m'.AllEntries P := by
  cases hmoved with
  | @shift next view _ =>
    refine ⟨?_, h.trail⟩
    intro e he
    rcases List.mem_cons.mp he with rfl | he
    · exact hp.token next view m.clock
    · exact h.stack e he
  | reduce hr => exact h.reduce hp hr
  | only => exact h.congr rfl rfl
  | branch _ hleave =>
    obtain ⟨depth, rfl⟩ := Parser.leaveChoice_ok hleave
    exact h.congr rfl rfl
  | @back _ _ deadEnd _ hback =>
    have hmarked : ({ m with farthest := some deadEnd } : Machine τ ν ε σ).AllEntries P :=
      h.congr rfl rfl
    exact hmarked.backtrack hback

variable [Token τ]

/-- A step keeps an inherited property of all entries. -/
theorem step (h : m.AllEntries P) (hp : p.Inherits P) (hstep : p.step m = .next m') :
    m'.AllEntries P := by
  rcases Parser.step_next hstep with ⟨lookahead, m₁, -, hlooked, hmoved⟩ | ⟨b, d, hlook, hback⟩
  · obtain ⟨hstack, htrail, -⟩ := hlooked.frame
    have h₁ : ({ m₁ with forced := none } : Machine τ ν ε σ).AllEntries P := h.congr hstack htrail
    exact h₁.moved hp hmoved
  · obtain ⟨-, token, hread, -⟩ := Parser.look_refused hlook
    obtain ⟨pulled, source, exhausted, rfl⟩ := Parser.readToken_eq hread
    have hmarked : ({ m with
        pulled := pulled, source := source, exhausted := exhausted, farthest := some d } :
          Machine τ ν ε σ).AllEntries P := h.congr rfl rfl
    exact hmarked.backtrack hback

/-- An inherited property holds of every entry in a run. -/
theorem of_reaches {source : List (Except ε τ)} {memory : σ} (hp : p.Inherits P)
    (hreach : p.Reaches (.start source memory) m) : m.AllEntries P := by
  induction hreach with
  | refl => exact ⟨nofun, nofun⟩
  | tail _ hstep ih => exact ih.step hp hstep

end Machine.AllEntries

end OperatorLALR
