import OperatorLALR.Proofs.Parser.Steps
import OperatorLALR.Proofs.Search.Exhaustive

/-!
# Parses that end

A search from a branch whose runs all end leaves nothing pending after finitely many steps
(`Search.Ends.expands`), and each step of a parse takes at least one step of the search. So a parse
ends if all runs of the nondeterministic parser do (`Parser.exists_parse`), and it does not reject
the input if one of them accepts (`Parser.not_rejected_of_reaches`).
-/

namespace OperatorLALR

namespace Search

variable {α ρ : Type} {next : α → List α} {result : α → Option ρ}

/-- All runs from a branch end. -/
def Ends (next : α → List α) (a : α) : Prop := Acc (fun b a => b ∈ next a) a

/-- A branch that some run comes upon. -/
def Reaches (next : α → List α) : α → α → Prop := Relation.ReflTransGen fun a b => b ∈ next a

/-- A search of pending branches goes on only finitely often, if the runs from each of them end. -/
theorem Ends.expands {as : List α} (h : ∀ a ∈ as, Ends next a) :
    Acc (fun bs as => Expands next result as bs) as := by
  have hcons : ∀ a, Ends next a → ∀ rest, Acc (fun bs as => Expands next result as bs) rest →
      Acc (fun bs as => Expands next result as bs) (a :: rest) := by
    intro a ha
    induction ha with
    | intro a _ ih =>
      intro rest hrest
      constructor
      intro bs hbs
      cases hbs with
      | first _ =>
        -- the alternatives come one by one in front of what was pending
        have hways : ∀ ways : List α, (∀ b ∈ ways, b ∈ next a) →
            Acc (fun bs as => Expands next result as bs) (ways ++ rest) := by
          intro ways
          induction ways with
          | nil => exact fun _ => hrest
          | cons b ways ihways =>
            intro hall
            obtain ⟨hb, hways⟩ := List.forall_mem_cons.mp hall
            exact ih b hb _ (ihways hways)
        exact hways (next a) fun b hb => hb
  induction as with
  | nil =>
    constructor
    intro bs hbs
    cases hbs
  | cons a as ih =>
    obtain ⟨ha, has⟩ := List.forall_mem_cons.mp h
    exact hcons a ha as (ih has)

/-- Runs end where a measure decreases along all of them. -/
theorem ends_of_measure {ω : Type} [LT ω] [WellFoundedLT ω] {P : α → Prop} (measure : α → ω)
    (hnext : ∀ a, P a → ∀ b ∈ next a, P b)
    (hmeasure : ∀ a, P a → ∀ b ∈ next a, measure b < measure a) {a : α} (ha : P a) :
    Ends next a := by
  induction hn : measure a using WellFoundedLT.induction generalizing a with
  | _ n ih =>
    constructor
    intro b hb
    have hlt : measure b < n := hn ▸ hmeasure a ha b hb
    exact ih (measure b) hlt (hnext a ha b hb) rfl

/-- To a branch that some run comes upon leads a path. -/
theorem Reaches.exists_follow {a b : α} (h : Reaches next a b) :
    ∃ path, follow next a path = some b := by
  induction h using Relation.ReflTransGen.head_induction_on with
  | refl => exact ⟨[], rfl⟩
  | head hstep _ ih =>
    obtain ⟨path, hpath⟩ := ih
    obtain ⟨i, hi⟩ := List.mem_iff_getElem?.mp hstep
    refine ⟨i :: path, ?_⟩
    rw [follow, hi, Option.bind_some, hpath]

/-- What each branch hands on to its alternatives holds along every run. -/
theorem Reaches.invariant {P : α → Prop} {a b : α} (h : Reaches next a b)
    (hnext : ∀ a, P a → ∀ b ∈ next a, P b) (ha : P a) : P b := by
  induction h with
  | refl => exact ha
  | tail _ hstep ih => exact hnext _ ih _ hstep

end Search

variable {τ ν β ε σ : Type} [Token τ] {p : Parser τ ν β σ} {tokens : List τ}

/-- A machine at a branch ends its parse, if the search goes on only finitely often. -/
theorem Follows.exists_run {m : Machine τ ν ε σ} {saved : List (Machine τ ν ε σ)} {b : Branch τ}
    {rest : List (Branch τ)} (h : Follows p tokens m saved b rest)
    (hends : Acc (fun bs as => p.Advances tokens as bs) (b :: rest)) :
    ∃ n result, p.run n m = some result := by
  generalize hpending : b :: rest = pending at hends
  induction hends generalizing m saved b rest with
  | intro pending _ ih =>
    subst hpending
    cases hstep : p.step m with
    | halt result last =>
      refine ⟨1, (result, last), ?_⟩
      rw [Parser.run, hstep]
    | next m' =>
      obtain ⟨saved', b', rest', hadvances, h'⟩ := h.step hstep
      obtain ⟨n, result, hrun⟩ := ih _ hadvances h' rfl
      refine ⟨n + 1, result, ?_⟩
      rw [Parser.run, hstep]
      exact hrun

namespace Parser

/-- A parse ends if all runs of the nondeterministic parser do. -/
theorem exists_parse (hends : Search.Ends (Branch.next p.overTrees tokens) .start) (memory : σ) :
    ∃ n, ∃ result : Except (ParseError ε β) ν, ∃ last : Machine τ ν ε σ,
      p.parse n (tokens.map .ok) memory = some (result, last) := by
  have hfollows := Follows.start (ε := ε) p (tokens.map .ok) memory
  rw [given_map_ok] at hfollows
  have hstart : ∀ b ∈ [Branch.start], Search.Ends (Branch.next p.overTrees tokens) b :=
    fun b hb => List.mem_singleton.mp hb ▸ hends
  have hexpands : Acc (fun bs as => Search.Expands (Branch.next p.overTrees tokens)
      (Branch.result? p.overTrees) as bs) [Branch.start] := Search.Ends.expands hstart
  have hadvances : Acc (fun bs as => p.Advances tokens as bs) [Branch.start] := by
    refine Subrelation.accessible (fun {bs as} hadvance => ?_) hexpands.transGen
    exact Relation.transGen_swap.mpr hadvance
  obtain ⟨n, ⟨result, last⟩, hrun⟩ := hfollows.exists_run hadvances
  exact ⟨n, result, last, hrun⟩

/-- An input is not rejected if some run of the nondeterministic parser accepts it. -/
theorem not_rejected_of_reaches {n : Nat} {memory : σ} {e : ParseError ε β}
    {last : Machine τ ν ε σ} {b : Branch τ} {tree : ParseTree τ}
    (hreach : Search.Reaches (Branch.next p.overTrees tokens) .start b)
    (hresult : b.result? p.overTrees = some tree)
    (hparse : p.parse n (tokens.map .ok) memory = some (.error e, last)) :
    e.isRejection = false := by
  by_contra he
  rw [Bool.not_eq_false] at he
  obtain ⟨m, hmachine, hstep⟩ := run_eq_some hparse
  obtain ⟨saved, b', rest, hsearch, hfollows⟩ := Follows.of_reaches hmachine
  obtain ⟨bound, hfail⟩ := Search.Explores.exhausted (hsearch.trans (hfollows.rejected he hstep))
  obtain ⟨path, hpath⟩ := hreach.exists_follow
  obtain ⟨-, hnone⟩ := hfail path b trivial hpath
  rw [hresult] at hnone
  cases hnone

end Parser

end OperatorLALR
