/-!
# Operator specifiers

A specifier such as `yfx` tells on which sides of an operator its arguments stand and how tightly
each argument has to bind: an `x` argument strictly tighter than the operator, a `y` argument at
least as tight. Reading accepts exactly the names of the seven specifiers (`ofName?_eq_some_iff`).
-/

namespace OperatorLALR

/-- Where an operator stands among its arguments. -/
inductive Fixity where
  | prefixOp
  | infixOp
  | postfixOp
  deriving DecidableEq, Repr

/-- To which side a chain of operators of equal priority groups, if to any. -/
inductive Assoc where
  | left
  | right
  | nonassoc
  deriving DecidableEq, Repr

/-- How tightly an argument of an operator has to bind. -/
inductive Bound where
  /-- Strictly tighter than the operator. -/
  | strict
  /-- As tight as the operator, or tighter. -/
  | weak
  deriving DecidableEq, Repr

/-- The kinds of operators by the places and the bounds of their arguments. -/
inductive Specifier where
  | fy
  | fx
  | yf
  | xf
  | yfx
  | xfy
  | xfx
  deriving DecidableEq, Repr

/-- The word for a fixity in reports. -/
def Fixity.text : Fixity → String
  | .prefixOp => "prefix"
  | .infixOp => "infix"
  | .postfixOp => "postfix"

/-- The place of a fixity in the order prefix, infix, postfix. -/
def Fixity.rank : Fixity → Nat
  | .prefixOp => 0
  | .infixOp => 1
  | .postfixOp => 2

/-- The word for an associativity in reports. -/
def Assoc.text : Assoc → String
  | .left => "left"
  | .right => "right"
  | .nonassoc => "nonassoc"

/-- The largest priority of an argument below an operator of the given priority. -/
def Bound.maxPriority : Bound → Nat → Nat
  | .strict, priority => priority - 1
  | .weak, priority => priority

namespace Specifier

/-- The name of a specifier. -/
def name : Specifier → String
  | .fy => "fy"
  | .fx => "fx"
  | .yf => "yf"
  | .xf => "xf"
  | .yfx => "yfx"
  | .xfy => "xfy"
  | .xfx => "xfx"

/-- All specifiers. -/
def all : List Specifier := [.fy, .fx, .yf, .xf, .yfx, .xfy, .xfx]

/-- The specifier with the given name. -/
def ofName? (s : String) : Option Specifier := all.find? fun spec => spec.name == s

/-- Where the operator stands. -/
def fixity : Specifier → Fixity
  | .fy | .fx => .prefixOp
  | .yf | .xf => .postfixOp
  | .yfx | .xfy | .xfx => .infixOp

/-- The side on which an argument may bind as tightly as the operator. -/
def assoc : Specifier → Assoc
  | .yf | .yfx => .left
  | .fy | .xfy => .right
  | .fx | .xf | .xfx => .nonassoc

/-- The bound on the left argument, if there is one. -/
def leftArgument : Specifier → Option Bound
  | .fy | .fx => none
  | .yf | .yfx => some .weak
  | .xf | .xfy | .xfx => some .strict

/-- The bound on the right argument, if there is one. -/
def rightArgument : Specifier → Option Bound
  | .yf | .xf => none
  | .fy | .xfy => some .weak
  | .fx | .yfx | .xfx => some .strict

theorem mem_all (spec : Specifier) : spec ∈ all := by
  cases spec <;> decide

theorem name_injective {a b : Specifier} (h : a.name = b.name) : a = b := by
  cases a <;> cases b <;> first | rfl | exact absurd h (by decide)

/-- A text is read as a specifier exactly if it is the name of that specifier. -/
theorem ofName?_eq_some_iff {s : String} {spec : Specifier} :
    ofName? s = some spec ↔ spec.name = s := by
  constructor
  · intro h
    exact beq_iff_eq.mp (List.find?_some h :)
  · rintro rfl
    rw [ofName?]
    cases h : all.find? fun other => other.name == spec.name with
    | none =>
      have := List.find?_eq_none.mp h spec (mem_all spec)
      simp at this
    | some other =>
      have := beq_iff_eq.mp (List.find?_some h :)
      rw [name_injective this]

end Specifier

end OperatorLALR
