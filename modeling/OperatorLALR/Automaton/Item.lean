import OperatorLALR.Analysis.Basic
import OperatorLALR.Distinct
import OperatorLALR.Exploration

/-!
# Items

An item is a rule with a dot in its body. The items of a state are those of its kernel and the
closure of these: the rules, with the dot in front, of every nonterminal that may come next.
-/

namespace OperatorLALR

/-- A rule with a dot in its body. -/
structure Item where
  rule : RuleId
  /-- The number of symbols before the dot. -/
  dot : Nat
  deriving DecidableEq, Repr

namespace Item

/-- Items are ordered by their rules and then by their dots. -/
def compare (a b : Item) : Ordering := (Ord.compare a.rule b.rule).then (Ord.compare a.dot b.dot)

/-- The symbol right behind the dot, none if the dot stands at the end. -/
def next? (g : Grammar) (item : Item) : Option Symbol := (g.body item.rule)[item.dot]?

/-- The symbols behind the one that follows the dot. -/
def rest (g : Grammar) (item : Item) : List Symbol := (g.body item.rule).drop (item.dot + 1)

/-- Whether the dot stands at the end. -/
def isComplete (g : Grammar) (item : Item) : Bool := (item.next? g).isNone

/-- The item with its dot one symbol further. -/
def advance (item : Item) : Item := ⟨item.rule, item.dot + 1⟩

/-- The item as reports show it. -/
def text (g : Grammar) (item : Item) : String :=
  let names := (g.body item.rule).map g.symbolName
  let dotted := names.take item.dot ++ "." :: names.drop item.dot
  " ".intercalate ([g.nonterminalName (g.left item.rule), "->", "["] ++ dotted ++ ["]"])

end Item

/-- The items from which a state is closed, in ascending order. -/
abbrev Kernel := List Item

/-- The numbers of the items of a kernel in a row. -/
def kernelKey : Kernel → List Nat
  | [] => []
  | item :: items => item.rule.val :: item.dot :: kernelKey items

theorem kernelKey_injective {a b : Kernel} (h : kernelKey a = kernelKey b) : a = b := by
  induction a generalizing b with
  | nil =>
    cases b with
    | nil => rfl
    | cons item items => exact absurd h (by simp [kernelKey])
  | cons item items ih =>
    cases b with
    | nil => exact absurd h (by simp [kernelKey])
    | cons other others =>
      obtain ⟨⟨rule⟩, dot⟩ := item
      obtain ⟨⟨rule'⟩, dot'⟩ := other
      simp only [kernelKey, List.cons.injEq] at h
      obtain ⟨rfl, rfl, h⟩ := h
      rw [ih h]

instance : Keyed Kernel := ⟨kernelKey, kernelKey_injective⟩

/-- The kernel of the initial state. -/
def initialKernel : Kernel := [⟨acceptRule, 0⟩]

namespace Grammar

variable (g : Grammar) (a : Analysis)

/-- The rules, with the dot in front, of the nonterminals that may come next at an item. -/
def closureItems (item : Item) : List Item :=
  match item.next? g with
  | some (.nonterminal n) =>
    (a.leadingSymbols n).flatMap fun target => (g.rulesOf target).map fun r => ⟨r, 0⟩
  | _ => []

/-- The items of the state with a kernel: the kernel, then the further items of its closure. -/
def itemsOf (kernel : Kernel) : List Item :=
  kernel ++ fresh kernel (kernel.flatMap (g.closureItems a))

/-- The symbols behind the dots of a list of items, in order of first occurrence. The end of a
body counts as one of them. -/
def markersOf (items : List Item) : List (Option Symbol) := fresh [] (items.map (Item.next? g))

/-- The places of the items of a list that have the given symbol behind the dot. -/
def placesOf (items : List Item) (marker : Option Symbol) : List Nat :=
  items.zipIdx.filterMap fun (item, place) => if item.next? g = marker then some place else none

/-- The kernel of the state that the items of a list lead to across a symbol. -/
def kernelAfter (items : List Item) (symbol : Symbol) : Kernel :=
  sortDistinct Item.compare <|
    (items.filter fun item => item.next? g == some symbol).map Item.advance

/-- The kernels that one transition leads to from the state with a kernel. -/
def kernelsAfter (kernel : Kernel) : List Kernel :=
  let items := g.itemsOf a kernel
  (g.markersOf items).filterMap fun marker => marker.map (g.kernelAfter items)

/-- The number of items of the grammar. -/
def itemCount : Nat := g.rules.foldl (fun n rule => n + rule.body.length + 1) 0

/-- The kernels of all states, numbered in the order of their discovery. There are fewer states
than sets of items. -/
def kernels : Numbering Kernel :=
  exploreFrom (g.kernelsAfter a) (Nat.pow 2 g.itemCount + 1) initialKernel

end Grammar

end OperatorLALR
