import OperatorLALR.Index
import Std.Data.TreeMap

/-!
# Numberings

Distinct things, numbered from 0 in the order in which they came. A tree of the keys of the things
finds the number of each, and the type carries that the tree agrees with the list
(`number?_eq_some_iff`). So no thing has two numbers (`eq_of_getElem?`), and adding a thing that is
there already changes nothing.
-/

namespace OperatorLALR

/-- Things that are told apart by lists of numbers. -/
class Keyed (α : Type) where
  /-- The list of numbers of a thing. -/
  key : α → List Nat
  key_injective : ∀ {a b : α}, key a = key b → a = b

instance (kind : IndexKind) : Keyed (Index kind) where
  key i := [i.val]
  key_injective h := Index.ext (List.head_eq_of_cons_eq h)

/-- Distinct things in the order of their numbers. -/
structure Numbering (α : Type) [Keyed α] where
  /-- The numbers by the keys of the things. -/
  numbers : Std.TreeMap (List Nat) Nat
  /-- The things by their numbers. -/
  items : Array α
  numbers_iff : ∀ (x : α) (n : Nat), numbers[Keyed.key x]? = some n ↔ items[n]? = some x

namespace Numbering

variable {α : Type} [Keyed α]

/-- The numbering of nothing. -/
def empty : Numbering α := ⟨∅, #[], by simp⟩

/-- The number of a thing. -/
def number? (l : Numbering α) (x : α) : Option Nat := l.numbers[Keyed.key x]?

theorem number?_eq_some_iff {l : Numbering α} {x : α} {n : Nat} :
    l.number? x = some n ↔ l.items[n]? = some x := l.numbers_iff x n

/-- A thing has a number exactly if it is in the numbering. -/
theorem number?_eq_none_iff {l : Numbering α} {x : α} : l.number? x = none ↔ x ∉ l.items := by
  rw [Option.eq_none_iff_forall_ne_some, Array.mem_iff_getElem?]
  exact ⟨fun h ⟨n, hn⟩ => h n (number?_eq_some_iff.mpr hn),
    fun h n hn => h ⟨n, number?_eq_some_iff.mp hn⟩⟩

/-- Each thing is there under one number only. -/
theorem eq_of_getElem? {l : Numbering α} {x : α} {m n : Nat} (hm : l.items[m]? = some x)
    (hn : l.items[n]? = some x) : m = n := by
  have h := number?_eq_some_iff.mpr hm
  rw [number?_eq_some_iff.mpr hn] at h
  exact (Option.some.inj h).symm

theorem numbers_insert_iff {l : Numbering α} {x : α} (hx : l.number? x = none) (y : α) (n : Nat) :
    (l.numbers.insert (Keyed.key x) l.items.size)[Keyed.key y]? = some n ↔
      (l.items.push x)[n]? = some y := by
  rw [Std.TreeMap.getElem?_insert, Array.getElem?_push]
  simp only [Std.LawfulEqOrd.compare_eq_iff_eq]
  by_cases hkey : Keyed.key x = Keyed.key y
  · obtain rfl := Keyed.key_injective hkey
    rw [if_pos rfl, Option.some.injEq]
    by_cases hn : n = l.items.size
    · simp [hn]
    · rw [if_neg hn]
      refine ⟨fun h => absurd h.symm hn, fun h => ?_⟩
      rw [number?_eq_some_iff.mpr h] at hx
      exact absurd hx (by simp)
  · rw [if_neg hkey, l.numbers_iff]
    by_cases hn : n = l.items.size
    · rw [if_pos hn, Option.some.injEq]
      refine ⟨fun h => ?_, fun h => absurd (congrArg Keyed.key h) hkey⟩
      rw [Array.getElem?_eq_none (by omega)] at h
      exact absurd h (by simp)
    · rw [if_neg hn]

/-- The numbering with a thing added at the end, if it is new. -/
def add (l : Numbering α) (x : α) : Numbering α :=
  match h : l.number? x with
  | some _ => l
  | none => ⟨l.numbers.insert (Keyed.key x) l.items.size, l.items.push x, numbers_insert_iff h⟩

/-- The numbering with the things of a list added in order. -/
def addAll (l : Numbering α) (xs : List α) : Numbering α := xs.foldl add l

/-- The things of a list, numbered in order. -/
def ofList (xs : List α) : Numbering α := addAll empty xs

/-- The things in the order of their numbers. -/
def toList (l : Numbering α) : List α := l.items.toList

@[simp] theorem mem_toList {l : Numbering α} {x : α} : x ∈ l.toList ↔ x ∈ l.items :=
  Array.mem_toList_iff

theorem mem_add {l : Numbering α} {x y : α} : y ∈ (l.add x).items ↔ y ∈ l.items ∨ y = x := by
  rw [add]
  split
  · next n h =>
    have hx : x ∈ l.items := Array.mem_of_getElem? (number?_eq_some_iff.mp h)
    exact ⟨.inl, fun h => h.elim id fun h => h ▸ hx⟩
  · exact Array.mem_push

theorem mem_addAll {l : Numbering α} {xs : List α} {y : α} :
    y ∈ (l.addAll xs).items ↔ y ∈ l.items ∨ y ∈ xs := by
  induction xs generalizing l with
  | nil => simp [addAll]
  | cons x xs ih =>
    change y ∈ ((l.add x).addAll xs).items ↔ _
    rw [ih, mem_add, List.mem_cons, or_assoc]

/-- No thing is listed twice. -/
theorem nodup_toList (l : Numbering α) : l.toList.Nodup := by
  rw [List.Nodup, List.pairwise_iff_getElem]
  intro m n hm hn hlt heq
  refine absurd (eq_of_getElem? (l := l) (x := l.items[n]) (m := m) (n := n) ?_ ?_) (by omega)
  · exact Array.getElem?_eq_some_iff.mpr ⟨hm, heq⟩
  · exact Array.getElem?_eq_some_iff.mpr ⟨hn, rfl⟩

end Numbering

end OperatorLALR
