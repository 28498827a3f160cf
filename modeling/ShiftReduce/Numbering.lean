import Std.Data.TreeMap

/-!
# Numbering — distinct values in order of arrival

A numbering gives the values that it is handed the numbers 0, 1, 2, … in order of arrival, one
number to each value.  It answers both ways: `value?` gives the value of a number, `number?` the
number of a value, and the invariant `index_iff` says that each is the other's inverse.
-/

namespace ShiftReduce

/-- Distinct values, numbered from zero in order of arrival. -/
structure Numbering (α : Type) [Ord α] where
  index : Std.TreeMap α Nat
  values : Array α
  index_iff : ∀ (a : α) (i : Nat), index[a]? = some i ↔ values[i]? = some a

namespace Numbering

variable {α : Type} [Ord α]

/-- How many values are numbered. -/
def size (n : Numbering α) : Nat := n.values.size

/-- The number of a value. -/
def number? (n : Numbering α) (a : α) : Option Nat := n.index[a]?

/-- The value of a number. -/
def value? (n : Numbering α) (i : Nat) : Option α := n.values[i]?

/-- The values in order. -/
def toList (n : Numbering α) : List α := n.values.toList

theorem number?_eq_some_iff (n : Numbering α) {a : α} {i : Nat} :
    n.number? a = some i ↔ n.value? i = some a := n.index_iff a i

theorem value?_number? (n : Numbering α) {a : α} {i : Nat} (h : n.number? a = some i) :
    n.value? i = some a := n.number?_eq_some_iff.1 h

theorem number?_value? (n : Numbering α) {a : α} {i : Nat} (h : n.value? i = some a) :
    n.number? a = some i := n.number?_eq_some_iff.2 h

theorem lt_size_of_number? (n : Numbering α) {a : α} {i : Nat} (h : n.number? a = some i) :
    i < n.size := by
  have h := n.value?_number? h
  unfold value? at h
  exact (Array.getElem?_eq_some_iff.1 h).1

variable [Std.TransOrd α]

/-- No values. -/
def empty : Numbering α where
  index := ∅
  values := #[]
  index_iff := by simp

variable [Std.LawfulEqOrd α]

/-- Gives a new value the next number. -/
def push (n : Numbering α) (a : α) (fresh : n.number? a = none) : Numbering α where
  index := n.index.insert a n.values.size
  values := n.values.push a
  index_iff b i := by
    have hb := n.index_iff b i
    have ha := n.index_iff a i
    rw [Std.TreeMap.getElem?_insert, Array.getElem?_push]
    by_cases hab : a = b
    · subst hab
      have hni : ¬ n.values[i]? = some a := fun h => by
        have := ha.2 h
        simp [show n.index[a]? = none from fresh] at this
      by_cases hi : i = n.values.size
      · simp [hi]
      · simp [hi, hni, Ne.symm hi]
    · by_cases hi : i = n.values.size
      · subst hi
        have hout : n.values[n.values.size]? = none := Array.getElem?_eq_none (Nat.le_refl _)
        simpa [hab, hout] using hb
      · simpa [hab, hi] using hb

theorem value?_push (n : Numbering α) (a : α) (fresh : n.number? a = none) (i : Nat) :
    (n.push a fresh).value? i = if i = n.size then some a else n.value? i :=
  Array.getElem?_push

@[simp] theorem size_push (n : Numbering α) (a : α) (fresh : n.number? a = none) :
    (n.push a fresh).size = n.size + 1 := Array.size_push _

theorem number?_push (n : Numbering α) (a b : α) (fresh : n.number? a = none) :
    (n.push a fresh).number? b = if compare a b = .eq then some n.size else n.number? b :=
  Std.TreeMap.getElem?_insert

/-- Numbers a value unless it has a number already. -/
def insert (n : Numbering α) (a : α) : Numbering α :=
  match h : n.number? a with
  | some _ => n
  | none => n.push a h

/-- The values of a list, numbered at their first occurrences. -/
def ofList (l : List α) : Numbering α := l.foldl insert empty

end Numbering
end ShiftReduce
