import Mathlib.Data.List.Nodup
import ShiftReduce.Proofs.Except
import ShiftReduce.Symbol.Registry

/-!
# Proofs/Registry — what registering symbols keeps

A registry is `Made` by starting from one of the two initial registries and registering any names.
Every registration keeps the names of the symbols registered before (`Extends`), so the two reserved
terminals keep their numbers for ever (`Made.endOfInput`, `Made.epsilon`).
-/

namespace ShiftReduce

namespace Numbering

variable {α : Type} [Ord α]

theorem lt_size_of_value? {n : Numbering α} {a : α} {i : Nat} (h : n.value? i = some a) :
    i < n.size := n.lt_size_of_number? (n.number?_value? h)

/-- A value has one number. -/
theorem eq_of_value?_eq {n : Numbering α} {a : α} {i j : Nat} (hi : n.value? i = some a)
    (hj : n.value? j = some a) : i = j :=
  Option.some.inj ((n.number?_value? hi).symm.trans (n.number?_value? hj))

/-- Values are listed in the order of their numbers. -/
theorem getElem?_toList (n : Numbering α) (i : Nat) : n.toList[i]? = n.value? i :=
  Array.getElem?_toList

/-- The values that have numbers are listed, and no others. -/
theorem mem_toList {n : Numbering α} {a : α} : a ∈ n.toList ↔ ∃ i, n.value? i = some a := by
  simp only [List.mem_iff_getElem?, getElem?_toList]

/-- No value is numbered twice. -/
theorem nodup_toList (n : Numbering α) : n.toList.Nodup := by
  refine List.nodup_iff_getElem?_ne_getElem?.2 fun i j hij hj heq => ?_
  have hvalue : n.value? j = some n.toList[j] := by
    rw [← getElem?_toList, List.getElem?_eq_getElem hj]
  rw [getElem?_toList, getElem?_toList, hvalue] at heq
  exact Nat.ne_of_lt hij (eq_of_value?_eq heq hvalue)

variable [Std.TransOrd α] [Std.LawfulEqOrd α]

/-- The numbers given out stay. -/
theorem value?_push_of_some {n : Numbering α} {a b : α} (fresh : n.number? a = none) {i : Nat}
    (h : n.value? i = some b) : (n.push a fresh).value? i = some b := by
  rw [value?_push, if_neg (Nat.ne_of_lt (lt_size_of_value? h)), h]

/-- A new value gets the next number. -/
theorem value?_push_size {n : Numbering α} {a : α} (fresh : n.number? a = none) :
    (n.push a fresh).value? n.size = some a := by rw [value?_push, if_pos rfl]

end Numbering

namespace Registry

/-! ## Extensions -/

/-- The second registry has the symbols of the first, under the same numbers. -/
structure Extends (r r' : Registry) : Prop where
  name : ∀ x n, r.name? x = some n → r'.name? x = some n
  terminalCount_le : r.terminalCount ≤ r'.terminalCount

theorem Extends.refl (r : Registry) : Extends r r := ⟨fun _ _ h => h, Nat.le_refl _⟩

theorem Extends.trans {r r' r'' : Registry} (h : Extends r r') (h' : Extends r' r'') :
    Extends r r'' :=
  ⟨fun x n hn => h'.name x n (h.name x n hn), Nat.le_trans h.terminalCount_le h'.terminalCount_le⟩

/-- Whether a terminal is new, known or refused, no symbol changes its number. -/
theorem extends_addTerminal (r : Registry) (name : String) :
    Extends r (r.addTerminal name).2 := by
  unfold addTerminal
  split
  · exact .refl r
  · next fresh =>
    split
    · exact .refl r
    · split
      · exact .refl r
      · exact ⟨fun _ _ h => Numbering.value?_push_of_some fresh h, Nat.le_succ _⟩

theorem extends_addReserved (r : Registry) (lexeme : String) :
    Extends r (r.addReserved lexeme).2 := by
  unfold addReserved
  split
  · exact .refl r
  · split
    · have h := extends_addTerminal r lexeme
      split
      · next hr => rwa [hr] at h
      · next hr => rwa [hr] at h
    · exact .refl r

/-- The same holds for a nonterminal. -/
theorem extends_addNonterminal (r : Registry) (name : String) :
    Extends r (r.addNonterminal name).2 := by
  unfold addNonterminal
  split
  · exact .refl r
  · next fresh =>
    split
    · exact .refl r
    · exact ⟨fun _ _ h => Numbering.value?_push_of_some fresh h, Nat.le_refl _⟩

/-- The symbols of nonterminals are registered, and are no terminals. -/
theorem addNonterminal_ok {r r' : Registry} {name : String} {x : SymbolId}
    (h : r.addNonterminal name = (.ok x, r')) :
    r'.name? x = some name ∧ r'.terminalCount = r.terminalCount ∧ r.terminalCount ≤ x := by
  unfold addNonterminal at h
  split at h
  · next y hy =>
    simp only [Prod.mk.injEq] at h
    obtain ⟨h, rfl⟩ := h
    split at h
    · exact absurd h (by simp)
    · next ht =>
      obtain rfl : y = x := Except.ok.inj h
      refine ⟨r.names.value?_number? hy, rfl, ?_⟩
      simpa [isTerminal] using ht
  · next hfresh =>
    split at h
    · exact absurd h (by simp)
    · simp only [Prod.mk.injEq, Except.ok.injEq] at h
      obtain ⟨rfl, rfl⟩ := h
      exact ⟨Numbering.value?_push_size hfresh, rfl, r.terminalCount_le⟩

theorem lt_size_of_name? {r : Registry} {x : SymbolId} {n : String} (h : r.name? x = some n) :
    x < r.size := Numbering.lt_size_of_value? h

/-- A terminal is below the number of terminals. -/
theorem lt_of_terminal? {r : Registry} {name : String} {x : SymbolId}
    (h : r.terminal? name = some x) : x < r.terminalCount := by
  obtain ⟨-, ht⟩ := Option.filter_eq_some_iff.1 h
  simpa [isTerminal] using ht

/-- The terminal of a name that a terminal has. -/
theorem terminal?_of_name? {r : Registry} {name : String} {x : SymbolId}
    (h : r.name? x = some name) (hx : x < r.terminalCount) : r.terminal? name = some x := by
  refine Option.filter_eq_some_iff.2 ⟨r.names.number?_value? h, ?_⟩
  simpa [isTerminal] using hx

/-! ## Histories -/

/-- The registries that can be made. -/
inductive Made : Registry → Prop
  | standard : Made .standard
  | withTerminals {names : List String} {r : Registry} (h : withTerminals names = .ok r) : Made r
  | addTerminal {r : Registry} (h : Made r) (name : String) : Made (r.addTerminal name).2
  | addReserved {r : Registry} (h : Made r) (lexeme : String) : Made (r.addReserved lexeme).2
  | addNonterminal {r : Registry} (h : Made r) (name : String) : Made (r.addNonterminal name).2

/-- Every registry of terminals is made from the two reserved ones. -/
theorem extends_of_withTerminals {names : List String} {r : Registry}
    (h : withTerminals names = .ok r) : Extends bare r := by
  unfold withTerminals at h
  refine Except.foldlM_induction (fun name _ r r' he hr => ?_) (.refl bare) h
  have hadd := extends_addTerminal r name
  split at hr
  · next hr' =>
    obtain rfl := Except.ok.inj hr
    rw [hr'] at hadd
    exact he.trans hadd
  · cases hr

/-- A registry with the two reserved terminals under their numbers. -/
structure Reserves (r : Registry) : Prop where
  endOfInput : r.name? SymbolId.endOfInput = some Terminal.endOfInput
  epsilon : r.name? SymbolId.epsilon = some Terminal.epsilon
  two_le : 2 ≤ r.terminalCount

/-- The reserved terminals keep their numbers. -/
theorem Reserves.of_extends {r r' : Registry} (h : Reserves r) (he : Extends r r') :
    Reserves r' :=
  ⟨he.name _ _ h.endOfInput, he.name _ _ h.epsilon, Nat.le_trans h.two_le he.terminalCount_le⟩

theorem reserves_standard : Reserves .standard := ⟨by decide +kernel, by decide +kernel,
  by decide +kernel⟩

theorem reserves_bare : Reserves .bare := ⟨by decide +kernel, by decide +kernel, by decide +kernel⟩

/-- **The reserved terminals keep their numbers** in every registry that can be made. -/
theorem Made.reserves {r : Registry} (h : Made r) : Reserves r := by
  induction h with
  | standard => exact reserves_standard
  | withTerminals h => exact reserves_bare.of_extends (extends_of_withTerminals h)
  | addTerminal _ name ih => exact ih.of_extends (extends_addTerminal _ name)
  | addReserved _ lexeme ih => exact ih.of_extends (extends_addReserved _ lexeme)
  | addNonterminal _ name ih => exact ih.of_extends (extends_addNonterminal _ name)

theorem Reserves.endOfInput_lt {r : Registry} (h : Reserves r) :
    SymbolId.endOfInput < r.terminalCount := Nat.lt_of_lt_of_le (by decide) h.two_le

/-- The terminal of end tokens. -/
theorem Reserves.terminal?_endOfInput {r : Registry} (h : Reserves r) :
    r.terminal? Terminal.endOfInput = some SymbolId.endOfInput :=
  terminal?_of_name? h.endOfInput h.endOfInput_lt

/-! ## The numbers given out -/

/-- A registration is refused when the numbers are used up. -/
theorem size_addTerminal_le {r : Registry} (h : r.size ≤ indexSpace) (name : String) :
    (r.addTerminal name).2.size ≤ indexSpace := by
  unfold addTerminal
  split
  · exact h
  · split
    · exact h
    · split
      · exact h
      · next hfull =>
        simp only [isFull, decide_eq_true_eq, Nat.not_le] at hfull
        rw [size, Numbering.size_push]
        exact hfull

theorem size_addReserved_le {r : Registry} (h : r.size ≤ indexSpace) (lexeme : String) :
    (r.addReserved lexeme).2.size ≤ indexSpace := by
  have hadd := size_addTerminal_le h lexeme
  unfold addReserved
  split
  · exact h
  · split
    · split
      · next hr => rwa [hr] at hadd
      · next hr => rwa [hr] at hadd
    · exact h

theorem size_addNonterminal_le {r : Registry} (h : r.size ≤ indexSpace) (name : String) :
    (r.addNonterminal name).2.size ≤ indexSpace := by
  unfold addNonterminal
  split
  · exact h
  · split
    · exact h
    · next hfull =>
      simp only [isFull, decide_eq_true_eq, Nat.not_le] at hfull
      rw [size, Numbering.size_push]
      exact hfull

/-- **A registry gives out no number beyond the space for numbers.** -/
theorem Made.size_le {r : Registry} (h : r.Made) : r.size ≤ indexSpace := by
  induction h with
  | standard => decide +kernel
  | withTerminals h =>
    unfold Registry.withTerminals at h
    refine Except.foldlM_induction (p := fun r => r.size ≤ indexSpace)
      (fun name _ r r' hr h => ?_) (by decide +kernel) h
    have hadd := size_addTerminal_le hr name
    split at h
    · next hr' =>
      obtain rfl := Except.ok.inj h
      rwa [hr'] at hadd
    · exact nomatch h
  | addTerminal _ name ih => exact size_addTerminal_le ih name
  | addReserved _ lexeme ih => exact size_addReserved_le ih lexeme
  | addNonterminal _ name ih => exact size_addNonterminal_le ih name

end Registry
end ShiftReduce
