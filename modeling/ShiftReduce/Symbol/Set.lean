import ShiftReduce.Identifier

/-!
# Symbol/Set — sets of symbols

A set of symbols is a natural number whose bit `x` tells whether symbol `x` is in it.  Two sets are
then equal when they have the same elements (`ext`), and union is one operation on numbers.
-/

namespace ShiftReduce

/-- A set of symbols, as a pattern of bits. -/
structure SymbolSet where
  bits : Nat := 0
deriving DecidableEq, Repr, Inhabited

namespace SymbolSet

/-- The empty set. -/
def empty : SymbolSet := {}

instance : EmptyCollection SymbolSet := ⟨empty⟩

/-- Whether a symbol is in the set. -/
def contains (s : SymbolSet) (x : SymbolId) : Bool := s.bits.testBit x

instance : Membership SymbolId SymbolSet := ⟨fun s x => s.contains x = true⟩

instance (x : SymbolId) (s : SymbolSet) : Decidable (x ∈ s) :=
  inferInstanceAs (Decidable (s.contains x = true))

/-- The set of one symbol. -/
def singleton (x : SymbolId) : SymbolSet := ⟨1 <<< x⟩

/-- The elements of either set. -/
def union (s t : SymbolSet) : SymbolSet := ⟨s.bits ||| t.bits⟩

instance : Union SymbolSet := ⟨union⟩

/-- The set with one more symbol. -/
def insert (s : SymbolSet) (x : SymbolId) : SymbolSet := s ∪ singleton x

/-- The set without a symbol. -/
def erase (s : SymbolSet) (x : SymbolId) : SymbolSet :=
  if s.contains x then ⟨s.bits ^^^ 1 <<< x⟩ else s

/-- Adds the elements of `t` other than `excluded`, which is taken out again unless it was there. -/
def unionExcept (s t : SymbolSet) (excluded : SymbolId) : SymbolSet :=
  if s.contains excluded then s ∪ t else (s ∪ t).erase excluded

/-- The elements in increasing order. -/
def toList (s : SymbolSet) : List SymbolId := (List.range (s.bits.log2 + 1)).filter s.contains

/-- The number of elements. -/
def size (s : SymbolSet) : Nat := s.toList.length

def isEmpty (s : SymbolSet) : Bool := s.bits == 0

/-- The set of the symbols in a list. -/
def ofList (l : List SymbolId) : SymbolSet := l.foldl insert ∅

/-- The elements between braces, by number. -/
def render (s : SymbolSet) : String :=
  "\x7b" ++ ", ".intercalate (s.toList.map SymbolId.tag) ++ "\x7d"

/-! ## Membership -/

theorem mem_iff (s : SymbolSet) (x : SymbolId) : x ∈ s ↔ s.bits.testBit x = true := Iff.rfl

/-- **Sets with the same elements are equal.** -/
theorem ext {s t : SymbolSet} (h : ∀ x, x ∈ s ↔ x ∈ t) : s = t := by
  have hbits : s.bits = t.bits := Nat.eq_of_testBit_eq fun x => by
    have := h x
    rw [mem_iff, mem_iff] at this
    exact Bool.eq_iff_iff.2 this
  cases s; cases t; simp_all

@[simp] theorem not_mem_empty (x : SymbolId) : ¬ x ∈ (∅ : SymbolSet) := by
  simp [mem_iff, EmptyCollection.emptyCollection, empty]

@[simp] theorem mem_singleton (x y : SymbolId) : x ∈ singleton y ↔ x = y := by
  simp [mem_iff, singleton, Nat.one_shiftLeft, Nat.testBit_two_pow, eq_comm]

@[simp] theorem mem_union (s t : SymbolSet) (x : SymbolId) : x ∈ s ∪ t ↔ x ∈ s ∨ x ∈ t := by
  simp [mem_iff, Union.union, union]

@[simp] theorem mem_insert (s : SymbolSet) (x y : SymbolId) : x ∈ s.insert y ↔ x ∈ s ∨ x = y := by
  simp [insert]

@[simp] theorem mem_erase (s : SymbolSet) (x y : SymbolId) :
    x ∈ s.erase y ↔ x ∈ s ∧ x ≠ y := by
  unfold erase
  by_cases hy : s.contains y
  · by_cases hxy : x = y
    · subst hxy
      have : s.bits.testBit x = true := hy
      simp [hy, mem_iff, Nat.testBit_xor, Nat.one_shiftLeft, this]
    · simp [hy, mem_iff, Nat.testBit_xor, Nat.one_shiftLeft, hxy, Ne.symm hxy]
  · by_cases hxy : x = y
    · subst hxy
      have : s.bits.testBit x = false := by simpa [contains] using hy
      simp [hy, mem_iff, this]
    · simp [hy, hxy]

@[simp] theorem mem_unionExcept (s t : SymbolSet) (x y : SymbolId) :
    x ∈ s.unionExcept t y ↔ x ∈ s ∨ (x ∈ t ∧ x ≠ y) := by
  unfold unionExcept
  by_cases hxy : x = y
  · subst hxy
    split
    · next hx => simp [show x ∈ s from hx]
    · next hx => simp [show ¬ x ∈ s from hx]
  · split <;> simp [hxy]

@[simp] theorem mem_toList (s : SymbolSet) (x : SymbolId) : x ∈ s.toList ↔ x ∈ s := by
  simp only [toList, List.mem_filter, List.mem_range, mem_iff, contains, and_iff_right_iff_imp]
  intro h
  have hle : 2 ^ x ≤ s.bits := Nat.ge_two_pow_of_testBit h
  have hne : s.bits ≠ 0 := by intro h0; simp [h0] at h
  exact Nat.lt_succ_of_le ((Nat.le_log2 hne).2 hle)

end SymbolSet
end ShiftReduce
