import Mathlib.Data.Finset.Prod
import Mathlib.Data.Finset.Card
import Mathlib.Data.List.Perm.Subperm
import ShiftReduce.Analysis
import ShiftReduce.Proofs.Derivation
import ShiftReduce.Proofs.Distinct
import ShiftReduce.Proofs.FixedPoint

/-!
# Proofs/Analysis — the analysis is exact

The three passes of a round work on sets that the other two have just changed, and a round tells
that it has added something by the sizes of the sets.  Both are harmless: rounds only go up
(`climbs_round`), they never add what the inequalities do not ask for (`Sound.round`), and they end
(`repeats_compute`) where nothing that is asked for is missing.  So the sets are exact:

* `mem_nullable_iff` — the nullable symbols are those that vanish;
* `mem_firstOf_iff`, `firstOf_snd_iff` — what begins a sequence, and whether it vanishes;
* `mem_followSet_iff` — the follow sets solve the follow-set inequalities.

`compute_exact` says the same in terms of derivations.
-/

namespace ShiftReduce

/-! ## Sizes of sets -/

namespace SymbolSet

/-- Inclusion of sets of symbols. -/
def Included (s t : SymbolSet) : Prop := ∀ x ∈ s, x ∈ t

instance : IsPartialOrder SymbolSet Included where
  refl _ _ h := h
  trans _ _ _ h h' x hx := h' x (h x hx)
  antisymm _ _ h h' := SymbolSet.ext fun x => ⟨h x, h' x⟩

theorem nodup_toList (s : SymbolSet) : s.toList.Nodup := List.nodup_range.filter _

/-- **Sets grow in size**: a larger set is the same one if it has as many elements. -/
theorem Included.size_eq_iff {s t : SymbolSet} (h : Included s t) : t.size = s.size ↔ t = s := by
  refine ⟨fun hsize => ?_, congrArg size⟩
  have hsub : s.toList.Subperm t.toList :=
    List.subperm_of_subset s.nodup_toList fun x hx => (mem_toList ..).2 (h x ((mem_toList ..).1 hx))
  have hperm := hsub.perm_of_length_le hsize.le
  exact SymbolSet.ext fun x => by rw [← mem_toList, ← mem_toList, hperm.mem_iff]

theorem included_union (s t : SymbolSet) : Included s (s ∪ t) :=
  fun _ h => (mem_union ..).2 (.inl h)

theorem included_unionExcept (s t : SymbolSet) (x : SymbolId) : Included s (s.unionExcept t x) :=
  fun _ h => (mem_unionExcept ..).2 (.inl h)

end SymbolSet

open SymbolSet

namespace Analysis

open ShiftReduce.Derivation FixedPoint

variable {P : List Production} {symbolCount terminalCount : Nat} {t : SymbolId}

/-- The productions are over the symbols below `symbolCount` and rewrite nonterminals only. -/
structure Within (P : List Production) (symbolCount terminalCount : Nat) : Prop where
  lhs_lt : ∀ p ∈ P, p.lhs < symbolCount
  le_lhs : ∀ p ∈ P, terminalCount ≤ p.lhs
  rhs_lt : ∀ p ∈ P, ∀ x ∈ p.rhs, x < symbolCount

/-! ## Arrays of sets -/

theorem setOf_of_le {sets : Array SymbolSet} {x : SymbolId} (h : sets.size ≤ x) :
    setOf sets x = ∅ := by
  rw [setOf, Array.getElem?_eq_none h]
  rfl

theorem lt_size_of_mem {sets : Array SymbolSet} {x : SymbolId} (h : t ∈ setOf sets x) :
    x < sets.size := by
  refine Nat.lt_of_not_le fun hx => SymbolSet.not_mem_empty t ?_
  rwa [setOf_of_le hx] at h

/-- The second array has the elements of the first, set by set. -/
def Grows (sets sets' : Array SymbolSet) : Prop :=
  sets.size = sets'.size ∧ ∀ x t, t ∈ setOf sets x → t ∈ setOf sets' x

/-- Arrays with the same sets are equal. -/
theorem ext_setOf {sets sets' : Array SymbolSet} (hs : sets.size = sets'.size)
    (h : ∀ x t, t ∈ setOf sets x ↔ t ∈ setOf sets' x) : sets = sets' := by
  refine Array.ext hs fun x hx hx' => ?_
  have := SymbolSet.ext (h x)
  rwa [setOf, setOf, Array.getElem?_eq_getElem hx, Array.getElem?_eq_getElem hx'] at this

instance : IsPartialOrder (Array SymbolSet) Grows where
  refl _ := ⟨rfl, fun _ _ h => h⟩
  trans _ _ _ h h' := ⟨h.1.trans h'.1, fun x t ht => h'.2 x t (h.2 x t ht)⟩
  antisymm _ _ h h' := ext_setOf h.1 fun x t => ⟨h.2 x t, h'.2 x t⟩

section Enlarge

variable {sets : Array SymbolSet} {f : SymbolSet → SymbolSet} {x : SymbolId}

theorem size_enlarge : (enlarge sets x f).1.size = sets.size := by
  unfold enlarge
  split <;> simp

theorem setOf_enlarge (y : SymbolId) : setOf (enlarge sets x f).1 y =
    if x = y ∧ y < sets.size then f (setOf sets y) else setOf sets y := by
  unfold enlarge
  split
  · next hx =>
    have hx := Array.getElem?_eq_none_iff.1 hx
    rw [if_neg]
    rintro ⟨rfl, hlt⟩
    exact absurd hlt (Nat.not_lt_of_le hx)
  · next old hx =>
    obtain ⟨hlt, rfl⟩ := Array.getElem?_eq_some_iff.1 hx
    rw [setOf, setOf, Array.getElem?_setIfInBounds]
    by_cases hxy : x = y
    · subst hxy
      simp [hlt]
    · simp [hxy]

/-- What is asked for is added, and nothing else. -/
theorem enlarge_induction {q : SymbolId → SymbolId → Prop}
    (hq : ∀ t ∈ f (setOf sets x), q x t) (hs : ∀ y t, t ∈ setOf sets y → q y t) :
    ∀ y t, t ∈ setOf (enlarge sets x f).1 y → q y t := by
  intro y t ht
  rw [setOf_enlarge] at ht
  split at ht
  · next hy =>
    obtain ⟨rfl, -⟩ := hy
    exact hq t ht
  · exact hs y t ht

theorem setOf_eq_of_enlarge_eq (h : (enlarge sets x f).1 = sets) (hx : x < sets.size) :
    f (setOf sets x) = setOf sets x := by
  have hset : setOf (enlarge sets x f).1 x = _ := setOf_enlarge x
  rwa [h, if_pos ⟨rfl, hx⟩, eq_comm] at hset

/-- **Enlarging a set is a climbing step.** -/
theorem climbs_enlarge {f : Array SymbolSet → SymbolSet → SymbolSet}
    (hf : ∀ sets s, Included s (f sets s)) (x : SymbolId) :
    Climbs Grows fun sets => enlarge sets x (f sets) := by
  have hle (sets : Array SymbolSet) : Grows sets (enlarge sets x (f sets)).1 := by
    refine ⟨size_enlarge.symm, fun y t ht => ?_⟩
    rw [setOf_enlarge]
    split
    · exact hf sets _ t ht
    · exact ht
  refine ⟨hle, fun sets => ?_⟩
  cases hx : sets[x]? with
  | none => simp [enlarge, hx]
  | some old =>
    obtain ⟨hlt, rfl⟩ := Array.getElem?_eq_some_iff.1 hx
    have hset : setOf sets x = sets[x] := by rw [setOf, hx, Option.getD_some]
    have hflag : (enlarge sets x (f sets)).2 = false ↔ f sets sets[x] = sets[x] := by
      rw [← (hf sets sets[x]).size_eq_iff]
      simp [enlarge, hx]
    rw [hflag]
    constructor
    · intro h
      have := setOf_eq_of_enlarge_eq h hlt
      rwa [hset] at this
    · intro h
      refine ext_setOf size_enlarge fun y t => ?_
      rw [setOf_enlarge]
      split
      · next hy =>
        obtain ⟨rfl, -⟩ := hy
        rw [hset, h]
      · exact Iff.rfl

end Enlarge

/-! ## The nullable pass -/

theorem climbs_nullableStep (p : Production) : Climbs Included (nullableStep · p) := by
  refine ⟨fun s x hx => ?_, fun s => ?_⟩ <;> unfold nullableStep <;> split
  · exact (mem_insert ..).2 (.inl hx)
  · exact hx
  · next h =>
    simp only [Bool.and_eq_true, Bool.not_eq_true'] at h
    refine iff_of_false (fun hs => ?_) (by simp)
    have hlhs : p.lhs ∈ s := hs ▸ (mem_insert ..).2 (.inr rfl)
    exact absurd hlhs (Bool.eq_false_iff.1 h.1)
  · exact iff_of_true rfl rfl

theorem climbs_nullablePass : Climbs Included (nullablePass P) := climbs_pass climbs_nullableStep P

/-- What right-hand sides pass on to left-hand sides, a pass keeps. -/
theorem nullablePass_induction {q : SymbolId → Prop}
    (hq : ∀ p ∈ P, (∀ x ∈ p.rhs, q x) → q p.lhs) {s : SymbolSet} (hs : ∀ x ∈ s, q x) :
    ∀ x ∈ (nullablePass P s).1, q x := by
  refine pass_induction (p := fun s : SymbolSet => ∀ x ∈ s, q x) (fun p hp s hs => ?_) hs
  unfold nullableStep
  split
  · next h =>
    have hall := (Bool.and_eq_true _ _ ▸ h).2
    intro x hx
    rcases (mem_insert ..).1 hx with hx | rfl
    · exact hs x hx
    · exact hq p hp fun y hy => hs y (List.all_eq_true.1 hall y hy)
  · exact hs

/-- Where a pass adds nothing, every left-hand side is nullable that should be. -/
theorem mem_of_nullablePass_eq {s : SymbolSet} (h : (nullablePass P s).1 = s) {p : Production}
    (hp : p ∈ P) (hrhs : ∀ x ∈ p.rhs, x ∈ s) : p.lhs ∈ s := by
  have hstep := (climbs_nullableStep p).eq_iff s |>.1
    (step_eq_of_pass_eq climbs_nullableStep h p hp)
  have hall : p.rhs.all s.contains = true := List.all_eq_true.2 hrhs
  by_contra hlhs
  have hlhs : s.contains p.lhs = false := Bool.eq_false_iff.2 hlhs
  simp [nullableStep, hall, hlhs] at hstep

/-! ## The first pass -/

variable {nullable : SymbolSet} {first : Array SymbolSet}

/-- The second component of `firstOfSequence` is whether the whole sequence is nullable. -/
theorem firstOfSequence_snd_iff {xs : List SymbolId} :
    (firstOfSequence nullable first xs).2 = true ↔ ∀ x ∈ xs, x ∈ nullable := by
  induction xs with
  | nil => simp [firstOfSequence]
  | cons x xs ih =>
    rw [firstOfSequence, List.forall_mem_cons]
    split
    · next hx => exact ih.trans (and_iff_right hx).symm
    · next hx => simp only [Bool.false_eq_true, false_iff, not_and]; exact fun h => absurd h hx

/-- What begins a sequence begins its first symbol, or what is behind it if that is nullable. -/
theorem mem_firstOfSequence_cons {x : SymbolId} {xs : List SymbolId} :
    t ∈ (firstOfSequence nullable first (x :: xs)).1 ↔
      (t ∈ setOf first x ∧ t ≠ SymbolId.epsilon) ∨
        (x ∈ nullable ∧ t ∈ (firstOfSequence nullable first xs).1) := by
  rw [firstOfSequence]
  split
  · next hx =>
    have hx : x ∈ nullable := hx
    simp [hx]
  · next hx =>
    have hx : ¬ x ∈ nullable := hx
    simp [hx]

/-- Elements of the sets of a sequence's symbols have what its first set has. -/
theorem firstOfSequence_induction {q : SymbolId → Prop} (h : ∀ x t, t ∈ setOf first x → q t)
    {xs : List SymbolId} : ∀ t ∈ (firstOfSequence nullable first xs).1, q t := by
  induction xs with
  | nil => exact fun t ht => absurd ht (not_mem_empty t)
  | cons x xs ih =>
    intro t ht
    rcases mem_firstOfSequence_cons.1 ht with ⟨ht, -⟩ | ⟨-, ht⟩
    · exact h x t ht
    · exact ih t ht

theorem not_mem_epsilon_firstOfSequence (xs : List SymbolId) :
    ¬ SymbolId.epsilon ∈ (firstOfSequence nullable first xs).1 := by
  induction xs with
  | nil => exact not_mem_empty _
  | cons x xs ih =>
    rw [mem_firstOfSequence_cons]
    rintro (⟨-, h⟩ | ⟨-, h⟩)
    · exact h rfl
    · exact ih h

theorem mem_firstAsked {p : Production} : t ∈ firstAsked nullable first p ↔
    t ∈ (firstOfSequence nullable first p.rhs).1 ∨
      t = SymbolId.epsilon ∧ ∀ x ∈ p.rhs, x ∈ nullable := by
  have hall : (firstOfSequence nullable first p.rhs).2 = true ↔ ∀ x ∈ p.rhs, x ∈ nullable :=
    firstOfSequence_snd_iff
  rw [← hall]
  unfold firstAsked
  by_cases h : (firstOfSequence nullable first p.rhs).2 = true
  · simp [h]
  · simp [h]

theorem climbs_firstStep (p : Production) : Climbs Grows (firstStep nullable · p) :=
  climbs_enlarge (fun _ s => included_union s _) p.lhs

theorem climbs_firstPass : Climbs Grows (firstPass nullable P) := climbs_pass climbs_firstStep P

/-- What the elements that a production asks for have, a pass keeps. -/
theorem firstPass_induction {q : SymbolId → SymbolId → Prop}
    (hq : ∀ p ∈ P, ∀ sets : Array SymbolSet, (∀ x t, t ∈ setOf sets x → q x t) →
      ∀ t ∈ firstAsked nullable sets p, q p.lhs t)
    {sets : Array SymbolSet} (hs : ∀ x t, t ∈ setOf sets x → q x t) :
    ∀ x t, t ∈ setOf (firstPass nullable P sets).1 x → q x t := by
  refine pass_induction (p := fun sets : Array SymbolSet => ∀ x t, t ∈ setOf sets x → q x t)
    (fun p hp sets hs => enlarge_induction (fun t ht => ?_) hs) hs
  rcases (mem_union ..).1 ht with ht | ht
  · exact hs p.lhs t ht
  · exact hq p hp sets hs t ht

/-- Where a pass adds nothing, every first set has what it should. -/
theorem mem_of_firstPass_eq {sets : Array SymbolSet} (h : (firstPass nullable P sets).1 = sets)
    {p : Production} (hp : p ∈ P) (hlt : p.lhs < sets.size) (ht : t ∈ firstAsked nullable sets p) :
    t ∈ setOf sets p.lhs := by
  have hstep := step_eq_of_pass_eq climbs_firstStep h p hp
  rw [← setOf_eq_of_enlarge_eq hstep hlt]
  exact (mem_union ..).2 (.inr ht)

/-! ## The follow pass -/

variable {lhs : SymbolId} {follow : Array SymbolSet}

theorem mem_occurrences {x : SymbolId} {xs rest : List SymbolId} :
    (x, rest) ∈ occurrences xs ↔ ∃ before, xs = before ++ x :: rest := by
  induction xs with
  | nil => simp [occurrences]
  | cons y ys ih =>
    rw [occurrences, List.mem_cons, ih]
    constructor
    · rintro (h | ⟨before, rfl⟩)
      · obtain ⟨rfl, rfl⟩ := Prod.mk.inj h
        exact ⟨[], rfl⟩
      · exact ⟨y :: before, rfl⟩
    · rintro ⟨_ | ⟨z, before⟩, h⟩
      · obtain ⟨rfl, rfl⟩ := List.cons.inj h
        exact .inl rfl
      · exact .inr ⟨before, (List.cons.inj h).2⟩

theorem mem_followAsked {rest : List SymbolId} :
    t ∈ followAsked nullable first lhs rest follow ↔
      t ∈ (firstOfSequence nullable first rest).1 ∨
        (∀ x ∈ rest, x ∈ nullable) ∧ t ∈ setOf follow lhs := by
  have hall : (firstOfSequence nullable first rest).2 = true ↔ ∀ x ∈ rest, x ∈ nullable :=
    firstOfSequence_snd_iff
  rw [← hall]
  unfold followAsked
  by_cases h : (firstOfSequence nullable first rest).2 = true
  · simp [h]
  · simp [h]

theorem climbs_followStep (occurrence : SymbolId × List SymbolId) :
    Climbs Grows (followStep terminalCount nullable first lhs · occurrence) := by
  obtain ⟨x, rest⟩ := occurrence
  unfold followStep
  by_cases hx : x < terminalCount
  · simp only [hx, if_true]
    exact ⟨refl_of Grows, fun _ => iff_of_true rfl rfl⟩
  · simp only [hx, if_false]
    exact climbs_enlarge (fun _ s => included_unionExcept s _ _) x

theorem climbs_followRight (p : Production) :
    Climbs Grows (followRight terminalCount nullable first · p) :=
  climbs_pass climbs_followStep (occurrences p.rhs)

theorem climbs_followPass : Climbs Grows (followPass terminalCount nullable first P) :=
  climbs_pass climbs_followRight P

/-- What the elements that an occurrence asks for have, a pass keeps. -/
theorem followPass_induction {q : SymbolId → SymbolId → Prop}
    (hq : ∀ p ∈ P, ∀ (before : List SymbolId) (x : SymbolId) (rest : List SymbolId),
      p.rhs = before ++ x :: rest → terminalCount ≤ x →
      ∀ sets : Array SymbolSet, (∀ x t, t ∈ setOf sets x → q x t) →
      ∀ t ∈ followAsked nullable first p.lhs rest sets, t ≠ SymbolId.epsilon → q x t)
    {sets : Array SymbolSet} (hs : ∀ x t, t ∈ setOf sets x → q x t) :
    ∀ x t, t ∈ setOf (followPass terminalCount nullable first P sets).1 x → q x t := by
  refine pass_induction (p := fun sets : Array SymbolSet => ∀ x t, t ∈ setOf sets x → q x t)
    (fun p hp sets hs => ?_) hs
  refine pass_induction (p := fun sets : Array SymbolSet => ∀ x t, t ∈ setOf sets x → q x t)
    (fun occurrence hmem sets hs => ?_) hs
  obtain ⟨x, rest⟩ := occurrence
  obtain ⟨before, hrhs⟩ := mem_occurrences.1 hmem
  unfold followStep
  dsimp only
  split
  · exact hs
  · next hx =>
    refine enlarge_induction (fun t ht => ?_) hs
    rcases (mem_unionExcept ..).1 ht with ht | ⟨ht, hε⟩
    · exact hs x t ht
    · exact hq p hp before x rest hrhs (Nat.le_of_not_lt hx) sets hs t ht hε

/-- Where a pass adds nothing, every follow set has what it should. -/
theorem mem_of_followPass_eq {sets : Array SymbolSet}
    (h : (followPass terminalCount nullable first P sets).1 = sets) {p : Production} (hp : p ∈ P)
    {before rest : List SymbolId} {x : SymbolId} (hrhs : p.rhs = before ++ x :: rest)
    (hx : terminalCount ≤ x) (hlt : x < sets.size) (hε : t ≠ SymbolId.epsilon)
    (ht : t ∈ followAsked nullable first p.lhs rest sets) : t ∈ setOf sets x := by
  have hright := step_eq_of_pass_eq climbs_followRight h p hp
  have hstep := step_eq_of_pass_eq climbs_followStep hright (x, rest)
    (mem_occurrences.2 ⟨before, hrhs⟩)
  rw [followStep, if_neg (Nat.not_lt_of_le hx)] at hstep
  rw [← setOf_eq_of_enlarge_eq hstep hlt]
  exact (mem_unionExcept ..).2 (.inr ⟨ht, hε⟩)

/-! ## Rounds -/

/-- The second analysis is of the same productions, and its sets have the elements of the first. -/
structure Below (a a' : Analysis) : Prop where
  terminalCount : a.terminalCount = a'.terminalCount
  nullable : Included a.nullable a'.nullable
  first : Grows a.first a'.first
  follow : Grows a.follow a'.follow
  rules : a.rules = a'.rules

theorem eq_of_parts {a a' : Analysis} (terminalCount : a.terminalCount = a'.terminalCount)
    (nullable : a.nullable = a'.nullable) (first : a.first = a'.first)
    (follow : a.follow = a'.follow) (rules : a.rules = a'.rules) : a = a' := by
  cases a
  cases a'
  simp_all

instance : IsPartialOrder Analysis Below where
  refl _ := ⟨rfl, refl_of Included _, refl_of Grows _, refl_of Grows _, rfl⟩
  trans _ _ _ h h' := ⟨h.terminalCount.trans h'.terminalCount,
    trans_of Included h.nullable h'.nullable,
    trans_of Grows h.first h'.first, trans_of Grows h.follow h'.follow, h.rules.trans h'.rules⟩
  antisymm _ _ h h' := eq_of_parts h.terminalCount (antisymm_of Included h.nullable h'.nullable)
    (antisymm_of Grows h.first h'.first) (antisymm_of Grows h.follow h'.follow) h.rules

/-- A round that does not move does not move in any pass. -/
theorem round_eq_iff {a : Analysis} : (round P a).1 = a ↔
    (nullablePass P a.nullable).1 = a.nullable ∧
      (firstPass (nullablePass P a.nullable).1 P a.first).1 = a.first ∧
      (followPass a.terminalCount (nullablePass P a.nullable).1
        (firstPass (nullablePass P a.nullable).1 P a.first).1 P a.follow).1 = a.follow := by
  constructor
  · intro h
    exact ⟨congrArg Analysis.nullable h, congrArg Analysis.first h, congrArg Analysis.follow h⟩
  · rintro ⟨hn, hf, hg⟩
    exact eq_of_parts rfl hn hf hg rfl

/-- **Rounds climb**: they only add, and tell truly whether they have added anything. -/
theorem climbs_round : Climbs Below (round P) := by
  refine ⟨fun a => ⟨rfl, climbs_nullablePass.le _, climbs_firstPass.le _,
    climbs_followPass.le _, rfl⟩,
    fun a => ?_⟩
  rw [round_eq_iff, climbs_nullablePass.eq_iff, climbs_firstPass.eq_iff, climbs_followPass.eq_iff,
    ← and_assoc, ← Bool.or_eq_false_iff, ← Bool.or_eq_false_iff]
  rfl

/-! ## Bounds -/

/-- The elements that a first or a follow set can have: the terminals and the two reserved ones. -/
def elements (terminalCount : Nat) : Finset SymbolId :=
  insert SymbolId.endOfInput (insert SymbolId.epsilon (Finset.range terminalCount))

theorem card_elements_le : (elements terminalCount).card ≤ terminalCount + 2 := by
  have h₁ := Finset.card_insert_le SymbolId.endOfInput
    (insert SymbolId.epsilon (Finset.range terminalCount))
  have h₂ := Finset.card_insert_le SymbolId.epsilon (Finset.range terminalCount)
  rw [Finset.card_range] at h₂
  exact h₁.trans (Nat.succ_le_succ h₂)

/-- The sets of an array are sets of possible elements, one for each symbol. -/
def Confined (symbolCount terminalCount : Nat) (sets : Array SymbolSet) : Prop :=
  sets.size = symbolCount ∧ ∀ x t, t ∈ setOf sets x → t ∈ elements terminalCount

theorem Confined.firstPass {sets : Array SymbolSet}
    (h : Confined symbolCount terminalCount sets) :
    Confined symbolCount terminalCount (firstPass nullable P sets).1 := by
  refine ⟨(climbs_firstPass.le sets).1.symm.trans h.1,
    firstPass_induction (fun p _ sets hs t ht => ?_) h.2⟩
  rcases mem_firstAsked.1 ht with ht | ⟨rfl, -⟩
  · exact firstOfSequence_induction hs t ht
  · simp [elements]

theorem Confined.followPass (hf : Confined symbolCount terminalCount first)
    {sets : Array SymbolSet} (h : Confined symbolCount terminalCount sets) :
    Confined symbolCount terminalCount (followPass terminalCount nullable first P sets).1 := by
  refine ⟨(climbs_followPass.le sets).1.symm.trans h.1,
    followPass_induction (fun p _ before x rest _ _ sets hs t ht _ => ?_) h.2⟩
  rcases mem_followAsked.1 ht with ht | ⟨-, ht⟩
  · exact firstOfSequence_induction hf.2 t ht
  · exact hs p.lhs t ht

/-- At first every terminal begins itself. -/
theorem mem_setOf_initialFirst {x : SymbolId} :
    t ∈ setOf (initialFirst symbolCount terminalCount) x ↔
      x < symbolCount ∧ x < terminalCount ∧ t = x := by
  simp only [setOf, initialFirst, List.getElem?_toArray, List.getElem?_map]
  rcases Nat.lt_or_ge x symbolCount with hx | hx
  · rw [List.getElem?_range hx, Option.map_some, Option.getD_some]
    split
    · next hxt => simp [hx, hxt]
    · next hxt => simp [hxt]
  · rw [List.getElem?_eq_none (by simpa using hx)]
    simp [Nat.not_lt_of_le hx]

/-- At first the end of the input follows the first left-hand side. -/
theorem mem_setOf_initialFollow {x : SymbolId} :
    t ∈ setOf (initialFollow P symbolCount) x ↔
      x < symbolCount ∧ t = SymbolId.endOfInput ∧ ∃ p, P.head? = some p ∧ p.lhs = x := by
  have hnone (y s) : ¬ s ∈ setOf (Array.replicate symbolCount ∅) y := fun h => by
    have hy := lt_size_of_mem h
    simp_all [setOf]
  cases P with
  | nil => simp [initialFollow, hnone]
  | cons p P =>
    simp only [initialFollow, setOf_enlarge, Array.size_replicate, List.head?_cons,
      Option.some.injEq, exists_eq_left']
    split
    · next h => simp [h, hnone]
    · next h => simp only [hnone, false_iff]; tauto

/-- What a round works on is confined. -/
structure Bounded (symbolCount terminalCount : Nat) (a : Analysis) : Prop where
  terminalCount_eq : a.terminalCount = terminalCount
  first : Confined symbolCount terminalCount a.first
  follow : Confined symbolCount terminalCount a.follow

theorem bounded_initial :
    Bounded symbolCount terminalCount (initial P symbolCount terminalCount) := by
  refine ⟨rfl, ⟨by simp [initial, initialFirst], fun x t ht => ?_⟩,
    by cases P <;> simp [initial, initialFollow, size_enlarge], fun x t ht => ?_⟩
  · obtain ⟨-, hx, rfl⟩ := mem_setOf_initialFirst.1 ht
    simp [elements, hx]
  · obtain ⟨-, rfl, -⟩ := mem_setOf_initialFollow.1 ht
    simp [elements]

theorem Bounded.round {a : Analysis} (h : Bounded symbolCount terminalCount a) :
    Bounded symbolCount terminalCount (round P a).1 := by
  obtain ⟨rfl, hfirst, hfollow⟩ := h
  exact ⟨rfl, hfirst.firstPass, hfirst.firstPass.followPass hfollow⟩

theorem bounded_compute :
    Bounded symbolCount terminalCount (compute P symbolCount terminalCount) :=
  repeatPass_induction (fun _ h => h.round) _ bounded_initial

theorem confined_first :
    Confined symbolCount terminalCount (compute P symbolCount terminalCount).first :=
  bounded_compute.first

/-- Nothing that is known at first is lost. -/
theorem below_compute :
    Below (initial P symbolCount terminalCount) (compute P symbolCount terminalCount) :=
  repeatPass_induction (p := Below (initial P symbolCount terminalCount))
    (fun a h => trans_of Below h (climbs_round.le a)) _ (refl_of Below _)

/-! ## Numbers of productions -/

/-- The productions of a symbol are gathered in one pass over the productions. -/
theorem rulesFor_compute (x : SymbolId) :
    (compute P symbolCount terminalCount).rulesFor x =
      if x < symbolCount then P.zipIdx.filterMap
        (fun pr => if pr.1.lhs = x ∧ pr.2 ≤ indexSpace then some pr.2 else none) else [] := by
  rw [rulesFor, ← below_compute.rules]
  simp only [initial, rulesOf, List.getElem?_toArray, List.getElem?_map]
  split
  · next hx => rw [List.getElem?_range hx]; rfl
  · next hx => rw [List.getElem?_eq_none (by simpa using hx)]; rfl

/-- **The productions of a symbol are listed as far as there are words for their numbers.** -/
theorem mem_rulesFor_iff {r : RuleId} {x : SymbolId} :
    r ∈ (compute P symbolCount terminalCount).rulesFor x ↔
      x < symbolCount ∧ r ≤ indexSpace ∧ ∃ p, P[r]? = some p ∧ p.lhs = x := by
  have hmem : r ∈ P.zipIdx.filterMap
      (fun pr => if pr.1.lhs = x ∧ pr.2 ≤ indexSpace then some pr.2 else none) ↔
        r ≤ indexSpace ∧ ∃ p, P[r]? = some p ∧ p.lhs = x := by
    rw [List.mem_filterMap]
    constructor
    · rintro ⟨⟨p, n⟩, hp, h⟩
      obtain ⟨⟨hx, hn⟩, rfl⟩ : (p.lhs = x ∧ n ≤ indexSpace) ∧ n = r := by simpa using h
      exact ⟨hn, p, List.mem_zipIdx_iff_getElem?.1 hp, hx⟩
    · rintro ⟨hn, p, hp, rfl⟩
      exact ⟨(p, r), List.mem_zipIdx_iff_getElem?.2 hp, by simp [hn]⟩
  rw [rulesFor_compute]
  split
  · next hx => exact hmem.trans (and_iff_right hx).symm
  · next hx => exact iff_of_false List.not_mem_nil fun h => hx h.1

/-- No production is gathered twice. -/
theorem nodup_rulesFor (x : SymbolId) :
    ((compute P symbolCount terminalCount).rulesFor x).Nodup := by
  rw [rulesFor_compute]
  split
  · have hnumbers := Distinct.nodup_map_snd_zipIdx P
    refine List.pairwise_filterMap.2 ((List.pairwise_map.1 hnumbers).imp fun hne r hr r' hr' => ?_)
    obtain ⟨-, hr⟩ := Option.ite_none_right_eq_some.1 hr
    obtain ⟨-, hr'⟩ := Option.ite_none_right_eq_some.1 hr'
    rwa [← Option.some.inj hr, ← Option.some.inj hr']
  · exact .nil

/-! ## Soundness -/

/-- The sets hold nothing that the inequalities do not ask for. -/
structure Sound (P : List Production) (terminalCount : Nat) (a : Analysis) : Prop where
  nullable : ∀ x ∈ a.nullable, Vanishes P [x]
  first : ∀ x t, t ∈ setOf a.first x → t ≠ SymbolId.epsilon → Begins P terminalCount t [x]
  epsilon : ∀ x, terminalCount ≤ x → SymbolId.epsilon ∈ setOf a.first x → Vanishes P [x]
  follow : ∀ x t, t ∈ setOf a.follow x → Follows P terminalCount x t ∧ t ≠ SymbolId.epsilon

theorem sound_initial : Sound P terminalCount (initial P symbolCount terminalCount) := by
  refine ⟨fun x hx => absurd hx (not_mem_empty x), fun x t ht _ => ?_, fun x hx hε => ?_,
    fun x t ht => ?_⟩
  · obtain ⟨-, hx, rfl⟩ := mem_setOf_initialFirst.1 ht
    exact .terminal hx []
  · exact absurd (mem_setOf_initialFirst.1 hε).2.1 (Nat.not_lt_of_le hx)
  · obtain ⟨-, rfl, p, hp, rfl⟩ := mem_setOf_initialFollow.1 ht
    exact ⟨.start hp, by decide⟩

/-- What begins a sequence of symbols, when the sets hold nothing but terminals that begin their
symbols. -/
theorem begins_of_mem_firstOfSequence (hn : ∀ x ∈ nullable, Vanishes P [x])
    (hf : ∀ x t, t ∈ setOf first x → t ≠ SymbolId.epsilon → Begins P terminalCount t [x])
    {xs : List SymbolId} (h : t ∈ (firstOfSequence nullable first xs).1) :
    Begins P terminalCount t xs := by
  induction xs with
  | nil => exact absurd h (not_mem_empty t)
  | cons x xs ih =>
    rcases mem_firstOfSequence_cons.1 h with ⟨h, hε⟩ | ⟨hx, h⟩
    · exact begins_cons.2 (.inl (hf x t h hε))
    · exact .behind (hn x hx) (ih h)

/-- **A round asks for nothing that the inequalities do not ask for.** -/
theorem Sound.round {a : Analysis} (hcount : a.terminalCount = terminalCount)
    (h : Sound P terminalCount a) : Sound P terminalCount (round P a).1 := by
  subst hcount
  have hn : ∀ x ∈ (round P a).1.nullable, Vanishes P [x] :=
    nullablePass_induction (fun p hp hrhs => .of_mem hp ((vanishes_iff_forall _).2 hrhs)) h.nullable
  have hf : ∀ x t, t ∈ setOf (round P a).1.first x →
      (t ≠ SymbolId.epsilon → Begins P a.terminalCount t [x]) ∧
        (a.terminalCount ≤ x → t = SymbolId.epsilon → Vanishes P [x]) := by
    refine firstPass_induction (fun p hp sets hs t ht => ?_)
      fun x t ht => ⟨h.first x t ht, fun hx hε => h.epsilon x hx (hε ▸ ht)⟩
    rcases mem_firstAsked.1 ht with ht | ⟨rfl, hrhs⟩
    · refine ⟨fun hε => .rule hp ?_ [], fun _ hε => ?_⟩
      · exact begins_of_mem_firstOfSequence hn (fun x t ht => (hs x t ht).1) ht
      · exact absurd (hε ▸ ht) (not_mem_epsilon_firstOfSequence _)
    · exact ⟨fun hε => absurd rfl hε, fun _ _ =>
        .of_mem hp ((vanishes_iff_forall _).2 fun x hx => hn x (hrhs x hx))⟩
  refine ⟨hn, fun x t ht => (hf x t ht).1, fun x hx hε => (hf x _ hε).2 hx rfl,
    followPass_induction (fun p hp before x rest hrhs hx sets hs t ht hε => ?_) h.follow⟩
  rcases mem_followAsked.1 ht with ht | ⟨hrest, ht⟩
  · exact ⟨.next hp hrhs hx
      (begins_of_mem_firstOfSequence hn (fun x t ht => (hf x t ht).1) ht), hε⟩
  · exact ⟨.last hp hrhs hx ((vanishes_iff_forall _).2 fun x hx => hn x (hrest x hx))
      (hs p.lhs t ht).1, hε⟩

theorem sound_compute : Sound P terminalCount (compute P symbolCount terminalCount) :=
  (repeatPass_induction
    (p := fun a => Bounded symbolCount terminalCount a ∧ Sound P terminalCount a)
    (fun _ h => ⟨h.1.round, h.2.round h.1.terminalCount_eq⟩) _ ⟨bounded_initial, sound_initial⟩).2

/-! ## Termination -/

/-- The elements of the sets of an array, each with its symbol. -/
def entries (symbolCount terminalCount : Nat) (sets : Array SymbolSet) :
    Finset (SymbolId × SymbolId) :=
  (Finset.range symbolCount ×ˢ elements terminalCount).filter fun (x, t) => t ∈ setOf sets x

theorem mem_entries {sets : Array SymbolSet} (h : Confined symbolCount terminalCount sets)
    {x : SymbolId} : (x, t) ∈ entries symbolCount terminalCount sets ↔ t ∈ setOf sets x := by
  simp only [entries, Finset.mem_filter, Finset.mem_product, Finset.mem_range]
  exact and_iff_right_of_imp fun ht => ⟨h.1 ▸ lt_size_of_mem ht, h.2 x t ht⟩

theorem card_entries_le (sets : Array SymbolSet) :
    (entries symbolCount terminalCount sets).card ≤ symbolCount * (terminalCount + 2) := by
  refine (Finset.card_filter_le ..).trans ?_
  rw [Finset.card_product, Finset.card_range]
  exact Nat.mul_le_mul_left _ card_elements_le

theorem entries_subset {sets sets' : Array SymbolSet}
    (h : Confined symbolCount terminalCount sets) (h' : Confined symbolCount terminalCount sets')
    (hgrows : Grows sets sets') :
    entries symbolCount terminalCount sets ⊆ entries symbolCount terminalCount sets' :=
  fun (_, _) hmem => (mem_entries h').2 (hgrows.2 _ _ ((mem_entries h).1 hmem))

/-- Arrays that grow are the same if they do not get more entries. -/
theorem eq_of_card_entries_le {sets sets' : Array SymbolSet}
    (h : Confined symbolCount terminalCount sets) (h' : Confined symbolCount terminalCount sets')
    (hgrows : Grows sets sets') (hcard : (entries symbolCount terminalCount sets').card ≤
      (entries symbolCount terminalCount sets).card) : sets = sets' := by
  have heq := Finset.eq_of_subset_of_card_le (entries_subset h h' hgrows) hcard
  exact ext_setOf hgrows.1 fun x t => by rw [← mem_entries h, heq, mem_entries h']

/-- How many elements the sets of an analysis have. -/
def weight (symbolCount terminalCount : Nat) (a : Analysis) : Nat :=
  ((Finset.range symbolCount).filter (· ∈ a.nullable)).card +
    ((entries symbolCount terminalCount a.first).card +
      (entries symbolCount terminalCount a.follow).card)

theorem weight_le (a : Analysis) :
    weight symbolCount terminalCount a ≤ capacity symbolCount terminalCount := by
  unfold weight capacity
  rw [Nat.two_mul]
  refine Nat.add_le_add ?_ (Nat.add_le_add (card_entries_le _) (card_entries_le _))
  exact (Finset.card_filter_le ..).trans (Finset.card_range _).le

/-- What vanishes is a left-hand side. -/
theorem lt_of_vanishes (hP : Within P symbolCount terminalCount) {x : SymbolId}
    (h : Vanishes P [x]) : x < symbolCount := by
  cases h with
  | cons hp => exact hP.lhs_lt _ hp

/-- A larger analysis weighs more. -/
theorem weight_lt {a a' : Analysis} (hP : Within P symbolCount terminalCount)
    (hn : ∀ x ∈ a'.nullable, Vanishes P [x]) (h : Bounded symbolCount terminalCount a)
    (h' : Bounded symbolCount terminalCount a') (hbelow : Below a a') (hne : a' ≠ a) :
    weight symbolCount terminalCount a < weight symbolCount terminalCount a' := by
  have hnullable : (Finset.range symbolCount).filter (· ∈ a.nullable) ⊆
      (Finset.range symbolCount).filter (· ∈ a'.nullable) :=
    Finset.monotone_filter_right _ fun x _ hx => hbelow.nullable x hx
  have h₁ := Finset.card_le_card hnullable
  have h₂ := Finset.card_le_card (entries_subset h.first h'.first hbelow.first)
  have h₃ := Finset.card_le_card (entries_subset h.follow h'.follow hbelow.follow)
  by_contra hlt
  -- nothing has been added anywhere
  obtain ⟨h₁', h₂', h₃'⟩ : ((Finset.range symbolCount).filter (· ∈ a'.nullable)).card ≤
        ((Finset.range symbolCount).filter (· ∈ a.nullable)).card ∧
      (entries symbolCount terminalCount a'.first).card ≤
        (entries symbolCount terminalCount a.first).card ∧
      (entries symbolCount terminalCount a'.follow).card ≤
        (entries symbolCount terminalCount a.follow).card := by
    unfold weight at hlt
    omega
  refine hne (antisymm_of Below ⟨hbelow.terminalCount.symm, fun x hx => ?_, ?_, ?_,
    hbelow.rules.symm⟩ hbelow)
  · have hmem : x ∈ (Finset.range symbolCount).filter (· ∈ a'.nullable) :=
      Finset.mem_filter.2 ⟨Finset.mem_range.2 (lt_of_vanishes hP (hn x hx)), hx⟩
    rw [← Finset.eq_of_subset_of_card_le hnullable h₁'] at hmem
    exact (Finset.mem_filter.1 hmem).2
  · rw [eq_of_card_entries_le h.first h'.first hbelow.first h₂']
    exact refl_of Grows _
  · rw [eq_of_card_entries_le h.follow h'.follow hbelow.follow h₃']
    exact refl_of Grows _

/-- **The analysis is what is left when rounds are repeated as long as they add something.** -/
theorem repeats_compute (hP : Within P symbolCount terminalCount) :
    Repeats (round P) (initial P symbolCount terminalCount)
      (compute P symbolCount terminalCount) := by
  refine repeats_repeatPass
    (p := fun a => Bounded symbolCount terminalCount a ∧ Sound P terminalCount a)
    (weight symbolCount terminalCount) (fun a h => ⟨h.1.round, h.2.round h.1.terminalCount_eq⟩)
    (fun a h hadded => ?_) (fun a _ => weight_le a) ⟨bounded_initial, sound_initial⟩ (by omega)
  refine weight_lt hP (h.2.round h.1.terminalCount_eq).nullable h.1 h.1.round (climbs_round.le a) ?_
  rw [ne_eq, climbs_round.eq_iff, hadded]
  decide

theorem round_compute (hP : Within P symbolCount terminalCount) :
    round P (compute P symbolCount terminalCount) =
      (compute P symbolCount terminalCount, false) :=
  (repeats_compute hP).apply_eq climbs_round

/-! ## Completeness -/

/-- No pass adds anything to the analysis. -/
theorem passes_compute (hP : Within P symbolCount terminalCount) :
    (nullablePass P (compute P symbolCount terminalCount).nullable).1 =
      (compute P symbolCount terminalCount).nullable ∧
    (firstPass (compute P symbolCount terminalCount).nullable P
        (compute P symbolCount terminalCount).first).1 =
      (compute P symbolCount terminalCount).first ∧
    (followPass terminalCount (compute P symbolCount terminalCount).nullable
        (compute P symbolCount terminalCount).first P
        (compute P symbolCount terminalCount).follow).1 =
      (compute P symbolCount terminalCount).follow := by
  have hfixed : (round P (compute P symbolCount terminalCount)).1 =
      compute P symbolCount terminalCount := by rw [round_compute hP]
  obtain ⟨hn, hf, hg⟩ := round_eq_iff.1 hfixed
  rw [hn] at hf hg
  rw [hf, bounded_compute.terminalCount_eq] at hg
  exact ⟨hn, hf, hg⟩

/-- **The nullable symbols are the symbols that vanish.** -/
theorem mem_nullable_iff (hP : Within P symbolCount terminalCount) {x : SymbolId} :
    x ∈ (compute P symbolCount terminalCount).nullable ↔ Vanishes P [x] := by
  refine ⟨sound_compute.nullable x, fun h => ?_⟩
  suffices hxs : ∀ xs, Vanishes P xs → ∀ y ∈ xs,
      y ∈ (compute P symbolCount terminalCount).nullable from hxs [x] h x List.mem_cons_self
  intro xs hxs
  induction hxs with
  | nil => simp
  | cons hp _ _ ih ihs =>
    exact List.forall_mem_cons.2 ⟨mem_of_nullablePass_eq (passes_compute hP).1 hp ih, ihs⟩

/-- Whether a sequence vanishes. -/
theorem all_nullable_iff (hP : Within P symbolCount terminalCount) {xs : List SymbolId} :
    (∀ x ∈ xs, x ∈ (compute P symbolCount terminalCount).nullable) ↔ Vanishes P xs := by
  rw [vanishes_iff_forall]
  exact forall₂_congr fun x _ => mem_nullable_iff hP

/-- Whether a sequence of symbols vanishes. -/
theorem firstOf_snd_iff (hP : Within P symbolCount terminalCount) {xs : List SymbolId} :
    ((compute P symbolCount terminalCount).firstOf xs).2 = true ↔ Vanishes P xs :=
  firstOfSequence_snd_iff.trans (all_nullable_iff hP)

/-- A first set has what its productions ask for. -/
theorem mem_firstSet_of_mem (hP : Within P symbolCount terminalCount) {p : Production} (hp : p ∈ P)
    (ht : t ∈ firstAsked (compute P symbolCount terminalCount).nullable
      (compute P symbolCount terminalCount).first p) :
    t ∈ (compute P symbolCount terminalCount).firstSet p.lhs :=
  mem_of_firstPass_eq (passes_compute hP).2.1 hp (confined_first.1.symm ▸ hP.lhs_lt p hp) ht

/-- **What begins a sequence of symbols**: the terminals that begin a form derived from it. -/
theorem mem_firstOf_iff (hP : Within P symbolCount terminalCount)
    (hle : terminalCount ≤ symbolCount) (hε : t ≠ SymbolId.epsilon) {xs : List SymbolId} :
    t ∈ ((compute P symbolCount terminalCount).firstOf xs).1 ↔ Begins P terminalCount t xs := by
  refine ⟨begins_of_mem_firstOfSequence sound_compute.nullable sound_compute.first, fun h => ?_⟩
  induction h with
  | terminal ht xs =>
    refine mem_firstOfSequence_cons.2 (.inl ⟨below_compute.first.2 t t ?_, hε⟩)
    exact mem_setOf_initialFirst.2 ⟨Nat.lt_of_lt_of_le ht hle, ht, rfl⟩
  | rule hp _ xs ih =>
    refine mem_firstOfSequence_cons.2 (.inl ⟨mem_firstSet_of_mem hP hp ?_, hε⟩)
    exact mem_firstAsked.2 (.inl ih)
  | behind hx _ ih =>
    exact mem_firstOfSequence_cons.2 (.inr ⟨(mem_nullable_iff hP).2 hx, ih⟩)

/-- The terminals of a first set begin its symbol. -/
theorem mem_firstSet_iff (hP : Within P symbolCount terminalCount)
    (hle : terminalCount ≤ symbolCount) (hε : t ≠ SymbolId.epsilon) {x : SymbolId} :
    t ∈ (compute P symbolCount terminalCount).firstSet x ↔ Begins P terminalCount t [x] := by
  rw [← mem_firstOf_iff hP hle hε, firstOf, mem_firstOfSequence_cons]
  simp [firstSet, firstOfSequence, hε]

/-- The first set of a nonterminal has `EPSILON` if it vanishes. -/
theorem epsilon_mem_firstSet_iff (hP : Within P symbolCount terminalCount) {x : SymbolId}
    (hx : terminalCount ≤ x) :
    SymbolId.epsilon ∈ (compute P symbolCount terminalCount).firstSet x ↔ Vanishes P [x] := by
  refine ⟨sound_compute.epsilon x hx, fun h => ?_⟩
  cases h with
  | cons hp h =>
    exact mem_firstSet_of_mem hP hp (mem_firstAsked.2 (.inr ⟨rfl, (all_nullable_iff hP).2 h⟩))

/-- A follow set has what its occurrences ask for. -/
theorem mem_followSet_of_mem (hP : Within P symbolCount terminalCount) {p : Production}
    (hp : p ∈ P) {before rest : List SymbolId} {x : SymbolId} (hrhs : p.rhs = before ++ x :: rest)
    (hx : terminalCount ≤ x) (hε : t ≠ SymbolId.epsilon)
    (ht : t ∈ followAsked (compute P symbolCount terminalCount).nullable
      (compute P symbolCount terminalCount).first p.lhs rest
      (compute P symbolCount terminalCount).follow) :
    t ∈ (compute P symbolCount terminalCount).followSet x := by
  refine mem_of_followPass_eq (passes_compute hP).2.2 hp hrhs hx ?_ hε ht
  exact bounded_compute.follow.1.symm ▸ hP.rhs_lt p hp x (by simp [hrhs])

/-- **The follow sets are the least solution of the follow-set inequalities**, `EPSILON` apart. -/
theorem mem_followSet_iff (hP : Within P symbolCount terminalCount)
    (hle : terminalCount ≤ symbolCount) {x : SymbolId} :
    t ∈ (compute P symbolCount terminalCount).followSet x ↔
      Follows P terminalCount x t ∧ t ≠ SymbolId.epsilon := by
  refine ⟨sound_compute.follow x t, ?_⟩
  rintro ⟨h, hε⟩
  induction h with
  | start hp =>
    refine below_compute.follow.2 _ _ (mem_setOf_initialFollow.2 ?_)
    exact ⟨hP.lhs_lt _ (List.mem_of_head? hp), rfl, _, hp, rfl⟩
  | next hp hrhs hx ht =>
    refine mem_followSet_of_mem hP hp hrhs hx hε (mem_followAsked.2 (.inl ?_))
    exact (mem_firstOf_iff hP hle hε).2 ht
  | last hp hrhs hx hb _ ih =>
    exact mem_followSet_of_mem hP hp hrhs hx hε
      (mem_followAsked.2 (.inr ⟨(all_nullable_iff hP).2 hb, ih hε⟩))

/-! ## Exactness -/

/-- A pair of symbols stands in a form that a nonterminal derives in one or more steps. -/
def Meet (P : List Production) (terminalCount : Nat) (A t : SymbolId) : Prop :=
  ∃ B before behind, terminalCount ≤ B ∧
    Relation.TransGen (Step P) [B] (before ++ A :: t :: behind)

/-- An analysis to which a further round adds nothing, and which says of every nonterminal what it
derives and what follows it, where the end of the input follows `start`. -/
structure Exact (P : List Production) (terminalCount : Nat) (start : SymbolId) (a : Analysis) :
    Prop where
  round_eq : round P a = (a, false)
  nullable : ∀ A, terminalCount ≤ A → (A ∈ a.nullable ↔ Derives P [A] [])
  first : ∀ A t, terminalCount ≤ A → t < terminalCount → t ≠ SymbolId.epsilon →
    (t ∈ a.firstSet A ↔ ∃ ys, Derives P [A] (t :: ys))
  epsilon_first : ∀ A, terminalCount ≤ A → (SymbolId.epsilon ∈ a.firstSet A ↔ A ∈ a.nullable)
  follow : ∀ A t, terminalCount ≤ A → t < terminalCount → t ≠ SymbolId.epsilon →
    (t ∈ a.followSet A ↔ Meet P terminalCount A t ∨
      t = SymbolId.endOfInput ∧ ∃ before, Derives P [start] (before ++ [A]))
  epsilon_follow : ∀ A, SymbolId.epsilon ∉ a.followSet A

/-- **The analysis ends and is exact**: rounds are repeated until one adds nothing, and by then all
sets are what derivations of the productions say. -/
theorem compute_exact (hne : P ≠ []) (hP : Within P symbolCount terminalCount) :
    Repeats (round P) (initial P symbolCount terminalCount)
        (compute P symbolCount terminalCount) ∧
      Exact P terminalCount (P.head hne).lhs (compute P symbolCount terminalCount) := by
  have hle : terminalCount ≤ symbolCount :=
    (hP.le_lhs _ (List.head_mem hne)).trans (hP.lhs_lt _ (List.head_mem hne)).le
  refine ⟨repeats_compute hP, round_compute hP, fun A _ => ?_, fun A t _ ht hε => ?_,
    fun A hA => ?_, fun A t hA ht hε => ?_, fun A h => ((mem_followSet_iff hP hle).1 h).2 rfl⟩
  · exact (mem_nullable_iff hP).trans vanishes_iff_derives
  · exact (mem_firstSet_iff hP hle hε).trans (begins_iff_derives ht)
  · exact (epsilon_mem_firstSet_iff hP hA).trans (mem_nullable_iff hP).symm
  · rw [mem_followSet_iff hP hle, and_iff_left hε, follows_iff_derives hP.le_lhs hA ht]
    simp only [List.head?_eq_some_head hne, Option.some.injEq, exists_and_left,
      exists_eq_left', Meet]

/-- The analysis of a grammar with recursion and a chain of nullable symbols. -/
theorem compute_exact_list : ∃ P : List Production, ∃ hne : P ≠ [], Within P 8 4 ∧
    Exact P 4 (P.head hne).lhs (compute P 8 4) ∧ Derives P [4] [] ∧ Meet P 4 6 2 := by
  -- s → s a b | c;  a → c c;  c → ε | 3 s;  b → 2
  let P : List Production :=
    [⟨4, [4, 5, 6]⟩, ⟨4, [7]⟩, ⟨5, [7, 7]⟩, ⟨7, []⟩, ⟨7, [3, 4]⟩, ⟨6, [2, 6]⟩, ⟨6, []⟩]
  have hP : Within P 8 4 := ⟨by decide, by decide, by decide⟩
  have hne : P ≠ [] := by decide
  obtain ⟨-, hexact⟩ := compute_exact hne hP
  refine ⟨P, hne, hP, hexact, (hexact.nullable 4 (by decide)).1 (by decide +kernel), ?_⟩
  have hfollow : (2 : SymbolId) ∈ (compute P 8 4).followSet 6 := by decide +kernel
  refine ((hexact.follow 6 2 (by decide) (by decide) (by decide)).1 hfollow).resolve_right ?_
  rintro ⟨h, -⟩
  exact absurd h (by decide)

end Analysis
end ShiftReduce
