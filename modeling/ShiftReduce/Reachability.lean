/-!
# Reachability — what can be reached step by step

`explore next n start` lists, each once and in breadth-first order, the values that can be reached
from those of `start` by the successors that `next` gives, provided that there are at most `n` of
them.
-/

namespace ShiftReduce.Reachability

variable {α : Type} [BEq α]

/-- Adds the values that are not yet in the list, in order. -/
def extend (seen new : List α) : List α :=
  new.foldl (fun seen a => if seen.contains a then seen else seen ++ [a]) seen

/-- Visits the values seen from position `i` on, adding the successors of each. -/
def visit (next : α → List α) : Nat → Nat → List α → List α
  | 0, _, seen => seen
  | n + 1, i, seen => match seen[i]? with
    | none => seen
    | some a => visit next n (i + 1) (extend seen (next a))

/-- The values reached from `start`, if they are at most `n`. -/
def explore (next : α → List α) (n : Nat) (start : List α) : List α :=
  visit next n 0 (extend [] start)

/-- What can be reached from `start`. -/
inductive Reaches (next : α → List α) (start : List α) : α → Prop
  | start {a : α} (h : a ∈ start) : Reaches next start a
  | step {a b : α} (h : Reaches next start a) (hb : b ∈ next a) : Reaches next start b

variable [LawfulBEq α]

/-! ## Adding values -/

theorem extend_cons (seen new : List α) (b : α) :
    extend seen (b :: new) = extend (if b ∈ seen then seen else seen ++ [b]) new := by
  simp [extend]

@[simp] theorem mem_extend (seen new : List α) (a : α) :
    a ∈ extend seen new ↔ a ∈ seen ∨ a ∈ new := by
  induction new generalizing seen with
  | nil => simp [extend]
  | cons b new ih =>
    rw [extend_cons, ih]
    by_cases hb : b ∈ seen
    · simp only [hb, if_true, List.mem_cons]
      constructor
      · rintro (h | h) <;> simp [h]
      · rintro (h | rfl | h) <;> simp [*]
    · simp [hb, or_assoc]

theorem nodup_extend {seen : List α} (new : List α) (h : seen.Nodup) :
    (extend seen new).Nodup := by
  induction new generalizing seen with
  | nil => exact h
  | cons b new ih =>
    rw [extend_cons]
    refine ih ?_
    split
    · exact h
    · next hb =>
      refine List.nodup_append.2 ⟨h, by simp, ?_⟩
      intro a ha b' hb' hab
      simp only [List.mem_singleton] at hb'
      exact hb (hb' ▸ hab ▸ ha)

theorem prefix_extend (seen new : List α) : seen <+: extend seen new := by
  induction new generalizing seen with
  | nil => exact List.prefix_rfl
  | cons b new ih =>
    rw [extend_cons]
    refine List.IsPrefix.trans ?_ (ih _)
    split
    · exact List.prefix_rfl
    · exact List.prefix_append _ _

/-! ## Visiting -/

theorem nodup_visit {next : α → List α} {seen : List α} (n i : Nat) (h : seen.Nodup) :
    (visit next n i seen).Nodup := by
  induction n generalizing i seen with
  | zero => exact h
  | succ n ih =>
    rw [visit]
    split
    · exact h
    · exact ih _ (nodup_extend _ h)

/-- Nothing but what can be reached is visited. -/
theorem reaches_of_mem_visit {next : α → List α} {start seen : List α} {n i : Nat}
    (h : ∀ a ∈ seen, Reaches next start a) {a : α} (ha : a ∈ visit next n i seen) :
    Reaches next start a := by
  induction n generalizing i seen with
  | zero => exact h a ha
  | succ n ih =>
    rw [visit] at ha
    split at ha
    · exact h a ha
    · next b hb =>
      refine ih (fun c hc => ?_) ha
      rcases (mem_extend _ _ _).1 hc with hc | hc
      · exact h c hc
      · exact .step (h b (List.mem_of_getElem? hb)) hc

theorem mem_visit_of_mem {next : α → List α} {seen : List α} (n i : Nat) {a : α} (ha : a ∈ seen) :
    a ∈ visit next n i seen := by
  induction n generalizing i seen with
  | zero => exact ha
  | succ n ih =>
    rw [visit]
    split
    · exact ha
    · exact ih _ ((mem_extend _ _ _).2 (.inl ha))

/-- Among the values seen, those before position `i` have their successors. -/
def ClosedBefore (next : α → List α) (i : Nat) (seen : List α) : Prop :=
  ∀ j, j < i → ∀ a, seen[j]? = some a → ∀ b ∈ next a, b ∈ seen

theorem closedBefore_extend {next : α → List α} {i : Nat} {seen : List α} {a : α}
    (h : ClosedBefore next i seen) (ha : seen[i]? = some a) :
    ClosedBefore next (i + 1) (extend seen (next a)) := by
  intro j hj c hc b hb
  have hlt : i < seen.length := (List.getElem?_eq_some_iff.1 ha).1
  obtain ⟨added, hadded⟩ := prefix_extend seen (next a)
  rw [← hadded, List.getElem?_append_left (by omega)] at hc
  rcases Nat.lt_succ_iff_lt_or_eq.1 hj with hj | rfl
  · exact (mem_extend _ _ _).2 (.inl (h j hj c hc b hb))
  · obtain rfl := Option.some.inj (ha.symm.trans hc)
    exact (mem_extend _ _ _).2 (.inr hb)

/-- What is visited has its successors, provided that everything seen is among `n` values. -/
theorem mem_visit_of_mem_next {next : α → List α} {values seen : List α} {n i : Nat}
    (hu : ∀ a ∈ visit next n i seen, a ∈ values) (hn : values.length ≤ n + i)
    (hd : seen.Nodup) (h : ClosedBefore next i seen) {a b : α} (ha : a ∈ visit next n i seen)
    (hb : b ∈ next a) : b ∈ visit next n i seen := by
  induction n generalizing i seen with
  | zero =>
    obtain ⟨j, hj⟩ := List.getElem?_of_mem ha
    have hlt := (List.getElem?_eq_some_iff.1 hj).1
    have hle := hd.length_le_of_subset hu
    exact h j (by rw [visit] at hlt; omega) a hj b hb
  | succ n ih =>
    rw [visit] at ha hu ⊢
    split at ha
    · next hnone =>
      obtain ⟨j, hj⟩ := List.getElem?_of_mem ha
      have hlt := (List.getElem?_eq_some_iff.1 hj).1
      have hle := List.getElem?_eq_none_iff.1 hnone
      simp only [hnone] at hu ⊢
      exact h j (by omega) a hj b hb
    · next c hc =>
      simp only [hc] at hu ⊢
      exact ih hu (by omega) (nodup_extend _ hd) (closedBefore_extend h hc) ha

/-! ## Exploring -/

theorem nodup_explore (next : α → List α) (n : Nat) (start : List α) :
    (explore next n start).Nodup := nodup_visit _ _ (nodup_extend _ List.nodup_nil)

/-- **What is explored is what can be reached**, provided that all of it is among `n` values. -/
theorem mem_explore_iff {next : α → List α} {n : Nat} {start values : List α}
    (hu : ∀ a, Reaches next start a → a ∈ values) (hn : values.length ≤ n) {a : α} :
    a ∈ explore next n start ↔ Reaches next start a := by
  have sound : ∀ a ∈ explore next n start, Reaches next start a := fun a ha =>
    reaches_of_mem_visit (fun b hb => .start (by simpa using hb)) ha
  refine ⟨sound a, fun h => ?_⟩
  induction h with
  | start h => exact mem_visit_of_mem _ _ ((mem_extend _ _ _).2 (.inr h))
  | step _ hb ih =>
    exact mem_visit_of_mem_next (fun c hc => hu c (sound c hc)) (by simpa using hn)
      (nodup_extend _ List.nodup_nil) (fun j hj => absurd hj (Nat.not_lt_zero j)) ih hb

end ShiftReduce.Reachability
