import Mathlib.Order.Defs.Unbundled
import ShiftReduce.FixedPoint

/-!
# Proofs/FixedPoint — passes that add something

A step *climbs* if it goes up in an order and tells truly whether it has gone anywhere (`Climbs`).
Passes of climbing steps climb, and a pass that has not moved has not moved in any step.

`Repeats` is the loop without a bound.  Where a pass that adds something makes a bounded measure
larger, the bounded loop is that loop (`repeats_repeatPass`), and it ends where a further pass adds
nothing (`Repeats.apply_eq`).
-/

namespace ShiftReduce.FixedPoint

variable {σ β : Type}

/-! ## Passes -/

/-- What has been added before is remembered, and changes nothing else. -/
theorem foldl_pass (f : σ → β → σ × Bool) (l : List β) (s : σ) (added : Bool) :
    l.foldl (fun (s, added) b => let (s, more) := f s b; (s, added || more)) (s, added) =
      ((pass f l s).1, added || (pass f l s).2) := by
  induction l generalizing s added with
  | nil => simp [pass]
  | cons b l ih =>
    rw [pass, List.foldl_cons, List.foldl_cons]
    refine (ih (f s b).1 (added || (f s b).2)).trans ?_
    rw [ih (f s b).1 (false || (f s b).2), Bool.false_or, Bool.or_assoc]

theorem pass_cons (f : σ → β → σ × Bool) (b : β) (l : List β) (s : σ) :
    pass f (b :: l) s = ((pass f l (f s b).1).1, (f s b).2 || (pass f l (f s b).1).2) := by
  rw [pass, List.foldl_cons]
  exact foldl_pass f l (f s b).1 (false || (f s b).2)

/-- What every step keeps, a pass keeps. -/
theorem pass_induction {p : σ → Prop} {f : σ → β → σ × Bool} {l : List β}
    (step : ∀ b ∈ l, ∀ s, p s → p (f s b).1) {s : σ} (h : p s) : p (pass f l s).1 := by
  induction l generalizing s with
  | nil => exact h
  | cons b l ih =>
    rw [pass_cons]
    exact ih (fun b hb => step b (List.mem_cons_of_mem _ hb)) (step b List.mem_cons_self s h)

/-- The step goes up in the order, and tells whether it has gone anywhere. -/
structure Climbs (r : σ → σ → Prop) (f : σ → σ × Bool) : Prop where
  le (s : σ) : r s (f s).1
  eq_iff (s : σ) : (f s).1 = s ↔ (f s).2 = false

section Order

variable {r : σ → σ → Prop} [IsPartialOrder σ r] {f : σ → β → σ × Bool}

/-- **Passes of climbing steps climb.** -/
theorem climbs_pass (hf : ∀ b, Climbs r (f · b)) (l : List β) : Climbs r (pass f l) := by
  induction l with
  | nil => exact ⟨fun s => refl_of r s, fun s => iff_of_true rfl rfl⟩
  | cons b l ih =>
    refine ⟨fun s => ?_, fun s => ?_⟩ <;> rw [pass_cons]
    · exact trans_of r ((hf b).le s) (ih.le _)
    · rw [Bool.or_eq_false_iff, ← (hf b).eq_iff, ← ih.eq_iff]
      constructor
      · intro h
        have hs : (f s b).1 = s := antisymm_of r (h.subst (ih.le (f s b).1)) ((hf b).le s)
        exact ⟨hs, h.trans hs.symm⟩
      · rintro ⟨hs, h⟩
        exact h.trans hs

/-- A pass that has not moved has not moved in any step. -/
theorem step_eq_of_pass_eq (hf : ∀ b, Climbs r (f · b)) {l : List β} {s : σ}
    (h : (pass f l s).1 = s) : ∀ b ∈ l, (f s b).1 = s := by
  induction l with
  | nil => simp
  | cons b l ih =>
    rw [pass_cons] at h
    have hs : (f s b).1 = s :=
      antisymm_of r (h.subst ((climbs_pass hf l).le (f s b).1)) ((hf b).le s)
    rw [hs] at h
    exact List.forall_mem_cons.2 ⟨hs, ih h⟩

end Order

/-! ## Repeated passes -/

/-- The pass repeated as long as it adds something leads from one state to the other. -/
inductive Repeats (f : σ → σ × Bool) : σ → σ → Prop
  | done {s s' : σ} (h : f s = (s', false)) : Repeats f s s'
  | again {s s' s'' : σ} (h : f s = (s', true)) (hr : Repeats f s' s'') : Repeats f s s''

theorem repeatPass_succ (f : σ → σ × Bool) (n : Nat) (s : σ) :
    repeatPass f (n + 1) s = if (f s).2 then repeatPass f n (f s).1 else (f s).1 := rfl

/-- What a pass keeps, repeated passes keep. -/
theorem repeatPass_induction {p : σ → Prop} {f : σ → σ × Bool} (step : ∀ s, p s → p (f s).1)
    (n : Nat) {s : σ} (h : p s) : p (repeatPass f n s) := by
  induction n generalizing s with
  | zero => exact h
  | succ n ih =>
    rw [repeatPass_succ]
    split
    · exact ih (step s h)
    · exact step s h

/-- **Repeated passes come to an end** if each one that adds something makes a measure larger, and
the measure cannot grow for more than `n` passes. -/
theorem repeats_repeatPass {f : σ → σ × Bool} {p : σ → Prop} (measure : σ → Nat) {bound : Nat}
    (keeps : ∀ s, p s → p (f s).1) (grows : ∀ s, p s → (f s).2 = true → measure s < measure (f s).1)
    (bounded : ∀ s, p s → measure s ≤ bound) {n : Nat} {s : σ} (h : p s)
    (enough : bound < measure s + n) : Repeats f s (repeatPass f n s) := by
  induction n generalizing s with
  | zero =>
    have := bounded s h
    omega
  | succ n ih =>
    rw [repeatPass_succ]
    split
    · next hadded =>
      have hlt := grows s h hadded
      have henough : bound < measure (f s).1 + n := by omega
      exact .again (Prod.ext rfl hadded) (ih (keeps s h) henough)
    · next hadded => exact .done (Prod.ext rfl (Bool.eq_false_iff.2 hadded))

/-- **Where repeated passes end, a further pass adds nothing.** -/
theorem Repeats.apply_eq {r : σ → σ → Prop} {f : σ → σ × Bool} (hf : Climbs r f) {s s' : σ}
    (h : Repeats f s s') : f s' = (s', false) := by
  induction h with
  | @done s s' h =>
    have hs : (f s).1 = s := (hf.eq_iff s).2 (by rw [h])
    obtain rfl : s' = s := by rw [← hs, h]
    exact h
  | again _ _ ih => exact ih

end ShiftReduce.FixedPoint
