import Mathlib.Data.List.Forall2

/-!
# Proofs/Except — computations that may fail

What a chain of computations that may fail says about its links, once it is known whether it has.
-/

namespace ShiftReduce.Except

variable {ε α β : Type}

/-- A chain that succeeds has succeeding links. -/
theorem bind_eq_ok {m : Except ε α} {f : α → Except ε β} {b : β} (h : (m >>= f) = .ok b) :
    ∃ a, m = .ok a ∧ f a = .ok b := by
  cases m with
  | error e => exact nomatch h
  | ok a => exact ⟨a, rfl, h⟩

/-- A chain that fails has one link that does. -/
theorem bind_eq_error {m : Except ε α} {f : α → Except ε β} {e : ε}
    (h : (m >>= f) = .error e) : m = .error e ∨ ∃ a, m = .ok a ∧ f a = .error e := by
  cases m with
  | error e' => exact .inl (congrArg _ (Except.error.inj h))
  | ok a => exact .inr ⟨a, rfl, h⟩

/-- The result behind a mapped one. -/
theorem exists_of_map_eq_ok {m : Except ε α} {f : α → β} {b : β} (h : m.map f = .ok b) :
    ∃ a, m = .ok a ∧ f a = b := by
  cases m with
  | error e => exact nomatch h
  | ok a => exact ⟨a, rfl, Except.ok.inj h⟩

/-- The error behind a renamed one. -/
theorem exists_of_mapError_eq_error {ε' : Type} {m : Except ε α} {f : ε → ε'} {e' : ε'}
    (h : m.mapError f = .error e') : ∃ e, m = .error e ∧ f e = e' := by
  cases m with
  | error e => exact ⟨e, rfl, Except.error.inj h⟩
  | ok a => exact nomatch h

/-- Renaming an error changes no result. -/
theorem eq_ok_of_mapError {ε' : Type} {m : Except ε α} {f : ε → ε'} {a : α}
    (h : m.mapError f = .ok a) : m = .ok a := by
  cases m with
  | error e => exact nomatch h
  | ok a' => exact congrArg _ (Except.ok.inj h)

/-- A test that a computation passes is passed by its result. -/
theorem exists_of_any_toOption {m : Except ε α} {p : α → Bool} (h : m.toOption.any p = true) :
    ∃ a, m = .ok a ∧ p a = true := by
  cases m with
  | error e => exact nomatch h
  | ok a => exact ⟨a, rfl, h⟩

/-- What every step of a fold keeps, a fold that succeeds keeps. -/
theorem foldlM_induction {p : β → Prop} {f : β → α → Except ε β} {l : List α}
    (step : ∀ a ∈ l, ∀ s s', p s → f s a = .ok s' → p s') {s s' : β} (h : p s)
    (hf : l.foldlM f s = .ok s') : p s' := by
  induction l generalizing s with
  | nil =>
    obtain rfl : s = s' := Except.ok.inj hf
    exact h
  | cons a l ih =>
    rw [List.foldlM_cons] at hf
    obtain ⟨s₁, h₁, hf⟩ := bind_eq_ok hf
    exact ih (fun a ha => step a (List.mem_cons_of_mem _ ha))
      (step a List.mem_cons_self s s₁ h h₁) hf

/-- A fold makes larger what every step of it makes larger, unless it has none. -/
theorem lt_of_foldlM (size : β → Nat) {f : β → α → Except ε β} {l : List α}
    (step : ∀ a ∈ l, ∀ s s', f s a = .ok s' → size s < size s') (hne : l ≠ []) {s s' : β}
    (hf : l.foldlM f s = .ok s') : size s < size s' := by
  obtain ⟨a, l, rfl⟩ := List.exists_cons_of_ne_nil hne
  rw [List.foldlM_cons] at hf
  obtain ⟨s₁, h₁, hf⟩ := bind_eq_ok hf
  refine foldlM_induction (p := (size s < size ·)) (fun a ha s₂ s₃ h h₂ => ?_)
    (step a List.mem_cons_self s s₁ h₁) hf
  exact Nat.lt_trans h (step a (List.mem_cons_of_mem _ ha) s₂ s₃ h₂)

/-- The results of a list of computations stand for them one by one. -/
theorem forall₂_of_mapM {f : α → Except ε β} {l : List α} {bs : List β}
    (h : l.mapM f = .ok bs) : List.Forall₂ (fun a b => f a = .ok b) l bs := by
  induction l generalizing bs with
  | nil =>
    obtain rfl : [] = bs := Except.ok.inj h
    exact .nil
  | cons a l ih =>
    rw [List.mapM_cons] at h
    obtain ⟨b, hb, h⟩ := bind_eq_ok h
    obtain ⟨bs', hbs, h⟩ := bind_eq_ok h
    obtain rfl : b :: bs' = bs := Except.ok.inj h
    exact .cons hb (ih hbs)

/-- There is a result for each computation. -/
theorem length_of_mapM {f : α → Except ε β} {l : List α} {bs : List β}
    (h : l.mapM f = .ok bs) : bs.length = l.length := (forall₂_of_mapM h).length_eq.symm

/-- The results of a list of computations that all succeed are results of them. -/
theorem exists_of_mem_mapM {f : α → Except ε β} {l : List α} {bs : List β}
    (h : l.mapM f = .ok bs) : ∀ b ∈ bs, ∃ a ∈ l, f a = .ok b := by
  intro b hb
  obtain ⟨n, hn, rfl⟩ := List.getElem_of_mem hb
  have hlt : n < l.length := length_of_mapM h ▸ hn
  exact ⟨l[n], List.getElem_mem hlt, (forall₂_of_mapM h).get hlt hn⟩

/-- A list of computations fails for one of them. -/
theorem exists_of_mapM_eq_error {f : α → Except ε β} {l : List α} {e : ε}
    (h : l.mapM f = .error e) : ∃ a ∈ l, f a = .error e := by
  induction l with
  | nil => exact nomatch h
  | cons a l ih =>
    rw [List.mapM_cons] at h
    rcases bind_eq_error h with ha | ⟨b, -, h⟩
    · exact ⟨a, List.mem_cons_self, ha⟩
    rcases bind_eq_error h with hl | ⟨bs, -, h⟩
    · obtain ⟨a', ha', h⟩ := ih hl
      exact ⟨a', List.mem_cons_of_mem a ha', h⟩
    · exact nomatch h

end ShiftReduce.Except
