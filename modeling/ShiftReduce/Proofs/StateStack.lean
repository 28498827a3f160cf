import ShiftReduce.Proofs.Automaton
import ShiftReduce.Proofs.Forest

/-!
# Proofs/StateStack — the stack of a parser without its nodes

Which cells a parser looks up depends on the states of its stack and on the terminals ahead alone.
`Table.move?` is one step of a parser on just those; it ends where the parser accepts or fails.

`Collection.Stack c b s xs` says that the states of `s` are a walk over `xs` from the state `b` at
the bottom.  Popping a completed rule off such a stack uncovers the state in which the rule began
(`Stack.of_drop`).
-/

namespace ShiftReduce

open ShiftReduce.Derivation

/-! ## Stacks of states -/

namespace Collection

/-- A stack of states, the top first: a walk over the form from the state at the bottom. -/
inductive Stack (c : Collection) (b : StateId) : List StateId → List SymbolId → Prop
  | bottom : Stack c b [b] []
  | push {p q : StateId} {s : List StateId} {x : SymbolId} {xs : List SymbolId}
    (h : Stack c b (p :: s) xs) (he : c.Edge p x q) : Stack c b (q :: p :: s) (xs ++ [x])

namespace Stack

variable {rules : Array Rule} {c : Collection} {accept start symbolCount terminalCount : Nat}
  {b : StateId} {s : List StateId} {xs : List SymbolId}

theorem walk {q : StateId} (h : Stack c b (q :: s) xs) : c.Walk b xs q := by
  generalize hs : q :: s = s' at h
  induction h generalizing q s with
  | bottom =>
    obtain ⟨rfl, -⟩ := List.cons.inj hs
    exact .nil q
  | push _ he ih =>
    obtain ⟨rfl, -⟩ := List.cons.inj hs
    exact (ih rfl).append (.single he)

theorem exists_cons (h : Stack c b s xs) : ∃ q s', s = q :: s' := by
  cases h with
  | bottom => exact ⟨b, [], rfl⟩
  | push => exact ⟨_, _, rfl⟩

theorem eq_bottom (h : Stack c b s []) : s = [b] := by
  generalize hxs : ([] : List SymbolId) = xs at h
  cases h with
  | bottom => rfl
  | push => simp at hxs

theorem length_eq (h : Stack c b s xs) : s.length = xs.length + 1 := by
  induction h with
  | bottom => rfl
  | push _ _ ih => simpa using ih

/-- Popping the whole form uncovers the bottom. -/
theorem drop_length (h : Stack c b s xs) : s.drop xs.length = [b] := by
  induction h with
  | bottom => rfl
  | push _ _ ih => simpa using ih

/-- A stack on the top of another. -/
theorem append {p : StateId} {below s' : List StateId} {ys : List SymbolId}
    (h : Stack c b (p :: below) xs) (h' : Stack c p s' ys) :
    Stack c b (s' ++ below) (xs ++ ys) := by
  induction h' with
  | bottom => simpa using h
  | push _ he ih =>
    rw [← List.append_assoc]
    exact .push ih he

/-- **Popping what stands before a dot uncovers the state in which the rule began.** -/
theorem of_drop (hc : Canonical rules c)
    (ha : Augmented rules accept start symbolCount terminalCount) {p q : StateId} {r : RuleId}
    {dot : Nat} {below : List StateId} (h : Stack c b (q :: s) xs) (hq : c.Holds q ⟨r, dot⟩)
    (hdrop : (q :: s).drop dot = p :: below) :
    ∃ rule before, rules[r]? = some rule ∧ xs = before ++ rule.rhs.take dot ∧
      Stack c b (p :: below) before ∧ c.Holds p ⟨r, 0⟩ ∧ c.Walk p (rule.rhs.take dot) q := by
  induction dot generalizing q s xs with
  | zero =>
    obtain ⟨rule, hr, -⟩ := hc.exists_rule ha hq
    obtain ⟨rfl, rfl⟩ := List.cons.inj hdrop
    exact ⟨rule, xs, hr, by simp, h, hq, by simpa using Walk.nil q⟩
  | succ dot ih =>
    cases h with
    | bottom => simp at hdrop
    | push h he =>
      obtain ⟨hq', hx⟩ := hc.holds_of_edge_succ he hq
      obtain ⟨rule, before, hr, rfl, hbelow, hp, hw⟩ := ih h hq' hdrop
      obtain ⟨rule', hr', hx⟩ := Item.next?_eq_some_iff.1 hx
      obtain rfl := Option.some.inj (hr.symm.trans hr')
      refine ⟨rule, before, hr, ?_, hbelow, hp, ?_⟩
      · rw [List.take_add_one, hx, ← List.append_assoc]
        rfl
      · rw [List.take_add_one, hx]
        exact hw.append (.single he)

/-- What stands before a dot can be popped, and something is below it. -/
theorem exists_drop (hc : Canonical rules c) {q : StateId} {r : RuleId} {dot : Nat}
    (h : Stack c StateId.initial (q :: s) xs) (hq : c.Holds q ⟨r, dot⟩) :
    ∃ p below, (q :: s).drop dot = p :: below := by
  induction dot generalizing q s xs with
  | zero => exact ⟨q, s, rfl⟩
  | succ dot ih =>
    cases h with
    | bottom => exact absurd (hc.dot_eq_zero_of_holds_initial hq) (Nat.succ_ne_zero dot)
    | push h he => exact ih h (hc.holds_of_edge_succ he hq).1

/-- Nothing is below the initial state. -/
theorem of_initial (hc : Canonical rules c) (h : Stack c b (StateId.initial :: s) xs) :
    s = [] ∧ xs = [] := by
  generalize hs : StateId.initial :: s = s' at h
  cases h with
  | bottom => exact ⟨(List.cons.inj hs).2, rfl⟩
  | push _ he =>
    obtain ⟨rfl, -⟩ := List.cons.inj hs
    exact absurd rfl (hc.ne_initial_of_edge he)

end Stack
end Collection

open Collection

/-! ## Moves -/

/-- What a parser does with the states of its stack on a terminal; `none` where it accepts or
fails. -/
def Table.move? (t : Table) (x : SymbolId) (s : List StateId) : Option (Move × List StateId) :=
  match s with
  | [] => none
  | q :: _ => match t.cell q x with
    | .shift q' => some (.shift x, q' :: s)
    | .reduce r => match t.rule? r with
      | none => none
      | some rule => match s.drop rule.size with
        | [] => none
        | p :: below => (t.goto? p rule.lhs).map fun q' => (.reduce r, q' :: p :: below)
    | _ => none

/-- Moves on the terminals ahead, and what they leave of them. -/
inductive Table.Runs (t : Table) :
    List StateId → List SymbolId → List Move → List StateId → List SymbolId → Prop
  | refl (s : List StateId) (w : List SymbolId) : Runs t s w [] s w
  | shift {s s' s'' : List StateId} {x : SymbolId} {w w' : List SymbolId} {ms : List Move}
    (h : t.move? x s = some (.shift x, s')) (hr : Runs t s' w ms s'' w') :
    Runs t s (x :: w) (.shift x :: ms) s'' w'
  | reduce {s s' s'' : List StateId} {x : SymbolId} {r : RuleId} {w w' : List SymbolId}
    {ms : List Move} (h : t.move? x s = some (.reduce r, s')) (hr : Runs t s' (x :: w) ms s'' w') :
    Runs t s (x :: w) (.reduce r :: ms) s'' w'

namespace Table

variable {t : Table}

theorem Runs.trans {s₁ s₂ s₃ : List StateId} {w₁ w₂ w₃ : List SymbolId} {ms ms' : List Move}
    (h : t.Runs s₁ w₁ ms s₂ w₂) (h' : t.Runs s₂ w₂ ms' s₃ w₃) :
    t.Runs s₁ w₁ (ms ++ ms') s₃ w₃ := by
  induction h with
  | refl => exact h'
  | shift h _ ih => exact .shift h (ih h')
  | reduce h _ ih => exact .reduce h (ih h')

/-- **Moves are determined**: of two runs one goes on where the other has come to. -/
theorem Runs.goes_on {s s₁ s₂ : List StateId} {w w₁ w₂ : List SymbolId} {ms₁ ms₂ : List Move}
    (h₁ : t.Runs s w ms₁ s₁ w₁) (h₂ : t.Runs s w ms₂ s₂ w₂) :
    (∃ ms, ms₂ = ms₁ ++ ms ∧ t.Runs s₁ w₁ ms s₂ w₂) ∨
      ∃ ms, ms₁ = ms₂ ++ ms ∧ t.Runs s₂ w₂ ms s₁ w₁ := by
  induction h₁ generalizing ms₂ with
  | refl => exact .inl ⟨ms₂, rfl, h₂⟩
  | shift h hr ih =>
    cases h₂ with
    | refl => exact .inr ⟨_, rfl, .shift h hr⟩
    | shift h' hr' =>
      obtain ⟨-, rfl⟩ := Prod.mk.inj (Option.some.inj (h.symm.trans h'))
      exact (ih hr').imp (fun ⟨ms, hms, hr⟩ => ⟨ms, congrArg _ hms, hr⟩)
        fun ⟨ms, hms, hr⟩ => ⟨ms, congrArg _ hms, hr⟩
    | reduce h' _ => exact Move.noConfusion (Prod.mk.inj (Option.some.inj (h.symm.trans h'))).1
  | reduce h hr ih =>
    cases h₂ with
    | refl => exact .inr ⟨_, rfl, .reduce h hr⟩
    | shift h' _ => exact Move.noConfusion (Prod.mk.inj (Option.some.inj (h.symm.trans h'))).1
    | reduce h' hr' =>
      obtain ⟨hm, rfl⟩ := Prod.mk.inj (Option.some.inj (h.symm.trans h'))
      obtain rfl := Move.reduce.inj hm
      exact (ih hr').imp (fun ⟨ms, hms, hr⟩ => ⟨ms, congrArg _ hms, hr⟩)
        fun ⟨ms, hms, hr⟩ => ⟨ms, congrArg _ hms, hr⟩

theorem Runs.eq_of_stuck {s s' : List StateId} {x : SymbolId} {w w' : List SymbolId}
    {ms : List Move} (h : t.Runs s (x :: w) ms s' w') (hs : t.move? x s = none) :
    ms = [] ∧ s' = s ∧ w' = x :: w := by
  cases h with
  | refl => exact ⟨rfl, rfl, rfl⟩
  | shift h _ | reduce h _ => exact absurd (hs.symm.trans h) (Option.some_ne_none _).symm

/-- Two runs to where no further move is possible are one. -/
theorem Runs.unique_of_stuck {s s₁ s₂ : List StateId} {w w₁ w₂ : List SymbolId} {x₁ x₂ : SymbolId}
    {ms₁ ms₂ : List Move} (h₁ : t.Runs s w ms₁ s₁ (x₁ :: w₁)) (h₂ : t.Runs s w ms₂ s₂ (x₂ :: w₂))
    (hs₁ : t.move? x₁ s₁ = none) (hs₂ : t.move? x₂ s₂ = none) : ms₁ = ms₂ ∧ s₁ = s₂ := by
  rcases h₁.goes_on h₂ with ⟨ms, rfl, hr⟩ | ⟨ms, rfl, hr⟩
  · obtain ⟨rfl, rfl, -⟩ := hr.eq_of_stuck hs₁
    exact ⟨(List.append_nil _).symm, rfl⟩
  · obtain ⟨rfl, rfl, -⟩ := hr.eq_of_stuck hs₂
    exact ⟨List.append_nil _, rfl⟩

theorem Runs.length_le {s s' : List StateId} {w w' : List SymbolId} {ms : List Move}
    (h : t.Runs s w ms s' w') : w'.length ≤ w.length := by
  induction h with
  | refl => exact Nat.le_refl _
  | shift _ _ ih => exact Nat.le_succ_of_le ih
  | reduce _ _ ih => exact ih

/-- No run takes more than one to where no further move is possible. -/
theorem Runs.length_le_of_stuck {s s₁ s₂ : List StateId} {w w₁ w₂ : List SymbolId} {x : SymbolId}
    {ms₁ ms₂ : List Move} (h₁ : t.Runs s w ms₁ s₁ (x :: w₁)) (h₂ : t.Runs s w ms₂ s₂ w₂)
    (hs : t.move? x s₁ = none) : (x :: w₁).length ≤ w₂.length := by
  rcases h₁.goes_on h₂ with ⟨ms, -, hr⟩ | ⟨ms, -, hr⟩
  · obtain ⟨-, -, rfl⟩ := hr.eq_of_stuck hs
    exact Nat.le_refl _
  · exact hr.length_le

theorem move?_of_shift {q q' : StateId} {x : SymbolId} {s : List StateId}
    (h : t.cell q x = .shift q') : t.move? x (q :: s) = some (.shift x, q' :: q :: s) := by
  simp [move?, h]

theorem move?_of_reduce {p q q' : StateId} {x : SymbolId} {r : RuleId} {rule : Reduction}
    {s below : List StateId} (h : t.cell q x = .reduce r) (hr : t.rule? r = some rule)
    (hdrop : (q :: s).drop rule.size = p :: below) (hgoto : t.cell p rule.lhs = .goto q') :
    t.move? x (q :: s) = some (.reduce r, q' :: p :: below) := by
  simp [move?, h, hr, hdrop, goto?, hgoto, Cell.goto?]

theorem move?_of_accept {q : StateId} {x : SymbolId} {s : List StateId} (h : t.cell q x = .accept) :
    t.move? x (q :: s) = none := by
  simp [move?, h]

/-- What a shift is made of. -/
theorem exists_of_move?_shift {x y : SymbolId} {s s' : List StateId}
    (h : t.move? x s = some (.shift y, s')) :
    ∃ q s₀ q', s = q :: s₀ ∧ t.cell q x = .shift q' ∧ y = x ∧ s' = q' :: s := by
  unfold move? at h
  split at h
  · exact nomatch h
  next q s₀ =>
  split at h
  · next q' hcell =>
    obtain ⟨hm, rfl⟩ := Prod.mk.inj (Option.some.inj h)
    exact ⟨q, s₀, q', rfl, hcell, (Move.shift.inj hm).symm, rfl⟩
  · split at h
    · exact nomatch h
    split at h
    · exact nomatch h
    obtain ⟨q', -, h⟩ := Option.map_eq_some_iff.1 h
    exact nomatch (Prod.mk.inj h).1
  · exact nomatch h

/-- What a reduction of the stack is made of. -/
theorem exists_of_move?_reduce {x : SymbolId} {r : RuleId} {s s' : List StateId}
    (h : t.move? x s = some (.reduce r, s')) :
    ∃ q s₀ rule p below q', s = q :: s₀ ∧ t.cell q x = .reduce r ∧ t.rule? r = some rule ∧
      s.drop rule.size = p :: below ∧ t.cell p rule.lhs = .goto q' ∧ s' = q' :: p :: below := by
  unfold move? at h
  split at h
  · exact nomatch h
  next q s₀ =>
  split at h
  · exact nomatch (Prod.mk.inj (Option.some.inj h)).1
  · next r' hcell =>
    split at h
    · exact nomatch h
    next rule hrule =>
    split at h
    · exact nomatch h
    next p below hdrop =>
    obtain ⟨q', hq', h⟩ := Option.map_eq_some_iff.1 h
    obtain ⟨hm, rfl⟩ := Prod.mk.inj h
    obtain rfl := Move.reduce.inj hm
    refine ⟨q, s₀, rule, p, below, q', rfl, hcell, hrule, hdrop, ?_, rfl⟩
    unfold goto? at hq'
    cases hc : t.cell p rule.lhs <;> simp_all [Cell.goto?]
  · exact nomatch h

/-- A reduction that leaves something of a stack does not see what is below. -/
theorem move?_append {x : SymbolId} {r : RuleId} {s s' : List StateId}
    (h : t.move? x s = some (.reduce r, s')) (below : List StateId) :
    t.move? x (s ++ below) = some (.reduce r, s' ++ below) := by
  obtain ⟨q, s₀, rule, p, rest, q', rfl, hcell, hrule, hdrop, hgoto, rfl⟩ :=
    exists_of_move?_reduce h
  refine move?_of_reduce hcell hrule ?_ hgoto
  have hle : rule.size ≤ (q :: s₀).length := by
    by_contra hlt
    rw [List.drop_eq_nil_of_le (Nat.le_of_not_le hlt)] at hdrop
    exact nomatch hdrop
  change (q :: s₀ ++ below).drop rule.size = p :: rest ++ below
  rw [List.drop_append_of_le_length hle, hdrop]

/-- A reduction that leaves something of the upper stack is one of it alone. -/
theorem exists_move?_of_append {x : SymbolId} {r : RuleId} {s s' below : List StateId}
    {rule : Reduction} (h : t.move? x (s ++ below) = some (.reduce r, s'))
    (hr : t.rule? r = some rule) (hlt : rule.size < s.length) :
    ∃ s₁, t.move? x s = some (.reduce r, s₁) := by
  obtain ⟨q, s₀, rule', p, rest, q', hs, hcell, hrule, hdrop, hgoto, -⟩ := exists_of_move?_reduce h
  obtain rfl := Option.some.inj (hr.symm.trans hrule)
  cases s with
  | nil => exact absurd hlt (Nat.not_lt_zero _)
  | cons q₁ s₁ =>
    obtain ⟨rfl, -⟩ := List.cons.inj hs
    rw [List.drop_append_of_le_length (Nat.le_of_lt hlt)] at hdrop
    cases hrest : (q₁ :: s₁).drop rule.size with
    | nil => exact absurd (List.drop_eq_nil_iff.1 hrest) (Nat.not_le_of_lt hlt)
    | cons p₁ rest₁ =>
      rw [hrest] at hdrop
      obtain ⟨rfl, -⟩ := List.cons.inj hdrop
      exact ⟨_, move?_of_reduce hcell hrule hrest hgoto⟩

variable {rules : Array Rule} {c : Collection} {accept start symbolCount terminalCount : Nat}

/-- **What a reduction does to a walk**: it replaces a right-hand side at its end by the left-hand
side. -/
theorem Follows.of_reduce (hf : t.Follows rules terminalCount c) (hc : Canonical rules c)
    (ha : Augmented rules accept start symbolCount terminalCount) {b : StateId} {x : SymbolId}
    {r : RuleId} {s s' : List StateId} {xs : List SymbolId} (hs : Stack c b s xs)
    (h : t.move? x s = some (.reduce r, s')) :
    ∃ q s₀ rule before p below q', s = q :: s₀ ∧ t.cell q x = .reduce r ∧
      rules[r]? = some rule ∧ xs = before ++ rule.rhs ∧ s.drop rule.rhs.length = p :: below ∧
      Stack c b (p :: below) before ∧ c.Holds p ⟨r, 0⟩ ∧ c.Walk p rule.rhs q ∧
      c.Edge p rule.lhs q' ∧ s' = q' :: p :: below := by
  obtain ⟨q, s₀, reduction, p, below, q', rfl, hcell, hrule, hdrop, hgoto, rfl⟩ :=
    exists_of_move?_reduce h
  obtain ⟨-, rule, hr, hq⟩ := hf.reduce hcell
  obtain rfl : Automaton.reduction rule = reduction := by
    rw [hf.rule?, hr] at hrule
    exact Option.some.inj hrule
  obtain ⟨rule', before, hr', rfl, hbelow, hp, hw⟩ := hs.of_drop hc ha hq hdrop
  obtain rfl := Option.some.inj (hr.symm.trans hr')
  rw [List.take_length] at hw
  exact ⟨q, s₀, rule, before, p, below, q', rfl, hcell, hr, by rw [List.take_length], hdrop, hbelow,
    hp, hw, (hf.goto hgoto).2, rfl⟩

end Table
end ShiftReduce
