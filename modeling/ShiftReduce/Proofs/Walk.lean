import ShiftReduce.Proofs.Collection
import ShiftReduce.Proofs.Rules

/-!
# Proofs/Walk — walks through the states of augmented rules

A walk follows the edges of a collection over a form.  What stands behind the dot of an item can be
walked (`exists_walk`), the item goes along (`holds_of_walk`), and every item that a state holds has
come along a walk from a state in which its rule begins (`exists_begin`).

`FollowsAt` tells the terminals that follow a nonterminal *in a state*: those of the plain follow
sets, but with the rules held to the states in which they begin.
-/

namespace ShiftReduce

namespace Collection

variable {rules : Array Rule} {c : Collection} {accept start symbolCount terminalCount : Nat}

/-! ## Walks -/

/-- A walk over a form. -/
inductive Walk (c : Collection) : StateId → List SymbolId → StateId → Prop
  | nil (q : StateId) : Walk c q [] q
  | cons {q q' q'' : StateId} {x : SymbolId} {xs : List SymbolId} (h : c.Edge q x q')
    (hw : Walk c q' xs q'') : Walk c q (x :: xs) q''

theorem walk_nil_iff {q q' : StateId} : c.Walk q [] q' ↔ q = q' := by
  constructor
  · rintro ⟨⟩
    rfl
  · rintro rfl
    exact .nil q

theorem walk_cons_iff {q q'' : StateId} {x : SymbolId} {xs : List SymbolId} :
    c.Walk q (x :: xs) q'' ↔ ∃ q', c.Edge q x q' ∧ c.Walk q' xs q'' := by
  constructor
  · rintro (_ | ⟨h, hw⟩)
    exact ⟨_, h, hw⟩
  · rintro ⟨q', h, hw⟩
    exact .cons h hw

theorem walk_append_iff {q q'' : StateId} {xs ys : List SymbolId} :
    c.Walk q (xs ++ ys) q'' ↔ ∃ q', c.Walk q xs q' ∧ c.Walk q' ys q'' := by
  induction xs generalizing q with
  | nil => simp [walk_nil_iff]
  | cons x xs ih =>
    simp only [List.cons_append, walk_cons_iff, ih]
    exact ⟨fun ⟨q₁, h, q₂, hw, hw'⟩ => ⟨q₂, ⟨q₁, h, hw⟩, hw'⟩,
      fun ⟨q₂, ⟨q₁, h, hw⟩, hw'⟩ => ⟨q₁, h, q₂, hw, hw'⟩⟩

theorem Walk.append {q q' q'' : StateId} {xs ys : List SymbolId} (h : c.Walk q xs q')
    (h' : c.Walk q' ys q'') : c.Walk q (xs ++ ys) q'' := walk_append_iff.2 ⟨q', h, h'⟩

theorem Walk.single {q q' : StateId} {x : SymbolId} (h : c.Edge q x q') : c.Walk q [x] q' :=
  .cons h (.nil q')

namespace Canonical

theorem walk_unique (hc : Canonical rules c) {q q₁ q₂ : StateId} {xs : List SymbolId}
    (h₁ : c.Walk q xs q₁) (h₂ : c.Walk q xs q₂) : q₁ = q₂ := by
  induction h₁ with
  | nil => exact walk_nil_iff.1 h₂
  | cons h _ ih =>
    obtain ⟨_, h', hw⟩ := walk_cons_iff.1 h₂
    obtain rfl := hc.edge_unique h h'
    exact ih hw

theorem lt_of_walk (hc : Canonical rules c) {q q' : StateId} {xs : List SymbolId}
    (hw : c.Walk q xs q') (hq : q < c.states.size) : q' < c.states.size := by
  induction hw with
  | nil => exact hq
  | cons he _ ih => exact ih (hc.lt_of_edge he)

/-- Every state is at the end of a walk from the initial one. -/
theorem exists_walk_initial (hc : Canonical rules c) {q : StateId} (h : q < c.states.size) :
    ∃ xs, c.Walk StateId.initial xs q := by
  induction q using Nat.strong_induction_on with
  | _ q ih =>
    by_cases h₀ : q = StateId.initial
    · exact ⟨[], h₀ ▸ .nil _⟩
    · obtain ⟨p, x, hp, he⟩ := hc.exists_edge_to h h₀
      obtain ⟨xs, hw⟩ := ih p hp (Nat.lt_trans hp h)
      exact ⟨xs ++ [x], hw.append (.single he)⟩

/-! ## Items along edges -/

theorem holds_advance (hc : Canonical rules c) {q q' : StateId} {i : Item} {x : SymbolId}
    (h : c.Holds q i) (hx : i.next? rules = some x) (he : c.Edge q x q') : c.Holds q' i.advance :=
  hc.holds_iff.2 (.kernel ((hc.kernel_of_edge he).2 ⟨i, h, hx, rfl⟩))

/-- The rules of a nonterminal begin where it stands behind a dot. -/
theorem holds_predicted (hc : Canonical rules c) {q : StateId} {i : Item} {r : RuleId} {rule : Rule}
    (h : c.Holds q i) (hr : rules[r]? = some rule) (hx : i.next? rules = some rule.lhs) :
    c.Holds q ⟨r, 0⟩ := hc.holds_iff.2 (.predicted (hc.holds_iff.1 h) hr hx)

theorem holds_predicted_of_edge (hc : Canonical rules c) {q q' : StateId} {r : RuleId} {rule : Rule}
    (he : c.Edge q rule.lhs q') (hr : rules[r]? = some rule) : c.Holds q ⟨r, 0⟩ := by
  obtain ⟨i, hi, hx⟩ := hc.exists_edge_iff.1 ⟨q', he⟩
  exact hc.holds_predicted hi hr hx

theorem lt_of_holds {q : StateId} {i : Item} (h : c.Holds q i) : q < c.states.size := by
  obtain ⟨s, hs, -⟩ := h
  exact (Array.getElem?_eq_some_iff.1 hs).1

theorem holds_initial (hc : Canonical rules c) : c.Holds StateId.initial ⟨RuleId.start, 0⟩ :=
  hc.holds_iff.2 (.kernel (hc.kernel_initial.2 rfl))

/-- No edge leads to the initial state. -/
theorem ne_initial_of_edge (hc : Canonical rules c) {q q' : StateId} {x : SymbolId}
    (he : c.Edge q x q') : q' ≠ StateId.initial := by
  rintro rfl
  obtain ⟨i, hi, hx⟩ := hc.exists_edge_iff.1 ⟨_, he⟩
  have h := hc.kernel_initial.1 ((hc.kernel_of_edge he).2 ⟨i, hi, hx, rfl⟩)
  exact Nat.succ_ne_zero i.dot (congrArg Item.dot h)

/-- The kernel behind an edge. -/
theorem kernel_dot_ne_zero (hc : Canonical rules c) {q q' : StateId} {x : SymbolId} {i : Item}
    (he : c.Edge q x q') (h : c.Kernel q' i) : i.dot ≠ 0 := by
  obtain ⟨j, -, -, rfl⟩ := (hc.kernel_of_edge he).1 h
  exact Nat.succ_ne_zero j.dot

theorem lt_of_kernel {q : StateId} {i : Item} (h : c.Kernel q i) : q < c.states.size := by
  obtain ⟨s, hs, -⟩ := h
  exact (Array.getElem?_eq_some_iff.1 hs).1

/-- An item with the dot behind a symbol has come along an edge over that symbol. -/
theorem exists_edge_of_holds_succ (hc : Canonical rules c) {q : StateId} {r : RuleId} {dot : Nat}
    (h : c.Holds q ⟨r, dot + 1⟩) :
    ∃ p x, c.Edge p x q ∧ c.Holds p ⟨r, dot⟩ ∧ Item.next? rules ⟨r, dot⟩ = some x := by
  rcases hc.holds_iff.1 h with hk | _
  have h₀ : q ≠ StateId.initial := by
    rintro rfl
    exact Nat.succ_ne_zero dot (congrArg Item.dot (hc.kernel_initial.1 hk))
  obtain ⟨p, x, -, he⟩ := hc.exists_edge_to (lt_of_kernel hk) h₀
  obtain ⟨⟨r', dot'⟩, hj, hx, hi⟩ := (hc.kernel_of_edge he).1 hk
  obtain ⟨rfl, hdot⟩ := Item.mk.inj hi
  obtain rfl := Nat.succ.inj hdot
  exact ⟨p, x, he, hj, hx⟩

/-- Backwards along any edge, an item with the dot behind a symbol has the dot before it. -/
theorem holds_of_edge_succ (hc : Canonical rules c) {p q : StateId} {x : SymbolId} {r : RuleId}
    {dot : Nat} (he : c.Edge p x q) (h : c.Holds q ⟨r, dot + 1⟩) :
    c.Holds p ⟨r, dot⟩ ∧ Item.next? rules ⟨r, dot⟩ = some x := by
  rcases hc.holds_iff.1 h with hk | _
  obtain ⟨⟨r', dot'⟩, hj, hx, hi⟩ := (hc.kernel_of_edge he).1 hk
  obtain ⟨rfl, hdot⟩ := Item.mk.inj hi
  obtain rfl := Nat.succ.inj hdot
  exact ⟨hj, hx⟩

/-- In the initial state no item has anything before its dot. -/
theorem dot_eq_zero_of_holds_initial (hc : Canonical rules c) {i : Item}
    (h : c.Holds StateId.initial i) : i.dot = 0 := by
  rcases hc.holds_iff.1 h with hk | _
  · rw [hc.kernel_initial.1 hk]
  · rfl

/-- Items are of rules. -/
theorem exists_rule (hc : Canonical rules c)
    (ha : Augmented rules accept start symbolCount terminalCount) {q : StateId} {i : Item}
    (h : c.Holds q i) :
    ∃ rule, rules[i.rule]? = some rule ∧ i.dot ≤ rule.rhs.length := by
  obtain ⟨r, dot⟩ := i
  cases dot with
  | zero =>
    rcases hc.holds_iff.1 h with hk | ⟨-, hr, -⟩
    · by_cases h₀ : q = StateId.initial
      · subst h₀
        obtain ⟨rfl, -⟩ := Item.mk.inj (hc.kernel_initial.1 hk)
        exact ⟨_, ha.start_rule, Nat.zero_le _⟩
      · obtain ⟨p, x, -, he⟩ := hc.exists_edge_to (lt_of_kernel hk) h₀
        exact absurd rfl (hc.kernel_dot_ne_zero he hk)
    · exact ⟨_, hr, Nat.zero_le _⟩
  | succ dot =>
    obtain ⟨p, x, -, -, hx⟩ := hc.exists_edge_of_holds_succ h
    obtain ⟨rule, hr, hx⟩ := Item.next?_eq_some_iff.1 hx
    exact ⟨rule, hr, (List.getElem?_eq_some_iff.1 hx).1⟩

/-- The start rule begins in the initial state and nowhere else. -/
theorem eq_initial_of_holds_start (hc : Canonical rules c)
    (ha : Augmented rules accept start symbolCount terminalCount) {q : StateId}
    (h : c.Holds q ⟨RuleId.start, 0⟩) : q = StateId.initial := by
  by_contra h₀
  obtain ⟨p, x, -, he⟩ := hc.exists_edge_to (lt_of_holds h) h₀
  generalize hi : (⟨RuleId.start, 0⟩ : Item) = i at h
  rcases hc.holds_iff.1 h with hk | ⟨-, hr, hx⟩
  · exact hc.kernel_dot_ne_zero he hk (hi ▸ rfl)
  · obtain ⟨rfl, -⟩ := Item.mk.inj hi
    obtain rfl := Option.some.inj (ha.start_rule.symm.trans hr)
    obtain ⟨rule, hr, hx⟩ := Item.next?_eq_some_iff.1 hx
    exact ha.rhs_ne hr _ (List.mem_of_getElem? hx) rfl

/-- Where a rule begins, there is an edge over its left-hand side. -/
theorem exists_edge_lhs (hc : Canonical rules c) {q : StateId} {r : RuleId} {rule : Rule}
    (h : c.Holds q ⟨r, 0⟩) (hr : rules[r]? = some rule) (h₀ : r ≠ RuleId.start) :
    ∃ q', c.Edge q rule.lhs q' := by
  generalize hi : (⟨r, 0⟩ : Item) = i at h
  rcases hc.holds_iff.1 h with hk | ⟨hj, hr', hx⟩
  · by_cases hq : q = StateId.initial
    · subst hq hi
      exact absurd (congrArg Item.rule (hc.kernel_initial.1 hk)) h₀
    · obtain ⟨p, x, -, he⟩ := hc.exists_edge_to (lt_of_holds h) hq
      exact absurd (hi ▸ rfl) (hc.kernel_dot_ne_zero he hk)
  · obtain ⟨rfl, -⟩ := Item.mk.inj hi
    obtain rfl := Option.some.inj (hr.symm.trans hr')
    exact hc.exists_edge_iff.2 ⟨_, hc.holds_iff.2 hj, hx⟩

/-- Edges are over symbols of right-hand sides. -/
theorem exists_mem_rhs_of_edge (hc : Canonical rules c) {q q' : StateId} {x : SymbolId}
    (he : c.Edge q x q') : ∃ (r : RuleId) (rule : Rule), rules[r]? = some rule ∧ x ∈ rule.rhs := by
  obtain ⟨i, -, hx⟩ := hc.exists_edge_iff.1 ⟨q', he⟩
  obtain ⟨rule, hr, hx⟩ := Item.next?_eq_some_iff.1 hx
  exact ⟨i.rule, rule, hr, List.mem_of_getElem? hx⟩

theorem ne_accept_of_edge (hc : Canonical rules c)
    (ha : Augmented rules accept start symbolCount terminalCount) {q q' : StateId} {x : SymbolId}
    (he : c.Edge q x q') : x ≠ accept := by
  obtain ⟨r, rule, hr, hx⟩ := hc.exists_mem_rhs_of_edge he
  exact ha.rhs_ne hr x hx

theorem lt_symbolCount_of_edge (hc : Canonical rules c)
    (ha : Augmented rules accept start symbolCount terminalCount) {q q' : StateId} {x : SymbolId}
    (he : c.Edge q x q') : x < symbolCount := by
  obtain ⟨r, rule, hr, hx⟩ := hc.exists_mem_rhs_of_edge he
  exact ha.rhs_lt hr x hx

/-! ## Items along walks -/

/-- What stands behind a dot can be walked, and the item goes along. -/
theorem exists_walk (hc : Canonical rules c) {q : StateId} {r : RuleId} {rule : Rule}
    (hr : rules[r]? = some rule) (before : List SymbolId) {xs behind : List SymbolId}
    (hrhs : rule.rhs = before ++ (xs ++ behind)) (h : c.Holds q ⟨r, before.length⟩) :
    ∃ q', c.Walk q xs q' ∧ c.Holds q' ⟨r, (before ++ xs).length⟩ := by
  induction xs generalizing q before with
  | nil => exact ⟨q, .nil q, by simpa using h⟩
  | cons x xs ih =>
    have hx : Item.next? rules ⟨r, before.length⟩ = some x :=
      Item.next?_eq_some_iff.2 ⟨rule, hr, by simp [hrhs]⟩
    obtain ⟨q', he⟩ := hc.exists_edge_iff.2 ⟨_, h, hx⟩
    have h' : c.Holds q' ⟨r, (before ++ [x]).length⟩ := by
      simpa [Item.advance] using hc.holds_advance h hx he
    obtain ⟨q'', hw, hq''⟩ := ih (before ++ [x]) (by simp [hrhs]) h'
    exact ⟨q'', .cons he hw, by simpa using hq''⟩

/-- An item goes along a walk over what stands behind its dot. -/
theorem holds_of_walk (hc : Canonical rules c) {q q' : StateId} {r : RuleId} {rule : Rule}
    (hr : rules[r]? = some rule) (before : List SymbolId) {xs behind : List SymbolId}
    (hrhs : rule.rhs = before ++ (xs ++ behind)) (h : c.Holds q ⟨r, before.length⟩)
    (hw : c.Walk q xs q') : c.Holds q' ⟨r, (before ++ xs).length⟩ := by
  obtain ⟨q'', hw', h'⟩ := hc.exists_walk hr before hrhs h
  obtain rfl := hc.walk_unique hw hw'
  exact h'

/-- Every item has come along a walk from a state in which its rule begins. -/
theorem exists_begin (hc : Canonical rules c)
    (ha : Augmented rules accept start symbolCount terminalCount) {q : StateId} {r : RuleId}
    {dot : Nat} (h : c.Holds q ⟨r, dot⟩) :
    ∃ p rule, rules[r]? = some rule ∧ c.Holds p ⟨r, 0⟩ ∧ c.Walk p (rule.rhs.take dot) q := by
  induction dot generalizing q with
  | zero =>
    obtain ⟨rule, hr, -⟩ := hc.exists_rule ha h
    exact ⟨q, rule, hr, h, by simpa using Walk.nil q⟩
  | succ dot ih =>
    obtain ⟨q', x, he, h', hx⟩ := hc.exists_edge_of_holds_succ h
    obtain ⟨p, rule, hr, hp, hw⟩ := ih h'
    obtain ⟨rule', hr', hx⟩ := Item.next?_eq_some_iff.1 hx
    obtain rfl := Option.some.inj (hr.symm.trans hr')
    refine ⟨p, rule, hr, hp, ?_⟩
    rw [List.take_add_one, hx]
    exact hw.append (.single he)

/-- A rule that ends in a state is completed there. -/
theorem holds_completed (hc : Canonical rules c) {p q : StateId} {r : RuleId} {rule : Rule}
    (hr : rules[r]? = some rule) (hp : c.Holds p ⟨r, 0⟩) (hw : c.Walk p rule.rhs q) :
    c.Holds q ⟨r, rule.rhs.length⟩ :=
  hc.holds_of_walk hr [] (List.append_nil _).symm hp hw

end Canonical

/-! ## Following terminals -/

open ShiftReduce.Derivation

/-- The terminals that follow a nonterminal in a state.  A rule passes them on only to the states on
the walk from the one in which it begins. -/
inductive FollowsAt (rules : Array Rule) (terminalCount : Nat) (c : Collection) :
    StateId → SymbolId → SymbolId → Prop
  | start {rule : Rule} (h : rules[RuleId.start]? = some rule) :
    FollowsAt rules terminalCount c StateId.initial rule.lhs SymbolId.endOfInput
  | next {p q : StateId} {r : RuleId} {rule : Rule} (hr : rules[r]? = some rule)
    (h : c.Holds p ⟨r, 0⟩) {before behind : List SymbolId} {x t : SymbolId}
    (hrhs : rule.rhs = before ++ x :: behind) (hw : c.Walk p before q) (hx : terminalCount ≤ x)
    (ht : Begins (productions rules) terminalCount t behind) : FollowsAt rules terminalCount c q x t
  | last {p q : StateId} {r : RuleId} {rule : Rule} (hr : rules[r]? = some rule)
    (h : c.Holds p ⟨r, 0⟩) {before behind : List SymbolId} {x t : SymbolId}
    (hrhs : rule.rhs = before ++ x :: behind) (hw : c.Walk p before q) (hx : terminalCount ≤ x)
    (hv : Vanishes (productions rules) behind) (ht : FollowsAt rules terminalCount c p rule.lhs t) :
    FollowsAt rules terminalCount c q x t

theorem FollowsAt.lt (hend : SymbolId.endOfInput < terminalCount) {q : StateId} {x t : SymbolId}
    (h : FollowsAt rules terminalCount c q x t) : t < terminalCount := by
  induction h with
  | start => exact hend
  | next _ _ _ _ _ ht => exact ht.lt
  | last _ _ _ _ _ _ _ ih => exact ih

/-- The augmented rules as productions over the symbols. -/
theorem within_of_augmented (ha : Augmented rules accept start symbolCount terminalCount) :
    Analysis.Within (productions rules) symbolCount terminalCount := by
  refine ⟨fun p hp => ?_, fun p hp => ?_, fun p hp => ?_⟩ <;>
    obtain ⟨r, rule, hr, rfl⟩ := mem_productions.1 hp
  · exact ha.lhs_lt hr
  · exact ha.le_lhs hr
  · exact ha.rhs_lt hr

/-- There are words for the numbers of all augmented rules. -/
theorem numbered_of_augmented (ha : Augmented rules accept start symbolCount terminalCount) :
    State.Numbered rules symbolCount terminalCount :=
  { within_of_augmented ha with size_le := Nat.le_succ_of_le ha.size_le }

end Collection
end ShiftReduce
