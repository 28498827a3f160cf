import ShiftReduce.Proofs.StateStack

/-!
# Proofs/Simulation — what is expected is parsed

A state expects a form before a terminal if the form stands behind the dot of one of its items, and
the terminal can come next behind the form (`Expects`).  A table that decides every lookup as its
collection asks makes the moves of any forest of such a form (`runs_of_parses`), whatever is below
on the stack.
-/

namespace ShiftReduce

open ShiftReduce.Derivation

namespace Collection

variable {rules : Array Rule} {c : Collection} {accept start symbolCount terminalCount : Nat}
  {q q' : StateId} {xs ys : List SymbolId} {t : SymbolId}

/-! ## Expected forms -/

/-- The form stands behind the dot of an item of the state. -/
def Stands (rules : Array Rule) (c : Collection) (q : StateId) (xs : List SymbolId) : Prop :=
  ∃ (p : StateId) (r : RuleId) (rule : Rule) (before behind : List SymbolId),
    rules[r]? = some rule ∧ c.Holds p ⟨r, 0⟩ ∧ rule.rhs = before ++ (xs ++ behind) ∧
    c.Walk p before q

/-- The form stands behind the dot of an item of the state, and the terminal can come next behind
the form. -/
def Expects (rules : Array Rule) (terminalCount : Nat) (c : Collection) (q : StateId)
    (xs : List SymbolId) (t : SymbolId) : Prop :=
  ∃ (p : StateId) (r : RuleId) (rule : Rule) (before behind : List SymbolId),
    rules[r]? = some rule ∧ c.Holds p ⟨r, 0⟩ ∧ rule.rhs = before ++ (xs ++ behind) ∧
    c.Walk p before q ∧ (Begins (productions rules) terminalCount t behind ∨
      Vanishes (productions rules) behind ∧ FollowsAt rules terminalCount c p rule.lhs t)

theorem Expects.stands (h : Expects rules terminalCount c q xs t) : Stands rules c q xs := by
  obtain ⟨p, r, rule, before, behind, hr, hp, hrhs, hw, -⟩ := h
  exact ⟨p, r, rule, before, behind, hr, hp, hrhs, hw⟩

theorem Stands.of_append (h : Stands rules c q (xs ++ ys)) : Stands rules c q xs := by
  obtain ⟨p, r, rule, before, behind, hr, hp, hrhs, hw⟩ := h
  exact ⟨p, r, rule, before, ys ++ behind, hr, hp, by rw [hrhs, List.append_assoc], hw⟩

/-- Behind a walk over its first symbols stands the rest of a form. -/
theorem Stands.of_walk (h : Stands rules c q (xs ++ ys)) (hw : c.Walk q xs q') :
    Stands rules c q' ys := by
  obtain ⟨p, r, rule, before, behind, hr, hp, hrhs, hw'⟩ := h
  exact ⟨p, r, rule, before ++ xs, behind, hr, hp, by simp [hrhs], hw'.append hw⟩

/-- What is expected is walked. -/
theorem Stands.exists_walk (hc : Canonical rules c) (h : Stands rules c q xs) :
    ∃ q', c.Walk q xs q' := by
  obtain ⟨p, r, rule, before, behind, hr, hp, hrhs, hw⟩ := h
  have hq := hc.holds_of_walk hr [] hrhs hp hw
  obtain ⟨q', hw', -⟩ := hc.exists_walk hr before hrhs hq
  exact ⟨q', hw'⟩

/-- There is an edge over the first symbol of what stands behind a dot. -/
theorem Stands.exists_edge (hc : Canonical rules c) {x : SymbolId}
    (h : Stands rules c q (x :: xs)) : ∃ q', c.Edge q x q' := by
  obtain ⟨q', hw⟩ := h.exists_walk hc
  obtain ⟨q'', he, -⟩ := walk_cons_iff.1 hw
  exact ⟨q'', he⟩

/-- In front of a nonterminal, the right-hand sides of its rules stand behind dots as well. -/
theorem Stands.rhs (hc : Canonical rules c) {r : RuleId} {rule : Rule}
    (hr : rules[r]? = some rule) (h : Stands rules c q (rule.lhs :: xs)) :
    Stands rules c q rule.rhs := by
  obtain ⟨q', he⟩ := h.exists_edge hc
  exact ⟨q, r, rule, [], [], hr, hc.holds_predicted_of_edge he hr, by simp, .nil q⟩

/-- What begins the rest of a form can come next behind the form before it. -/
theorem Stands.expects (h : Stands rules c q (xs ++ ys))
    (ht : Begins (productions rules) terminalCount t ys) :
    Expects rules terminalCount c q xs t := by
  obtain ⟨p, r, rule, before, behind, hr, hp, hrhs, hw⟩ := h
  refine ⟨p, r, rule, before, ys ++ behind, hr, hp, by rw [hrhs, List.append_assoc], hw, .inl ?_⟩
  exact begins_append.2 (.inl ht)

theorem Expects.of_vanishes (h : Expects rules terminalCount c q (xs ++ ys) t)
    (hv : Vanishes (productions rules) ys) : Expects rules terminalCount c q xs t := by
  obtain ⟨p, r, rule, before, behind, hr, hp, hrhs, hw, ht⟩ := h
  refine ⟨p, r, rule, before, ys ++ behind, hr, hp, by rw [hrhs, List.append_assoc], hw, ?_⟩
  rw [begins_append, vanishes_append]
  exact ht.imp (fun ht => .inr ⟨hv, ht⟩) fun ⟨hb, ht⟩ => ⟨⟨hv, hb⟩, ht⟩

theorem Expects.of_walk (h : Expects rules terminalCount c q (xs ++ ys) t) (hw : c.Walk q xs q') :
    Expects rules terminalCount c q' ys t := by
  obtain ⟨p, r, rule, before, behind, hr, hp, hrhs, hw', ht⟩ := h
  exact ⟨p, r, rule, before ++ xs, behind, hr, hp, by simp [hrhs], hw'.append hw, ht⟩

theorem Expects.followsAt {x : SymbolId} (hx : terminalCount ≤ x)
    (h : Expects rules terminalCount c q [x] t) : FollowsAt rules terminalCount c q x t := by
  obtain ⟨p, r, rule, before, behind, hr, hp, hrhs, hw, ht⟩ := h
  rcases ht with ht | ⟨hb, ht⟩
  · exact .next hr hp hrhs hw hx ht
  · exact .last hr hp hrhs hw hx hb ht

theorem FollowsAt.expects (hc : Canonical rules c)
    (ha : Augmented rules accept start symbolCount terminalCount) {x : SymbolId}
    (h : FollowsAt rules terminalCount c q x t) (he : c.Edge q x q') :
    Expects rules terminalCount c q [x] t := by
  cases h with
  | start h =>
    obtain rfl := Option.some.inj (ha.start_rule.symm.trans h)
    exact absurd rfl (hc.ne_accept_of_edge ha he)
  | next hr hp hrhs hw _ ht => exact ⟨_, _, _, _, _, hr, hp, hrhs, hw, .inl ht⟩
  | last hr hp hrhs hw _ hv ht => exact ⟨_, _, _, _, _, hr, hp, hrhs, hw, .inr ⟨hv, ht⟩⟩

/-- Where a nonterminal is expected, so is every right-hand side of it. -/
theorem Expects.rhs (hc : Canonical rules c)
    (ha : Augmented rules accept start symbolCount terminalCount) {r : RuleId} {rule : Rule}
    (hr : rules[r]? = some rule) (h : Expects rules terminalCount c q [rule.lhs] t) :
    Expects rules terminalCount c q rule.rhs t := by
  obtain ⟨q', he⟩ := h.stands.exists_edge hc
  exact ⟨q, r, rule, [], [], hr, hc.holds_predicted_of_edge he hr, by simp, .nil q,
    .inr ⟨.nil, h.followsAt (ha.le_lhs hr)⟩⟩

/-- The start symbol is expected in the initial state before the end of the input. -/
theorem expects_start (hc : Canonical rules c)
    (ha : Augmented rules accept start symbolCount terminalCount) :
    Expects rules terminalCount c StateId.initial [start] SymbolId.endOfInput :=
  ⟨_, _, _, [], [], ha.start_rule, hc.holds_initial, rfl, .nil _, .inr ⟨.nil, .start ha.start_rule⟩⟩

/-- The first leaf of a forest, or else what is behind it, can come next before the forest. -/
theorem Expects.head (h : Expects rules terminalCount c q (xs ++ ys) t) {G : Forest SymbolId}
    (hG : G.Parses rules terminalCount id ys) {u : SymbolId} {w w' : List SymbolId}
    (hw : G.yield ++ t :: w = u :: w') : Expects rules terminalCount c q xs u := by
  have hderives := hG.derives
  have hlt := hG.lt_of_mem_yield
  rw [List.map_id] at hderives
  cases hy : G.yield with
  | nil =>
    rw [hy] at hw hderives
    obtain ⟨rfl, -⟩ := List.cons.inj hw
    exact h.of_vanishes (vanishes_iff_derives.2 hderives)
  | cons v vs =>
    rw [hy] at hw hderives hlt
    obtain ⟨rfl, -⟩ := List.cons.inj hw
    exact h.stands.expects ((begins_iff_derives (hlt v List.mem_cons_self)).2 ⟨vs, hderives⟩)

end Collection

open Collection

/-! ## Simulation -/

namespace Table

variable {t : Table} {rules : Array Rule} {c : Collection}
  {accept start symbolCount terminalCount : Nat}

/-- A rule is reduced where it ends, before what follows its left-hand side where it began. -/
theorem Decides.move?_reduce (hd : t.Decides rules terminalCount c) (hc : Canonical rules c)
    (ha : Augmented rules accept start symbolCount terminalCount) {p : StateId} {r : RuleId}
    {rule : Rule} {u : SymbolId} (hr : rules[r]? = some rule)
    (h : Expects rules terminalCount c p [rule.lhs] u) (hu : u ≠ SymbolId.epsilon)
    {s : List StateId} (hs : Stack c p s rule.rhs) (below : List StateId) :
    ∃ q, c.Edge p rule.lhs q ∧
      t.move? u (s ++ below) = some (.reduce r, q :: p :: below) := by
  obtain ⟨q, he⟩ := h.stands.exists_edge hc
  have hne : r ≠ RuleId.start := by
    rintro rfl
    obtain rfl := Option.some.inj (ha.start_rule.symm.trans hr)
    exact hc.ne_accept_of_edge ha he rfl
  obtain ⟨top, s', rfl⟩ := hs.exists_cons
  refine ⟨q, he, move?_of_reduce (hd.reduce_iff.2 ⟨⟨p, rule, hr, ?_, hs.walk, ?_⟩, hne, hu⟩)
    (by rw [hd.rule?, hr]; rfl) ?_ (hd.goto_of_edge (ha.le_lhs hr) he)⟩
  · exact hc.holds_predicted_of_edge he hr
  · exact h.followsAt (ha.le_lhs hr)
  · change (top :: s' ++ below).drop rule.rhs.length = p :: below
    rw [List.drop_append_of_le_length (by simp [hs.length_eq]), hs.drop_length]
    rfl

/-- **The moves of every forest of an expected form are made**, up to what can come next behind it
and on any stack. -/
theorem Decides.runs_of_parses (hd : t.Decides rules terminalCount c) (hc : Canonical rules c)
    (ha : Augmented rules accept start symbolCount terminalCount) {q : StateId}
    {xs : List SymbolId} {u : SymbolId} {F : Forest SymbolId}
    (hF : F.Parses rules terminalCount id xs) (h : Expects rules terminalCount c q xs u)
    (hy : SymbolId.epsilon ∉ F.yield) (hu : u ≠ SymbolId.epsilon) :
    ∃ s, Stack c q s xs ∧ ∀ below w,
      t.Runs (q :: below) (F.yield ++ u :: w) (F.moves id) (s ++ below) (u :: w) := by
  induction hF generalizing q u with
  | nil => exact ⟨[q], .bottom, fun below w => .refl _ _⟩
  | @leaf xs F x hF hx ih =>
    simp only [Forest.yield, List.mem_append, List.mem_singleton, not_or] at hy
    obtain ⟨s, hs, hruns⟩ := ih (h.head (.leaf .nil hx) (w := []) rfl) hy.1 (Ne.symm hy.2)
    obtain ⟨p, s', rfl⟩ := hs.exists_cons
    obtain ⟨p', he⟩ := (h.of_walk hs.walk).stands.exists_edge hc
    refine ⟨p' :: p :: s', hs.push he, fun below w => ?_⟩
    have hruns := hruns below (u :: w)
    simp only [Forest.yield, Forest.moves, List.append_assoc]
    exact hruns.trans (.shift (move?_of_shift (hd.shift_of_edge hx he)) (.refl _ _))
  | @node xs F children r rule hF hr hchildren ih ihc =>
    simp only [Forest.yield, List.mem_append, not_or] at hy
    have hnode : (Forest.node .nil r children).Parses rules terminalCount id [rule.lhs] :=
      .node .nil hr hchildren
    -- what comes next behind the trees to the left
    obtain ⟨v, hv⟩ : ∃ v, ∀ w, ∃ w', children.yield ++ u :: w = v :: w' := by
      cases children.yield with
      | nil => exact ⟨u, fun w => ⟨w, rfl⟩⟩
      | cons v vs => exact ⟨v, fun w => ⟨vs ++ u :: w, rfl⟩⟩
    obtain ⟨w', hw'⟩ := hv []
    have hv₀ : v ≠ SymbolId.epsilon := by
      rintro rfl
      have hmem : SymbolId.epsilon ∈ children.yield ++ [u] := hw' ▸ List.mem_cons_self
      rcases List.mem_append.1 hmem with hmem | hmem
      · exact hy.2 hmem
      · exact hu (List.mem_singleton.1 hmem).symm
    obtain ⟨s, hs, hruns⟩ := ih (h.head hnode hw') hy.1 hv₀
    obtain ⟨p, s', rfl⟩ := hs.exists_cons
    have hp := h.of_walk hs.walk
    obtain ⟨s₁, hs₁, hruns₁⟩ := ihc (hp.rhs hc ha hr) hy.2 hu
    obtain ⟨p', he, -⟩ := hd.move?_reduce hc ha hr hp hu hs₁ []
    refine ⟨p' :: p :: s', hs.push he, fun below w => ?_⟩
    obtain ⟨p'', he', hmove⟩ := hd.move?_reduce hc ha hr hp hu hs₁ (s' ++ below)
    obtain rfl := hc.edge_unique he he'
    obtain ⟨w', hw'⟩ := hv w
    have hruns := hruns below w'
    rw [← hw'] at hruns
    simp only [Forest.yield, Forest.moves, List.append_assoc]
    exact hruns.trans ((hruns₁ (s' ++ below) w).trans (.reduce hmove (.refl _ _)))

end Table
end ShiftReduce
