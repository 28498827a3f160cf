import Mathlib.Data.Fintype.EquivFin
import Mathlib.Order.WellFounded
import ShiftReduce.Proofs.Simulation
import ShiftReduce.Proofs.Soundness

/-!
# Proofs/Termination — no endless reducing

On an LALR automaton without conflicts a parser reduces only finitely often before it shifts,
accepts or fails, also on a terminal that is an error.

A lookahead is in the cell of a reduction because it follows the left-hand side in *some* state in
which the rule begins.  There the parser gets to it: after what vanishes comes a shift, or the end
of a rule that the lookahead follows in turn (`acc_of_followsAt`).  The stack at hand may hold
another such state, but a cycle of rules that vanish but for their first symbol would run in every
state, so there is none (`wellFounded_heads`), and each reduction that pops more than was pushed on
the lookahead goes down the stack or along that order (`acc_of_stack`).
-/

namespace ShiftReduce

open ShiftReduce.Derivation Collection

/-! ## Reductions -/

/-- A reduction on the terminal ahead, the stack behind it first. -/
def Table.Reduces (t : Table) (x : SymbolId) (s' s : List StateId) : Prop :=
  ∃ r, t.move? x s = some (.reduce r, s')

namespace Table

variable {t : Table} {x : SymbolId}

theorem Reduces.unique {s s₁ s₂ : List StateId} (h₁ : t.Reduces x s₁ s) (h₂ : t.Reduces x s₂ s) :
    s₁ = s₂ := by
  obtain ⟨r₁, h₁⟩ := h₁
  obtain ⟨r₂, h₂⟩ := h₂
  exact (Prod.mk.inj (Option.some.inj (h₁.symm.trans h₂))).2

/-- Reductions end if they lead to where they do. -/
theorem acc_of_reduces {s s' : List StateId} (h : Relation.ReflTransGen (t.Reduces x) s' s)
    (hs : Acc (t.Reduces x) s') : Acc (t.Reduces x) s := by
  induction h with
  | refl => exact hs
  | tail _ h ih => exact .intro _ fun s'' h' => h.unique h' ▸ ih

theorem acc_of_not_reduces {s : List StateId} (h : ∀ r s', t.move? x s ≠ some (.reduce r, s')) :
    Acc (t.Reduces x) s :=
  .intro _ fun _ ⟨_, h'⟩ => absurd h' (h _ _)

/-- A run that takes nothing of what is ahead reduces. -/
theorem Runs.reduces {s s' : List StateId} {ms : List Move} (h : t.Runs s [x] ms s' [x]) :
    Relation.ReflTransGen (t.Reduces x) s' s := by
  suffices hw : ∀ w w', t.Runs s w ms s' w' → w = [x] → w' = [x] →
      Relation.ReflTransGen (t.Reduces x) s' s from hw [x] [x] h rfl rfl
  clear h
  intro w w' h hw hw'
  induction h with
  | refl => exact .refl
  | shift _ hr =>
    obtain ⟨-, rfl⟩ := List.cons.inj hw
    subst hw'
    exact absurd hr.length_le (by simp)
  | reduce h _ ih =>
    obtain ⟨rfl, rfl⟩ := List.cons.inj hw
    exact (ih rfl hw').tail ⟨_, h⟩

variable {rules : Array Rule} {c : Collection} {accept start symbolCount terminalCount : Nat}

/-- What vanishes is reduced where it is expected. -/
theorem Decides.exists_reduces_of_vanishes (hd : t.Decides rules terminalCount c)
    (hc : Canonical rules c) (ha : Augmented rules accept start symbolCount terminalCount)
    {q : StateId} {xs : List SymbolId} (h : Expects rules terminalCount c q xs x)
    (hx : x ≠ SymbolId.epsilon) (hv : Vanishes (productions rules) xs) :
    ∃ s, Stack c q s xs ∧
      ∀ below, Relation.ReflTransGen (t.Reduces x) (s ++ below) (q :: below) := by
  obtain ⟨F, hF, hy⟩ : ∃ F : Forest SymbolId, F.Parses rules terminalCount id xs ∧ F.yield = [] :=
    Forest.exists_parses_of_vanishes id hv
  obtain ⟨s, hs, hruns⟩ := hd.runs_of_parses hc ha hF h (by simp [hy]) hx
  refine ⟨s, hs, fun below => ?_⟩
  have hruns := hruns below []
  rw [hy] at hruns
  exact hruns.reduces

/-- Where the terminal begins a form that stands behind a dot, it is shifted in the end. -/
theorem Decides.acc_of_begins (hd : t.Decides rules terminalCount c) (hc : Canonical rules c)
    (ha : Augmented rules accept start symbolCount terminalCount) (hx : x ≠ SymbolId.epsilon)
    {q : StateId} {xs : List SymbolId} (h : Stands rules c q xs)
    (hb : Begins (productions rules) terminalCount x xs) (below : List StateId) :
    Acc (t.Reduces x) (q :: below) := by
  induction hb generalizing q below with
  | terminal hlt xs =>
    obtain ⟨q', he⟩ := h.exists_edge hc
    refine acc_of_not_reduces fun r s' hmove => ?_
    rw [move?_of_shift (hd.shift_of_edge hlt he)] at hmove
    exact Move.noConfusion (Prod.mk.inj (Option.some.inj hmove)).1
  | rule hp _ xs ih =>
    obtain ⟨r, rule, hr, rfl⟩ := mem_productions.1 hp
    exact ih (h.rhs hc hr) below
  | @behind y ys hy hys ih =>
    have h : Stands rules c q ([y] ++ ys) := h
    obtain ⟨s, hs, hreduces⟩ := hd.exists_reduces_of_vanishes hc ha (h.expects hys) hx hy
    obtain ⟨q', s', rfl⟩ := hs.exists_cons
    exact acc_of_reduces (hreduces below) (ih (h.of_walk hs.walk) (s' ++ below))

/-! ## In the state that a lookahead is meant for -/

/-- Nothing but the end of the input follows the symbol of the start rule. -/
theorem eq_endOfInput_of_followsAt (ha : Augmented rules accept start symbolCount terminalCount)
    {q : StateId} (h : FollowsAt rules terminalCount c q accept x) : x = SymbolId.endOfInput := by
  generalize hy : accept = y at h
  cases h with
  | start h => rfl
  | next hr _ hrhs => exact absurd hy.symm (ha.rhs_ne hr _ (by simp [hrhs]))
  | last hr _ hrhs => exact absurd hy.symm (ha.rhs_ne hr _ (by simp [hrhs]))

/-- **Reductions end behind a nonterminal that the lookahead follows**, whatever is below. -/
theorem Decides.acc_of_followsAt (hd : t.Decides rules terminalCount c) (hc : Canonical rules c)
    (ha : Augmented rules accept start symbolCount terminalCount) (hx : x ≠ SymbolId.epsilon)
    {q a : StateId} {y : SymbolId} (h : FollowsAt rules terminalCount c q y x)
    (he : c.Edge q y a) : Acc (t.Reduces x) [a, q] := by
  induction h generalizing a with
  | start h =>
    obtain rfl := Option.some.inj (ha.start_rule.symm.trans h)
    exact absurd rfl (hc.ne_accept_of_edge ha he)
  | @next p q r rule hr hp before behind y x hrhs hw hy hb =>
    have h : Stands rules c q ([y] ++ behind) :=
      ⟨p, r, rule, before, [], hr, hp, by simp [hrhs], hw⟩
    exact hd.acc_of_begins hc ha hx (h.of_walk (.single he)) hb [q]
  | @last p q r rule hr hp before behind y x hrhs hw hy hv ht ih =>
    have h : Expects rules terminalCount c q ([y] ++ behind) x :=
      ⟨p, r, rule, before, [], hr, hp, by simp [hrhs], hw, .inr ⟨.nil, ht⟩⟩
    obtain ⟨s, hs, hreduces⟩ := hd.exists_reduces_of_vanishes hc ha (h.of_walk (.single he)) hx hv
    refine acc_of_reduces (hreduces [q]) (.intro _ fun s' ⟨r', hmove⟩ => ?_)
    -- behind what vanishes the rule itself is reduced, if it begins in `q`
    obtain ⟨z, s₀, rule', before', p', below, q', hz, hcell, hr', happ, -, hbelow, -, -, he',
      rfl⟩ := hd.of_reduce hc ha ((Stack.bottom.push he).append hs) hmove
    obtain ⟨z', s₁, rfl⟩ := hs.exists_cons
    obtain ⟨rfl, -⟩ := List.cons.inj hz
    have hends : c.Walk p rule.rhs z' := by
      rw [hrhs]
      exact hw.append (.cons he hs.walk)
    have hne : r ≠ RuleId.start := by
      rintro rfl
      obtain rfl := Option.some.inj (ha.start_rule.symm.trans hr)
      obtain rfl := eq_endOfInput_of_followsAt ha ht
      have haccept := hd.accept_of_holds (hc.holds_completed ha.start_rule hp hends)
      exact Cell.noConfusion (haccept.symm.trans hcell)
    have hcell' := hd.reduce_iff.2 ⟨⟨p, rule, hr, hp, hends, ht⟩, hne, hx⟩
    obtain rfl := Cell.reduce.inj (hcell'.symm.trans hcell)
    obtain rfl := Option.some.inj (hr.symm.trans hr')
    have hlength := congrArg List.length happ
    simp only [hrhs, List.length_append, List.length_cons, List.length_nil] at hlength
    obtain rfl : before = [] := List.length_eq_zero_iff.1 (by omega)
    obtain rfl : before' = [] := List.length_eq_zero_iff.1 (by omega)
    obtain rfl := walk_nil_iff.1 hw
    obtain ⟨rfl, rfl⟩ := List.cons.inj hbelow.eq_bottom
    exact ih hx he'

/-- Reductions end on every state alone. -/
theorem Decides.acc_singleton (hd : t.Decides rules terminalCount c) (hc : Canonical rules c)
    (ha : Augmented rules accept start symbolCount terminalCount) (q : StateId) :
    Acc (t.Reduces x) [q] := by
  refine .intro _ fun s' ⟨r, hmove⟩ => ?_
  obtain ⟨z, s₀, rule, before, p, below, q', hz, hcell, hr, happ, -, hbelow, -, -, he, rfl⟩ :=
    hd.of_reduce hc ha (.bottom (c := c) (b := q)) hmove
  obtain ⟨rfl, rfl⟩ := List.cons.inj hz
  obtain ⟨rfl, hrhs⟩ := List.append_eq_nil_iff.1 happ.symm
  obtain ⟨rfl, rfl⟩ := List.cons.inj hbelow.eq_bottom
  obtain ⟨⟨p', rule', hr', -, hw, ht⟩, -, hx⟩ := hd.reduce_iff.1 hcell
  obtain rfl := Option.some.inj (hr.symm.trans hr')
  rw [hrhs] at hw
  obtain rfl := walk_nil_iff.1 hw
  exact hd.acc_of_followsAt hc ha hx ht he

/-! ## Rules that vanish but for their first symbol -/

/-- The nonterminal `y` has a rule that vanishes behind its first symbol `z`, and the terminal
follows `y` in a state in which the rule begins. -/
def Heads (rules : Array Rule) (terminalCount : Nat) (c : Collection) (x y z : SymbolId) : Prop :=
  ∃ (p : StateId) (r : RuleId) (rule : Rule) (behind : List SymbolId),
    rules[r]? = some rule ∧ c.Holds p ⟨r, 0⟩ ∧ FollowsAt rules terminalCount c p rule.lhs x ∧
    rule.lhs = y ∧ rule.rhs = z :: behind ∧ Vanishes (productions rules) behind

/-- Such a rule is reduced in every state that expects its left-hand side. -/
theorem Decides.exists_reduces_of_heads (hd : t.Decides rules terminalCount c)
    (hc : Canonical rules c) (ha : Augmented rules accept start symbolCount terminalCount)
    (hx : x ≠ SymbolId.epsilon) {p a : StateId} {y z : SymbolId}
    (h : Heads rules terminalCount c x y z) (hy : Expects rules terminalCount c p [y] x)
    (he : c.Edge p y a) :
    ∃ a', c.Edge p z a' ∧ Expects rules terminalCount c p [z] x ∧
      Relation.TransGen (t.Reduces x) [a, p] [a', p] := by
  obtain ⟨-, r, rule, behind, hr, -, -, rfl, hrhs, hv⟩ := h
  have hz : Expects rules terminalCount c p ([z] ++ behind) x := by
    have h := hy.rhs hc ha hr
    rwa [hrhs] at h
  obtain ⟨a', he'⟩ := hz.stands.of_append.exists_edge hc
  obtain ⟨s, hs, hreduces⟩ := hd.exists_reduces_of_vanishes hc ha (hz.of_walk (.single he')) hx hv
  have hstack : Stack c p (s ++ [p]) rule.rhs := by
    rw [hrhs]
    exact (Stack.bottom.push he').append hs
  obtain ⟨a'', he'', hmove⟩ := hd.move?_reduce hc ha hr hy hx hstack []
  obtain rfl := hc.edge_unique he he''
  refine ⟨a', he', hz.of_vanishes hv, .trans_left (.single ⟨r, ?_⟩) (hreduces [p])⟩
  rwa [List.append_nil] at hmove

/-- **No nonterminal comes back to itself** along such rules. -/
theorem Decides.not_transGen_heads (hd : t.Decides rules terminalCount c)
    (hc : Canonical rules c) (ha : Augmented rules accept start symbolCount terminalCount)
    (hx : x ≠ SymbolId.epsilon) (y : SymbolId) :
    ¬ Relation.TransGen (Heads rules terminalCount c x) y y := by
  intro h
  -- it is a left-hand side, and not that of the start rule
  obtain ⟨-, ⟨p, r, rule, -, hr, hp, ht, rfl, -, -⟩, -⟩ := Relation.TransGen.head'_iff.1 h
  have hne : r ≠ RuleId.start := by
    rintro rfl
    obtain rfl := Option.some.inj (ha.start_rule.symm.trans hr)
    obtain ⟨-, -, ⟨_, r', rule', _, hr', -, -, -, hrhs, -⟩⟩ := Relation.TransGen.tail'_iff.1 h
    exact ha.rhs_ne hr' _ (by simp [hrhs]) rfl
  obtain ⟨a, he⟩ := hc.exists_edge_lhs hp hr hne
  -- where the lookahead is meant for it, reductions go round
  have hround : ∀ z, Relation.TransGen (Heads rules terminalCount c x) rule.lhs z →
      ∃ a', c.Edge p z a' ∧ Expects rules terminalCount c p [z] x ∧
        Relation.TransGen (t.Reduces x) [a, p] [a', p] := by
    intro z hz
    induction hz with
    | single h => exact hd.exists_reduces_of_heads hc ha hx h (ht.expects hc ha he) he
    | tail _ h ih =>
      obtain ⟨a', he', hy, hreduces⟩ := ih
      obtain ⟨a'', he'', hz, hreduces'⟩ := hd.exists_reduces_of_heads hc ha hx h hy he'
      exact ⟨a'', he'', hz, hreduces.trans hreduces'⟩
  obtain ⟨a', he', -, hreduces⟩ := hround _ h
  obtain rfl := hc.edge_unique he he'
  have hacc := (hd.acc_of_followsAt hc ha hx ht he).transGen
  exact (acc_iff_isEmpty_descending_chain.1 hacc).false ⟨fun _ => [a, p], rfl, fun _ => hreduces⟩

/-- A reduction by such a rule goes down a well-founded order. -/
theorem Decides.wellFounded_heads (hd : t.Decides rules terminalCount c)
    (hc : Canonical rules c) (ha : Augmented rules accept start symbolCount terminalCount)
    (hx : x ≠ SymbolId.epsilon) :
    WellFounded fun y z : Fin symbolCount => Heads rules terminalCount c x y z := by
  have hsub : Subrelation (fun y z : Fin symbolCount => Heads rules terminalCount c x y z)
      fun y z => Relation.TransGen (Heads rules terminalCount c x) y.1 z.1 :=
    fun h => .single h
  have : IsTrans (Fin symbolCount) fun y z =>
      Relation.TransGen (Heads rules terminalCount c x) y.1 z.1 := ⟨fun _ _ _ => .trans⟩
  have : Std.Irrefl fun y z : Fin symbolCount =>
      Relation.TransGen (Heads rules terminalCount c x) y.1 z.1 :=
    ⟨fun y => hd.not_transGen_heads hc ha hx y.1⟩
  exact hsub.wf (Finite.wellFounded_of_trans_of_irrefl _)

/-! ## On any stack -/

/-- Reductions end on one stack on another, if they do on the first alone and behind every
reduction that goes below it. -/
theorem acc_append {P : List StateId → Prop} {below : List StateId}
    (hP : ∀ s s', P s → t.Reduces x s' s → P s')
    (hpop : ∀ s s', P s → (∀ r s₁, t.move? x s ≠ some (.reduce r, s₁)) →
      t.Reduces x s' (s ++ below) → Acc (t.Reduces x) s')
    {s : List StateId} (hs : P s) (h : Acc (t.Reduces x) s) : Acc (t.Reduces x) (s ++ below) := by
  induction h with
  | intro s _ ih =>
    refine .intro _ fun s' hs' => ?_
    by_cases hmove : ∃ r s₁, t.move? x s = some (.reduce r, s₁)
    · obtain ⟨r, s₁, hmove⟩ := hmove
      obtain rfl := Reduces.unique ⟨r, move?_append hmove below⟩ hs'
      exact ih s₁ ⟨r, hmove⟩ (hP s s₁ hs ⟨r, hmove⟩)
    · exact hpop s s' hs (fun r s₁ h => hmove ⟨r, s₁, h⟩) hs'

/-- What is pushed on the lookahead still vanishes behind a reduction. -/
theorem Decides.vanishes_of_reduces (hd : t.Decides rules terminalCount c) (hc : Canonical rules c)
    (ha : Augmented rules accept start symbolCount terminalCount) {a : StateId}
    {s s' : List StateId} (h : ∃ ys, Stack c a s ys ∧ Vanishes (productions rules) ys)
    (hs' : t.Reduces x s' s) : ∃ ys, Stack c a s' ys ∧ Vanishes (productions rules) ys := by
  obtain ⟨ys, hs, hv⟩ := h
  obtain ⟨r, hmove⟩ := hs'
  obtain ⟨-, -, rule, before, p, below, q, -, -, hr, rfl, -, hbelow, -, -, he, rfl⟩ :=
    hd.of_reduce hc ha hs hmove
  obtain ⟨hbefore, hrhs⟩ := vanishes_append.1 hv
  exact ⟨_, hbelow.push he, vanishes_append.2
    ⟨hbefore, .of_mem (mem_productions_of_getElem? hr) hrhs⟩⟩

/-- A reduction that pops the state `a`, and what was pushed on it on the lookahead, is by a rule
that begins with the symbol of the edge to `a`, or that began further down. -/
theorem Decides.of_pop (hd : t.Decides rules terminalCount c) (hc : Canonical rules c)
    (ha : Augmented rules accept start symbolCount terminalCount) {b p a : StateId}
    {rest s s' : List StateId} {xs ys : List SymbolId} {y : SymbolId}
    (h : Stack c b (p :: rest) xs) (he : c.Edge p y a) (hs : Stack c a s ys)
    (hv : Vanishes (productions rules) ys) (hstuck : ∀ r s₁, t.move? x s ≠ some (.reduce r, s₁))
    (hs' : t.Reduces x s' (s ++ p :: rest)) :
    ∃ p' below zs z q, Stack c b (p' :: below) zs ∧ z < symbolCount ∧ c.Edge p' z q ∧
      s' = q :: p' :: below ∧ (p' :: below = p :: rest ∧ Heads rules terminalCount c x z y ∨
        (p' :: below).length < (p :: rest).length) := by
  obtain ⟨r, hmove⟩ := hs'
  obtain ⟨z, s₀, rule, before, p', below, q, -, hcell, hr, happ, hdrop, hbelow, -, -, he', rfl⟩ :=
    hd.of_reduce hc ha ((h.push he).append hs) hmove
  refine ⟨p', below, before, rule.lhs, q, hbelow, ha.lhs_lt hr, he', rfl, ?_⟩
  rcases Nat.lt_trichotomy rule.rhs.length s.length with hlt | heq | hgt
  · have hrule : t.rule? r = some (Automaton.reduction rule) := by rw [hd.rule?, hr]; rfl
    obtain ⟨s₁, hmove⟩ := exists_move?_of_append hmove hrule hlt
    exact absurd hmove (hstuck r s₁)
  · rw [heq, List.drop_left] at hdrop
    have happ : xs ++ y :: ys = before ++ rule.rhs := by simpa using happ
    obtain ⟨-, hrhs⟩ := List.append_inj' happ (by rw [heq, hs.length_eq]; rfl)
    obtain ⟨⟨p₀, rule₀, hr₀, hp₀, -, ht⟩, -, -⟩ := hd.reduce_iff.1 hcell
    obtain rfl := Option.some.inj (hr.symm.trans hr₀)
    exact .inl ⟨hdrop.symm, p₀, r, rule, ys, hr, hp₀, ht, rfl, hrhs.symm, hv⟩
  · refine .inr ?_
    rw [← hdrop, List.length_drop, List.length_append]
    have hpos : 0 < (p :: rest).length := Nat.succ_pos rest.length
    omega

/-- **Reductions end on every stack.** -/
theorem Decides.acc_of_stack (hd : t.Decides rules terminalCount c) (hc : Canonical rules c)
    (ha : Augmented rules accept start symbolCount terminalCount) (hx : x ≠ SymbolId.epsilon)
    {b : StateId} {s : List StateId} {xs : List SymbolId} (h : Stack c b s xs) :
    Acc (t.Reduces x) s := by
  -- by the height of what is below the top, and by the symbol that leads to the top
  suffices hsuff : ∀ n p rest xs, (p :: rest).length = n → Stack c b (p :: rest) xs →
      ∀ (y : Fin symbolCount) (a : StateId), c.Edge p y.1 a →
        Acc (t.Reduces x) (a :: p :: rest) by
    cases h with
    | bottom => exact hd.acc_singleton hc ha b
    | push h he => exact hsuff _ _ _ _ rfl h ⟨_, hc.lt_symbolCount_of_edge ha he⟩ _ he
  clear h
  intro n
  induction n using Nat.strong_induction_on with
  | _ n ihn =>
  intro p rest xs hn h y
  induction y using (hd.wellFounded_heads hc ha hx).induction with
  | _ y ihy =>
  intro a he
  change Acc (t.Reduces x) ([a] ++ p :: rest)
  refine acc_append (P := fun s => ∃ ys, Stack c a s ys ∧ Vanishes (productions rules) ys)
    (fun _ _ => hd.vanishes_of_reduces hc ha) ?_ ⟨[], .bottom, .nil⟩ (hd.acc_singleton hc ha a)
  rintro s s' ⟨ys, hs, hv⟩ hstuck hs'
  obtain ⟨p', below, zs, z, q, hbelow, hz, he', rfl, ⟨hsame, hheads⟩ | hlower⟩ :=
    hd.of_pop hc ha h he hs hv hstuck hs'
  · obtain ⟨rfl, rfl⟩ := List.cons.inj hsame
    exact ihy ⟨z, hz⟩ hheads q he'
  · exact ihn _ (hn ▸ hlower) p' below zs rfl hbelow ⟨z, hz⟩ q he'

/-- Reductions end on every stack, whatever the terminal. -/
theorem Decides.acc_reduces (hd : t.Decides rules terminalCount c) (hc : Canonical rules c)
    (ha : Augmented rules accept start symbolCount terminalCount) {b : StateId}
    {s : List StateId} {xs : List SymbolId} (h : Stack c b s xs) : Acc (t.Reduces x) s := by
  by_cases hx : x = SymbolId.epsilon
  · refine acc_of_not_reduces fun r s' hmove => ?_
    obtain ⟨q, s₀, rule, p, below, q', rfl, hcell, -⟩ := exists_of_move?_reduce hmove
    exact (hd.reduce_iff.1 hcell).2.2 hx
  · exact hd.acc_of_stack hc ha hx h

end Table

/-! ## Reductions of a parser -/

namespace Parser

variable {ε : Type} {t : Table}

/-- A reduction of a parser, the stage behind it first. -/
def Reduces (t : Table) (c' c : Config ε) : Prop := ∃ r, Makes t c (.reduce r) c'

theorem lookahead_eq_of_reduces {c c' : Config ε} (h : Reduces t c' c) :
    c'.lookahead = c.lookahead := by
  obtain ⟨r, h⟩ := h
  cases h
  rfl

theorem acc_of_states {c : Config ε} (h : Acc (t.Reduces c.lookahead.terminal) c.states) :
    Acc (Reduces t) c := by
  generalize hx : c.lookahead.terminal = x at h
  generalize hs : c.states = s at h
  induction h generalizing c with
  | intro s _ ih =>
    subst hx hs
    refine .intro _ fun c' hc' => ih _ ?_ ?_ rfl
    · obtain ⟨r, hmakes⟩ := hc'
      exact ⟨r, hmakes.move?_eq⟩
    · rw [lookahead_eq_of_reduces hc']

/-- Where reductions end, a step shifts, accepts or fails. -/
theorem exists_reaches_of_acc {c : Config ε} (h : Acc (Reduces t) c) :
    ∃ (rs : List RuleId) (c' : Config ε), Reaches t c (rs.map .reduce) c' ∧
      c'.lookahead = c.lookahead ∧
      ((∃ c'', Makes t c' (.shift c.lookahead.terminal) c'') ∨
        (∃ ls node, step t c' = (ls, .accepted node)) ∨ ∃ ls e, step t c' = (ls, .failed e)) := by
  induction h with
  | intro c _ ih =>
    cases hstep : step t c with
    | mk ls outcome =>
    cases outcome with
    | accepted node => exact ⟨[], c, .refl c, rfl, .inr (.inl ⟨ls, node, hstep⟩)⟩
    | failed e => exact ⟨[], c, .refl c, rfl, .inr (.inr ⟨ls, e, hstep⟩)⟩
    | next c' =>
      obtain ⟨m, -, hmakes⟩ := exists_makes_of_step hstep
      cases m with
      | shift x =>
        obtain rfl : x = c.lookahead.terminal := by cases hmakes; rfl
        exact ⟨[], c, .refl c, rfl, .inl ⟨c', hmakes⟩⟩
      | reduce r =>
        have hl := lookahead_eq_of_reduces ⟨r, hmakes⟩
        obtain ⟨rs, c'', hr, hl', hend⟩ := ih c' ⟨r, hmakes⟩
        exact ⟨r :: rs, c'', .head hmakes hr, hl'.trans hl, hl ▸ hend⟩

end Parser

open ShiftReduce.Parser

/-- **No endless reducing**: on an LALR automaton without conflicts, a parser that has come to any
stage reduces finitely often until it shifts its lookahead, accepts or fails, and no reductions go
on for ever. -/
theorem Automaton.exists_reaches_reductions {ε : Type} {config : Config} {registry : Registry}
    {source : String} {a : Automaton} (hmade : registry.Made)
    (h : generate config registry source = .ok a) (hmode : config.mode = .lalr)
    (hconflicts : a.conflicts = []) {tokens : List (Except ε Token)} {c₀ c : Parser.Config ε}
    {ms : List Move} (hinitial : initial a.table tokens = .ok c₀) (hr : Reaches a.table c₀ ms c) :
    (∃ (rs : List RuleId) (c' : Parser.Config ε), Reaches a.table c (rs.map .reduce) c' ∧
      c'.lookahead = c.lookahead ∧
      ((∃ c'', Makes a.table c' (.shift c.lookahead.terminal) c'') ∨
        (∃ ls node, step a.table c' = (ls, .accepted node)) ∨
        ∃ ls e, step a.table c' = (ls, .failed e))) ∧
    ¬ ∃ f : Nat → Parser.Config ε, f 0 = c ∧
      ∀ n, ∃ r, Makes a.table (f n) (.reduce r) (f (n + 1)) := by
  obtain ⟨collection, lookaheads, result, hp⟩ := parts_of_generate h
  obtain ⟨hreserves, accept, ha⟩ := reserves_of_readRules hmade hp.read
  have hc := canonical_of_augmented ha hp.canonical
  have hd := hp.decides hreserves ha hmode hconflicts
  obtain ⟨xs, F, values, he⟩ := (evaluated_initial hinitial).reaches hd.toFollows hc ha hr
  have hacc : Acc (Reduces a.table) c := acc_of_states (hd.acc_reduces hc ha he.stack)
  refine ⟨exists_reaches_of_acc hacc, ?_⟩
  rintro ⟨f, hf, hreduces⟩
  exact (acc_iff_isEmpty_descending_chain.1 hacc).false ⟨f, hf, hreduces⟩

/-- Behind the empty word and a number a parser stops as well. -/
theorem Automaton.exists_reaches_reductions_num : ∃ (a : Automaton) (c₀ c : Parser.Config Unit)
    (ms : List Move), Registry.standard.Made ∧
    generate {} .standard "s = o NUM; o = EPSILON;" = .ok a ∧ a.conflicts = [] ∧
    initial a.table [.ok (.int 1 .start)] = .ok c₀ ∧ Reaches a.table c₀ ms c ∧ ms.length = 2 ∧
    (∃ (rs : List RuleId) (c' : Parser.Config Unit), Reaches a.table c (rs.map .reduce) c' ∧
      c'.lookahead = c.lookahead ∧
      ((∃ c'', Makes a.table c' (.shift c.lookahead.terminal) c'') ∨
        (∃ ls node, step a.table c' = (ls, .accepted node)) ∨
        ∃ ls e, step a.table c' = (ls, .failed e))) ∧
    ¬ ∃ f : Nat → Parser.Config Unit, f 0 = c ∧
      ∀ n, ∃ r, Makes a.table (f n) (.reduce r) (f (n + 1)) := by
  have hok : (generate {} .standard "s = o NUM; o = EPSILON;").toOption.any (fun a =>
      a.conflicts = [] ∧ (initial a.table (ε := Unit) [.ok (.int 1 .start)]).toOption.any (fun c₀ =>
        (step a.table c₀).2.next?.any fun c₁ => (step a.table c₁).2.next?.isSome)) = true := by
    decide +kernel
  obtain ⟨a, ha, hok⟩ := Except.exists_of_any_toOption hok
  obtain ⟨hconflicts, hok⟩ := of_decide_eq_true hok
  obtain ⟨c₀, hinitial, hok⟩ := Except.exists_of_any_toOption hok
  obtain ⟨c₁, hstep₁, hok⟩ := (Option.any_eq_true _ _).1 hok
  obtain ⟨c₂, hstep₂⟩ := Option.isSome_iff_exists.1 hok
  obtain ⟨m₁, -, h₁⟩ := exists_makes_of_step (Prod.ext rfl (Outcome.eq_next_of_next? hstep₁))
  obtain ⟨m₂, -, h₂⟩ := exists_makes_of_step (Prod.ext rfl (Outcome.eq_next_of_next? hstep₂))
  have hr : Reaches a.table c₀ [m₁, m₂] c₂ := .head h₁ (.head h₂ (.refl c₂))
  obtain ⟨hstop, hendless⟩ := exists_reaches_reductions .standard ha rfl hconflicts hinitial hr
  exact ⟨a, c₀, c₂, _, .standard, ha, hconflicts, hinitial, hr, rfl, hstop, hendless⟩

end ShiftReduce
