import ShiftReduce.Proofs.Labelled
import ShiftReduce.Lookahead

/-!
# Proofs/Lookahead — the lookaheads of a rule completed in a state

The LALR(1) lookaheads of a rule in a state are the terminals that follow its left-hand side in the
states from which its walk ends there (`mem_lalr_iff`).  Every completed item has them, and the
check behind their computation never fails (`lalrOf_eq_ok`).
-/

namespace ShiftReduce

open ShiftReduce.Derivation Collection

theorem State.mem_completed {rules : Array Rule} {s : State} {i : Item} :
    i ∈ s.completed rules ↔
      i ∈ s.items ∧ ∃ rule, rules[i.rule]? = some rule ∧ i.dot = rule.rhs.length := by
  rw [State.completed, List.mem_filter, Item.isComplete_iff]

/-- A walk over the rule ends in `q`, and `t` follows its left-hand side where the walk begins. -/
def Collection.EndsBefore (rules : Array Rule) (terminalCount : Nat) (c : Collection) (q : StateId)
    (r : RuleId) (t : SymbolId) : Prop :=
  ∃ p rule, rules[r]? = some rule ∧ c.Holds p ⟨r, 0⟩ ∧ c.Walk p rule.rhs q ∧
    FollowsAt rules terminalCount c p rule.lhs t

namespace Lookaheads

variable {rules : Array Rule} {c : Collection} {accept start base terminalCount : Nat}
  {g : LabelledGrammar}

theorem mem_endingIn {q : StateId} {r : RuleId} {l : LabelledRule} :
    l ∈ endingIn g q r ↔ l ∈ g.rules ∧ l.target = q ∧ l.origin = r := by
  simp [endingIn]

theorem mem_foldl_unionExcept {follow : LabelledRule → SymbolSet} {ls : List LabelledRule}
    {s : SymbolSet} {t excluded : SymbolId} :
    t ∈ ls.foldl (fun s l => s.unionExcept (follow l) excluded) s ↔
      t ∈ s ∨ ∃ l ∈ ls, t ∈ follow l ∧ t ≠ excluded := by
  induction ls generalizing s with
  | nil => simp
  | cons l ls ih =>
    rw [List.foldl_cons, ih, SymbolSet.mem_unionExcept]
    simp [or_assoc]

/-- A rule has lookaheads where it is completed. -/
theorem exists_lalr (hc : Canonical rules c)
    (ha : Augmented rules accept start base terminalCount)
    (hl : LabelledGrammar.Labels rules c accept terminalCount base g.labels g.rules) {q : StateId}
    {r : RuleId} {rule : Rule} (hr : rules[r]? = some rule)
    (h : c.Holds q ⟨r, rule.rhs.length⟩) : ∃ s, lalr g q r = some s := by
  obtain ⟨p, rule', hr', hp, hw⟩ := hc.exists_begin ha h
  obtain rfl := Option.some.inj (hr.symm.trans hr')
  rw [List.take_length] at hw
  obtain ⟨l, hmem, hrule, rfl, rfl⟩ := hl.exists_spellsRule hp hr
  have hl : l ∈ endingIn g q l.origin :=
    mem_endingIn.2 ⟨hmem, (hc.walk_unique hw hrule.rhs.walk).symm, rfl⟩
  unfold lalr
  cases he : endingIn g q l.origin with
  | nil => rw [he] at hl; exact nomatch hl
  | cons l ls => exact ⟨_, rfl⟩

/-- **The LALR(1) lookaheads are the terminals that follow the left-hand side where the rule
begins.** -/
theorem mem_lalr_iff (hc : Canonical rules c)
    (ha : Augmented rules accept start base terminalCount)
    (hl : LabelledGrammar.Labels rules c accept terminalCount base g.labels g.rules)
    (hg : g.analysis = .compute (g.rules.map LabelledRule.toProduction) (base + g.labels.size)
      terminalCount) {q : StateId} {r : RuleId} {t : SymbolId} :
    (∃ s, lalr g q r = some s ∧ t ∈ s) ↔
      EndsBefore rules terminalCount c q r t ∧ t ≠ SymbolId.epsilon := by
  have hle : terminalCount ≤ base + g.labels.size :=
    Nat.le_trans ha.le_symbolCount (Nat.le_add_right base _)
  have hfollow {l : LabelledRule} {rule : Rule}
      (hrule : LabelledGrammar.SpellsRule rules c accept terminalCount base g.labels l rule) :
      t ∈ g.analysis.followSet l.lhs ↔
        FollowsAt rules terminalCount c l.source rule.lhs t ∧ t ≠ SymbolId.epsilon := by
    rw [hg, Analysis.mem_followSet_iff (hl.within ha) hle,
      hl.follows_iff_followsAt hc ha hrule.lhs (ha.le_lhs hrule.origin)]
  have hunion : (∃ s, lalr g q r = some s ∧ t ∈ s) ↔
      ∃ l ∈ endingIn g q r, t ∈ g.analysis.followSet l.lhs ∧ t ≠ SymbolId.epsilon := by
    unfold lalr
    cases endingIn g q r with
    | nil => simp
    | cons l ls =>
      simp only [Option.some.injEq, exists_eq_left', mem_foldl_unionExcept,
        SymbolSet.not_mem_empty, false_or]
  rw [hunion]
  constructor
  · rintro ⟨l, hmem, ht, hne⟩
    obtain ⟨hrules, rfl, rfl⟩ := mem_endingIn.1 hmem
    obtain ⟨rule, hrule⟩ := hl.sound hrules
    exact ⟨⟨l.source, rule, hrule.origin, hrule.holds, hrule.rhs.walk, ((hfollow hrule).1 ht).1⟩,
      hne⟩
  · rintro ⟨⟨p, rule, hr, hp, hw, ht⟩, hne⟩
    obtain ⟨l, hmem, hrule, rfl, rfl⟩ := hl.exists_spellsRule hp hr
    have htarget := (hc.walk_unique hw hrule.rhs.walk).symm
    exact ⟨l, mem_endingIn.2 ⟨hmem, htarget, rfl⟩, (hfollow hrule).2 ⟨ht, hne⟩, hne⟩

/-- **Every labelled rule ends in a state that holds it completed.** -/
theorem lalrOf_eq_ok (hc : Canonical rules c)
    (hl : LabelledGrammar.Labels rules c accept terminalCount base g.labels g.rules) :
    lalrOf rules c g = .ok (lalr g) := by
  have hnone : g.rules.find? (fun l => !endsComplete rules c l) = none := by
    rw [List.find?_eq_none]
    intro l hmem
    obtain ⟨rule, hrule⟩ := hl.sound hmem
    obtain ⟨s, hs, hi⟩ := hc.holds_completed hrule.origin hrule.holds hrule.rhs.walk
    have hcompleted := State.mem_completed.2 ⟨hi, rule, hrule.origin, rfl⟩
    have hends : endsComplete rules c l = true := by
      unfold endsComplete
      rw [hs]
      exact List.any_eq_true.2 ⟨_, hcompleted, by simp⟩
    simp [hends]
  unfold lalrOf
  rw [hnone]

end Lookaheads
end ShiftReduce
