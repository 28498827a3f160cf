import ShiftReduce.Proofs.Automaton

/-!
# Proofs/Validity — LALR(1) lookaheads and valid LR(1) items

`Item.Valid` is the textbook notion: an item is valid for a form with each terminal that can come
next once its rule is done.  A nonterminal that derives neither the empty form nor one that begins
with a terminal leaves nothing that could come next, and then no item behind it is valid, although
the collection holds it.  `Item.Open` keeps such items, with nothing known of what comes next.

The LALR(1) lookaheads are exact for the open items of every grammar
(`endsBefore_iff_exists_open`).  They have those of every valid item, and nothing else as long as no
such nonterminal occurs (`Open.valid`).
-/

namespace ShiftReduce

open ShiftReduce.Derivation Collection

/-! ## Valid items -/

namespace Item

/-- The item is valid for the form, with the terminal as what comes next. -/
inductive Valid (rules : Array Rule) (terminalCount : Nat) :
    List SymbolId → Item → SymbolId → Prop
  | start : Valid rules terminalCount [] ⟨RuleId.start, 0⟩ SymbolId.endOfInput
  | predict {form : List SymbolId} {i : Item} {u t : SymbolId} {r : RuleId} {rule rule' : Rule}
    {behind ys : List SymbolId} (h : Valid rules terminalCount form i u)
    (hi : rules[i.rule]? = some rule) (hr : rules[r]? = some rule')
    (hdot : rule.rhs.drop i.dot = rule'.lhs :: behind) (ht : t < terminalCount)
    (hd : Derives (productions rules) (behind ++ [u]) (t :: ys)) :
    Valid rules terminalCount form ⟨r, 0⟩ t
  | advance {form : List SymbolId} {i : Item} {u x : SymbolId}
    (h : Valid rules terminalCount form i u) (hx : i.next? rules = some x) :
    Valid rules terminalCount (form ++ [x]) i.advance u

/-- The item is valid for the form, with the terminal as what comes next, or with nothing known of
it. -/
inductive Open (rules : Array Rule) (terminalCount : Nat) :
    List SymbolId → Item → Option SymbolId → Prop
  | start : Open rules terminalCount [] ⟨RuleId.start, 0⟩ (some SymbolId.endOfInput)
  | unknown {form : List SymbolId} {i : Item} {u : Option SymbolId} {r : RuleId} {rule : Rule}
    (h : Open rules terminalCount form i u) (hr : rules[r]? = some rule)
    (hx : i.next? rules = some rule.lhs) : Open rules terminalCount form ⟨r, 0⟩ none
  | predict {form : List SymbolId} {i : Item} {u : Option SymbolId} {t : SymbolId} {r : RuleId}
    {rule rule' : Rule} {behind ys : List SymbolId} (h : Open rules terminalCount form i u)
    (hi : rules[i.rule]? = some rule) (hr : rules[r]? = some rule')
    (hdot : rule.rhs.drop i.dot = rule'.lhs :: behind) (ht : t < terminalCount)
    (hd : Derives (productions rules) (behind ++ u.toList) (t :: ys)) :
    Open rules terminalCount form ⟨r, 0⟩ (some t)
  | advance {form : List SymbolId} {i : Item} {u : Option SymbolId} {x : SymbolId}
    (h : Open rules terminalCount form i u) (hx : i.next? rules = some x) :
    Open rules terminalCount (form ++ [x]) i.advance u

variable {rules : Array Rule} {terminalCount : Nat}

/-- Valid items are open. -/
theorem Valid.open {form : List SymbolId} {i : Item} {u : SymbolId}
    (h : Valid rules terminalCount form i u) : Open rules terminalCount form i (some u) := by
  induction h with
  | start => exact .start
  | predict _ hi hr hdot ht hd ih => exact .predict ih hi hr hdot ht hd
  | advance _ hx ih => exact .advance ih hx

theorem next?_of_drop {i : Item} {rule : Rule} {x : SymbolId} {behind : List SymbolId}
    (hi : rules[i.rule]? = some rule) (hdot : rule.rhs.drop i.dot = x :: behind) :
    i.next? rules = some x := by
  refine next?_eq_some_iff.2 ⟨rule, hi, ?_⟩
  rw [← List.head?_drop, hdot]
  rfl

theorem exists_drop_of_next? {i : Item} {x : SymbolId} (h : i.next? rules = some x) :
    ∃ rule behind, rules[i.rule]? = some rule ∧ rule.rhs.drop i.dot = x :: behind := by
  obtain ⟨rule, hi, hx⟩ := next?_eq_some_iff.1 h
  obtain ⟨hlt, rfl⟩ := List.getElem?_eq_some_iff.1 hx
  exact ⟨rule, _, hi, List.drop_eq_getElem_cons hlt⟩

/-- Open items advance over any part of what stands behind their dots. -/
theorem Open.advance_append {form : List SymbolId} {r : RuleId} {rule : Rule} {u : Option SymbolId}
    (hr : rules[r]? = some rule) (before : List SymbolId) {xs behind : List SymbolId}
    (hrhs : rule.rhs = before ++ (xs ++ behind))
    (h : Open rules terminalCount form ⟨r, before.length⟩ u) :
    Open rules terminalCount (form ++ xs) ⟨r, (before ++ xs).length⟩ u := by
  induction xs generalizing form before with
  | nil => simpa using h
  | cons x xs ih =>
    have hx : next? rules ⟨r, before.length⟩ = some x :=
      next?_eq_some_iff.2 ⟨rule, hr, by simp [hrhs]⟩
    have h' : Open rules terminalCount (form ++ [x]) ⟨r, (before ++ [x]).length⟩ u := by
      simpa [Item.advance] using h.advance hx
    simpa using ih (before ++ [x]) (by simp [hrhs]) h'

end Item

/-! ## Forms that tell what comes next -/

/-- Every symbol of a right-hand side derives the empty form or one that begins with a terminal. -/
def Derivation.Telling (P : List Production) (terminalCount : Nat) : Prop :=
  ∀ p ∈ P, ∀ x ∈ p.rhs, Derives P [x] [] ∨ ∃ t ys, t < terminalCount ∧ Derives P [x] (t :: ys)

/-- A terminal behind telling symbols lets some terminal begin the form. -/
theorem Derivation.exists_begins {P : List Production} {terminalCount : Nat} {u : SymbolId}
    (hu : u < terminalCount) {xs : List SymbolId}
    (h : ∀ x ∈ xs, Derives P [x] [] ∨ ∃ t ys, t < terminalCount ∧ Derives P [x] (t :: ys)) :
    ∃ t, Begins P terminalCount t (xs ++ [u]) := by
  induction xs with
  | nil => exact ⟨u, .terminal hu []⟩
  | cons x xs ih =>
    rcases h x List.mem_cons_self with hv | ⟨t, ys, ht, hd⟩
    · obtain ⟨t, ht⟩ := ih fun y hy => h y (List.mem_cons_of_mem x hy)
      exact ⟨t, .behind (vanishes_iff_derives.2 hv) ht⟩
    · exact ⟨t, begins_cons.2 (.inl ((begins_iff_derives ht).2 ⟨ys, hd⟩))⟩

/-- What begins a form with a terminal behind it begins the form, or is the terminal. -/
theorem Derivation.begins_or_eq {P : List Production} {terminalCount : Nat} {t : SymbolId}
    (hP : ∀ p ∈ P, terminalCount ≤ p.lhs) {xs : List SymbolId} {u : Option SymbolId}
    (hu : ∀ u', u = some u' → u' < terminalCount) (h : Begins P terminalCount t (xs ++ u.toList)) :
    Begins P terminalCount t xs ∨ Vanishes P xs ∧ u = some t := by
  rcases begins_append.1 h with h | ⟨hv, h⟩
  · exact .inl h
  · cases u with
    | none => exact absurd h not_begins_nil
    | some u =>
      obtain rfl := (begins_singleton_of_lt hP (hu u rfl)).1 h
      exact .inr ⟨hv, rfl⟩

/-! ## Open items and the collection -/

namespace Item

variable {rules : Array Rule} {c : Collection} {accept start symbolCount terminalCount : Nat}

theorem Open.lt (hend : SymbolId.endOfInput < terminalCount) {form : List SymbolId} {i : Item}
    {u : Option SymbolId} (h : Open rules terminalCount form i u) :
    ∀ t, u = some t → t < terminalCount := by
  induction h with
  | start => rintro t ⟨⟩; exact hend
  | unknown => exact nofun
  | predict _ _ _ _ ht => rintro t ⟨⟩; exact ht
  | advance _ _ ih => exact ih

/-- An open item lies on the walk over its form, and what comes next follows its left-hand side
where its rule begins. -/
theorem Open.exists_begin (hc : Canonical rules c)
    (ha : Augmented rules accept start symbolCount terminalCount)
    (hend : SymbolId.endOfInput < terminalCount) {form : List SymbolId} {i : Item}
    {u : Option SymbolId} (h : Open rules terminalCount form i u) :
    ∃ p form' rule, rules[i.rule]? = some rule ∧ i.dot ≤ rule.rhs.length ∧
      c.Walk StateId.initial form' p ∧ c.Holds p ⟨i.rule, 0⟩ ∧
      form = form' ++ rule.rhs.take i.dot ∧
      ∀ t, u = some t → FollowsAt rules terminalCount c p rule.lhs t := by
  have hP : ∀ p ∈ productions rules, terminalCount ≤ p.lhs := (within_of_augmented ha).le_lhs
  -- the state of the item itself
  have holds {p : StateId} {form' : List SymbolId} {i : Item} {rule : Rule}
      (hi : rules[i.rule]? = some rule) (hle : i.dot ≤ rule.rhs.length)
      (hw : c.Walk StateId.initial form' p) (hp : c.Holds p ⟨i.rule, 0⟩) :
      ∃ q, c.Walk p (rule.rhs.take i.dot) q ∧
        c.Walk StateId.initial (form' ++ rule.rhs.take i.dot) q ∧ c.Holds q i := by
    obtain ⟨q, hq, hholds⟩ := hc.exists_walk hi [] (List.take_append_drop i.dot _).symm hp
    rw [List.nil_append, List.length_take, Nat.min_eq_left hle] at hholds
    exact ⟨q, hq, hw.append hq, hholds⟩
  induction h with
  | start =>
    refine ⟨StateId.initial, [], _, ha.start_rule, Nat.zero_le _, .nil _, hc.holds_initial, rfl, ?_⟩
    rintro t ⟨⟩
    exact .start ha.start_rule
  | unknown _ hr hx ih =>
    obtain ⟨p, form', rule, hi, hle, hw, hp, rfl, -⟩ := ih
    obtain ⟨q, -, hw', hq⟩ := holds hi hle hw hp
    exact ⟨q, _, _, hr, Nat.zero_le _, hw', hc.holds_predicted hq hr hx, by simp, nofun⟩
  | @predict _ i u t r _ _ behind ys h hi hr hdot ht hd ih =>
    obtain ⟨p, form', rule, hi', hle, hw, hp, rfl, hf⟩ := ih
    obtain rfl := Option.some.inj (hi.symm.trans hi')
    obtain ⟨q, hpq, hw', hq⟩ := holds hi hle hw hp
    refine ⟨q, _, _, hr, Nat.zero_le _, hw', hc.holds_predicted hq hr (next?_of_drop hi hdot),
      by simp, ?_⟩
    rintro t ⟨⟩
    have hrhs := (List.take_append_drop _ _).symm.trans (congrArg _ hdot)
    rcases begins_or_eq hP (h.lt hend) ((begins_iff_derives ht).2 ⟨_, hd⟩) with hb | ⟨hv, rfl⟩
    · exact .next hi hp hrhs hpq (ha.le_lhs hr) hb
    · exact .last hi hp hrhs hpq (ha.le_lhs hr) hv (hf t rfl)
  | advance _ hx ih =>
    obtain ⟨p, form', rule, hi, hle, hw, hp, rfl, hf⟩ := ih
    obtain ⟨rule', hi', hx⟩ := next?_eq_some_iff.1 hx
    obtain rfl := Option.some.inj (hi.symm.trans hi')
    refine ⟨p, form', rule, hi, (List.getElem?_eq_some_iff.1 hx).1, hw, hp, ?_, hf⟩
    rw [Item.advance, List.take_add_one, hx, List.append_assoc]
    rfl

/-- Every item on a walk is open for its form. -/
theorem exists_open (hc : Canonical rules c) {q : StateId} {form : List SymbolId} {i : Item}
    (hw : c.Walk StateId.initial form q) (h : c.Holds q i) :
    ∃ u, Open rules terminalCount form i u := by
  -- the kernel is advanced from the state before; the rest is called for by the kernel
  induction form using List.reverseRecOn generalizing q i with
  | nil =>
    obtain rfl := walk_nil_iff.1 hw
    induction hc.holds_iff.1 h with
    | kernel hk =>
      rw [hc.kernel_initial.1 hk]
      exact ⟨_, .start⟩
    | predicted hi hr hx ih =>
      obtain ⟨u, hu⟩ := ih (hc.holds_iff.2 hi)
      exact ⟨none, .unknown hu hr hx⟩
  | append_singleton form x ihform =>
    obtain ⟨p, hp, hx⟩ := walk_append_iff.1 hw
    obtain ⟨q', he, hq⟩ := walk_cons_iff.1 hx
    obtain rfl := walk_nil_iff.1 hq
    induction hc.holds_iff.1 h with
    | kernel hk =>
      obtain ⟨j, hj, hx, rfl⟩ := (hc.kernel_of_edge he).1 hk
      obtain ⟨u, hu⟩ := ihform hp hj
      exact ⟨u, hu.advance hx⟩
    | predicted hi hr hx ih =>
      obtain ⟨u, hu⟩ := ih (hc.holds_iff.2 hi)
      exact ⟨none, .unknown hu hr hx⟩

/-- The form of an open item ends in what stands before its dot, and the start symbol derives a form
with the whole of the rule at that place. -/
theorem Open.exists_derives (ha : Augmented rules accept start symbolCount terminalCount)
    {form : List SymbolId} {i : Item} {u : Option SymbolId}
    (h : Open rules terminalCount form i u) :
    ∃ rule before behind, rules[i.rule]? = some rule ∧ form = before ++ rule.rhs.take i.dot ∧
      Derives (productions rules) [start] (before ++ (rule.rhs ++ behind)) := by
  -- a rule that an item calls for replaces what stands behind the dot of the item
  have called {form : List SymbolId} {i : Item} {r : RuleId} {rule rule' : Rule}
      {before behind behind' : List SymbolId} (hr : rules[r]? = some rule')
      (hform : form = before ++ rule.rhs.take i.dot)
      (hd : Derives (productions rules) [start] (before ++ (rule.rhs ++ behind)))
      (hdot : rule.rhs.drop i.dot = rule'.lhs :: behind') :
      Derives (productions rules) [start] (form ++ (rule'.rhs ++ (behind' ++ behind))) := by
    refine hd.trans ?_
    rw [← List.take_append_drop i.dot rule.rhs, hdot, hform]
    simpa using ((Derives.of_mem (mem_productions_of_getElem? hr)).append_right
      (behind' ++ behind)).append_left (before ++ rule.rhs.take i.dot)
  induction h with
  | start => exact ⟨_, [], [], ha.start_rule, rfl, .refl _⟩
  | unknown _ hr hx ih =>
    obtain ⟨rule, before, behind, hi, hform, hd⟩ := ih
    obtain ⟨rule', behind', hi', hdot⟩ := exists_drop_of_next? hx
    obtain rfl := Option.some.inj (hi.symm.trans hi')
    exact ⟨_, _, _, hr, by simp, called hr hform hd hdot⟩
  | predict _ hi hr hdot _ _ ih =>
    obtain ⟨rule, before, behind, hi', hform, hd⟩ := ih
    obtain rfl := Option.some.inj (hi.symm.trans hi')
    exact ⟨_, _, _, hr, by simp, called hr hform hd hdot⟩
  | advance _ hx ih =>
    obtain ⟨rule, before, behind, hi, rfl, hd⟩ := ih
    obtain ⟨rule', hi', hx⟩ := next?_eq_some_iff.1 hx
    obtain rfl := Option.some.inj (hi.symm.trans hi')
    refine ⟨rule, before, behind, hi, ?_, hd⟩
    rw [Item.advance, List.take_add_one, hx, List.append_assoc]
    rfl

/-- **Walks are viable**: the start symbol derives a form that begins with what is walked. -/
theorem exists_derives_of_walk (hc : Canonical rules c)
    (ha : Augmented rules accept start symbolCount terminalCount) {q : StateId}
    {form : List SymbolId} (hw : c.Walk StateId.initial form q) :
    ∃ behind, Derives (productions rules) [start] (form ++ behind) := by
  obtain ⟨i, hi⟩ : ∃ i, c.Holds q i := by
    rcases List.eq_nil_or_concat' form with rfl | ⟨form, x, rfl⟩
    · exact ⟨_, walk_nil_iff.1 hw ▸ hc.holds_initial⟩
    · obtain ⟨p, -, hx⟩ := walk_append_iff.1 hw
      obtain ⟨q', he, hq⟩ := walk_cons_iff.1 hx
      obtain rfl := walk_nil_iff.1 hq
      obtain ⟨i, hi, hx⟩ := hc.exists_edge_iff.1 ⟨q', he⟩
      exact ⟨_, hc.holds_advance hi hx he⟩
  obtain ⟨u, hu⟩ : ∃ u, Open rules terminalCount form i u := exists_open hc hw hi
  obtain ⟨rule, before, behind, -, rfl, hd⟩ := hu.exists_derives ha
  refine ⟨rule.rhs.drop i.dot ++ behind, ?_⟩
  rwa [List.append_assoc, ← List.append_assoc (rule.rhs.take i.dot), List.take_append_drop]

/-- What follows a nonterminal in a state comes next behind its rules, for some form that leads
there. -/
theorem exists_open_of_followsAt (hc : Canonical rules c)
    (ha : Augmented rules accept start symbolCount terminalCount)
    (hend : SymbolId.endOfInput < terminalCount) {q : StateId} {x t : SymbolId}
    (h : FollowsAt rules terminalCount c q x t) {r : RuleId} {rule : Rule}
    (hr : rules[r]? = some rule) (hx : rule.lhs = x) :
    ∃ form, c.Walk StateId.initial form q ∧ Open rules terminalCount form ⟨r, 0⟩ (some t) := by
  induction h generalizing r rule with
  | @start rule' hr' =>
    obtain rfl := Option.some.inj (ha.start_rule.symm.trans hr')
    obtain rfl := ha.eq_start hr hx
    exact ⟨[], .nil _, .start⟩
  | @next p q r' rule' hr' hp before behind x t hrhs hw hle hb =>
    obtain ⟨form, hform⟩ := hc.exists_walk_initial (Canonical.lt_of_holds hp)
    obtain ⟨u, hu⟩ : ∃ u, Open rules terminalCount form ⟨r', 0⟩ u := exists_open hc hform hp
    have hu := hu.advance_append hr' [] hrhs
    obtain ⟨ys, hd⟩ := (begins_iff_derives hb.lt).1 hb
    refine ⟨form ++ before, hform.append hw, .predict hu hr' hr ?_ hb.lt (hd.append_right _)⟩
    simp [hrhs, hx]
  | @last p q r' rule' hr' hp before behind x t hrhs hw hle hv hf ih =>
    obtain ⟨form, hform, hu⟩ := ih hr' rfl
    have hu := hu.advance_append hr' [] hrhs
    have hd : Derives (productions rules) (behind ++ (some t).toList) [t] :=
      hv.derives.append_right [t]
    refine ⟨form ++ before, hform.append hw, .predict hu hr' hr ?_ (hf.lt hend) hd⟩
    simp [hrhs, hx]

/-- **A completed rule ends before exactly the terminals that come next behind it.** -/
theorem endsBefore_iff_exists_open (hc : Canonical rules c)
    (ha : Augmented rules accept start symbolCount terminalCount)
    (hend : SymbolId.endOfInput < terminalCount) {q : StateId} {r : RuleId} {rule : Rule}
    (hr : rules[r]? = some rule) {t : SymbolId} :
    EndsBefore rules terminalCount c q r t ↔ ∃ form, c.Walk StateId.initial form q ∧
      Open rules terminalCount form ⟨r, rule.rhs.length⟩ (some t) := by
  constructor
  · rintro ⟨p, rule', hr', hp, hw, hf⟩
    obtain rfl := Option.some.inj (hr.symm.trans hr')
    obtain ⟨form, hform, hu⟩ := exists_open_of_followsAt hc ha hend hf hr rfl
    have hu := hu.advance_append hr [] (List.append_nil _).symm
    exact ⟨form ++ rule.rhs, hform.append hw, hu⟩
  · rintro ⟨form, hform, hu⟩
    obtain ⟨p, form', rule', hr', -, hw, hp, rfl, hf⟩ := hu.exists_begin hc ha hend
    obtain rfl := Option.some.inj (hr.symm.trans hr')
    rw [List.take_length] at hform
    obtain ⟨p', hw', hpq⟩ := walk_append_iff.1 hform
    obtain rfl := hc.walk_unique hw hw'
    exact ⟨p, rule, hr, hp, hpq, hf t rfl⟩

/-! ## Valid items -/

/-- Where every symbol tells what comes next, open items are valid. -/
theorem Open.valid (hP : ∀ p ∈ productions rules, terminalCount ≤ p.lhs)
    (hend : SymbolId.endOfInput < terminalCount)
    (htell : Telling (productions rules) terminalCount) {form : List SymbolId} {i : Item}
    {u : Option SymbolId} (h : Open rules terminalCount form i u) :
    (∀ t, u = some t → Valid rules terminalCount form i t) ∧
      ∃ t, t < terminalCount ∧ Valid rules terminalCount form i t := by
  induction h with
  | start => exact ⟨by rintro t ⟨⟩; exact .start, _, hend, .start⟩
  | @unknown form i u r rule _ hr hx ih =>
    obtain ⟨-, t, ht, hv⟩ := ih
    obtain ⟨rule', behind, hi, hdot⟩ := exists_drop_of_next? hx
    have hmem : ∀ x ∈ behind, x ∈ rule'.rhs := fun x hx =>
      List.mem_of_mem_drop (hdot ▸ List.mem_cons_of_mem _ hx)
    obtain ⟨t', hb⟩ := exists_begins ht fun x hx =>
      htell _ (mem_productions_of_getElem? hi) x (hmem x hx)
    obtain ⟨ys, hd⟩ := (begins_iff_derives hb.lt).1 hb
    exact ⟨nofun, t', hb.lt, hv.predict hi hr hdot hb.lt hd⟩
  | @predict form i u t r rule rule' behind ys h hi hr hdot ht hd ih =>
    obtain ⟨hsome, t', -, hv⟩ := ih
    have hvalid : Valid rules terminalCount form ⟨r, 0⟩ t := by
      rcases begins_or_eq hP (h.lt hend) ((begins_iff_derives ht).2 ⟨_, hd⟩) with hb | ⟨hv', rfl⟩
      · obtain ⟨ys, hd⟩ := (begins_iff_derives ht).1 hb
        exact hv.predict hi hr hdot ht (hd.append_right [t'])
      · exact (hsome t rfl).predict hi hr hdot ht (hv'.derives.append_right [t])
    exact ⟨by rintro t ⟨⟩; exact hvalid, t, ht, hvalid⟩
  | advance _ hx ih =>
    obtain ⟨hsome, t, ht, hv⟩ := ih
    exact ⟨fun t h => (hsome t h).advance hx, t, ht, hv.advance hx⟩

end Item

/-! ## The lookaheads of a grammar text -/

/-- The state to which a form leads in a table. -/
def CellTable.leads (t : CellTable) : StateId → List SymbolId → Option StateId
  | q, [] => some q
  | q, x :: xs => (t.cell q x).target?.bind fun q' => t.leads q' xs

namespace Automaton

variable {registry symbols : Registry} {limits : Limits} {source : String} {grammar : Grammar}
  {rules : Array Rule} {c : Collection}

/-- A form leads through the table of a collection where it can be walked. -/
theorem leads_iff_walk {accept start : SymbolId}
    (ha : Augmented rules accept start symbols.size symbols.terminalCount) (hc : Canonical rules c)
    {q q' : StateId} {xs : List SymbolId} :
    (c.table (analyze symbols rules)).leads q xs = some q' ↔ c.Walk q xs q' := by
  have hcell {q q' : StateId} {x : SymbolId} :
      ((c.table (analyze symbols rules)).cell q x).target? = some q' ↔ c.Edge q x q' := by
    by_cases hne : (c.table (analyze symbols rules)).cell q x = .error
    · have he : ∀ q', ¬ c.Edge q x q' := fun q' he => by
        have h := (cell_table_iff ha hc (by split <;> exact Cell.noConfusion)).2 ⟨q', he, rfl⟩
        rw [hne] at h
        split at h <;> exact nomatch h
      rw [hne]
      exact iff_of_false nofun (he q')
    · obtain ⟨q'', he, h⟩ := (cell_table_iff ha hc hne).1 rfl
      have ht : ((c.table (analyze symbols rules)).cell q x).target? = some q'' := by
        rw [h]
        split <;> rfl
      rw [ht, Option.some.injEq]
      exact ⟨fun h => h ▸ he, fun he' => hc.edge_unique he he'⟩
  induction xs generalizing q with
  | nil => rw [walk_nil_iff, CellTable.leads, Option.some.injEq]
  | cons x xs ih =>
    rw [CellTable.leads, Option.bind_eq_some_iff, walk_cons_iff]
    exact exists_congr fun q₁ => and_congr hcell ih

/-- **LALR(1) lookaheads are exact.**  Whatever the grammar, the lookaheads of a completed item are
the terminals that come next behind it as an open item, for some form that leads to its state, and
those of the valid items are among them.  They are no others if every symbol tells what comes
next. -/
theorem lookaheads_exact (hmade : registry.Made)
    (hread : (readRules limits source).runOn registry = (.ok (grammar, rules), symbols))
    (hcanonical : Collection.canonical rules (analyze symbols rules) limits = .ok c)
    {g : LabelledGrammar}
    (hbuild : LabelledGrammar.build rules c (analyze symbols rules) symbols limits = .ok g) :
    ∃ lookaheads, Lookaheads.lalrOf rules c g = .ok lookaheads ∧
      ∀ q s, c.states[q]? = some s → ∀ i ∈ s.completed rules,
        ∃ set, lookaheads q i.rule = some set ∧ SymbolId.epsilon ∉ set ∧
          ∀ t, t ≠ SymbolId.epsilon →
            (t ∈ set ↔ ∃ form,
              (c.table (analyze symbols rules)).leads StateId.initial form = some q ∧
              i.Open rules symbols.terminalCount form (some t)) ∧
            ((∃ form, (c.table (analyze symbols rules)).leads StateId.initial form = some q ∧
              i.Valid rules symbols.terminalCount form t) → t ∈ set) ∧
            (Telling (productions rules) symbols.terminalCount → t ∈ set →
              ∃ form, (c.table (analyze symbols rules)).leads StateId.initial form = some q ∧
                i.Valid rules symbols.terminalCount form t) := by
  obtain ⟨hreserves, accept, ha⟩ := reserves_of_readRules hmade hread
  have hc := canonical_of_augmented ha hcanonical
  have hend : SymbolId.endOfInput < symbols.terminalCount :=
    Nat.lt_of_lt_of_le (by decide) hreserves.two_le
  obtain ⟨hlabels, hanalysis⟩ := LabelledGrammar.labels_of_build hc ha
    (fun he => symbolCount_analyze ▸ hc.lt_symbolCount_of_edge ha he) rfl hbuild
  refine ⟨_, Lookaheads.lalrOf_eq_ok hc hlabels, fun q s hs i hi => ?_⟩
  obtain ⟨hi, rule, hr, hdot⟩ := State.mem_completed.1 hi
  obtain ⟨r, dot⟩ := i
  obtain rfl : dot = rule.rhs.length := hdot
  obtain ⟨set, hset⟩ := Lookaheads.exists_lalr hc ha hlabels hr ⟨s, hs, hi⟩
  have hmem {t : SymbolId} : t ∈ set ↔
      EndsBefore rules symbols.terminalCount c q r t ∧ t ≠ SymbolId.epsilon := by
    rw [← Lookaheads.mem_lalr_iff hc ha hlabels hanalysis]
    exact ⟨fun h => ⟨set, hset, h⟩, fun ⟨_, h, ht⟩ => Option.some.inj (hset.symm.trans h) ▸ ht⟩
  have hopen {t : SymbolId} (hne : t ≠ SymbolId.epsilon) : t ∈ set ↔ ∃ form,
      (c.table (analyze symbols rules)).leads StateId.initial form = some q ∧
      Item.Open rules symbols.terminalCount form ⟨r, rule.rhs.length⟩ (some t) := by
    rw [hmem, Item.endsBefore_iff_exists_open hc ha hend hr, and_iff_left hne]
    exact exists_congr fun form => and_congr_left' (leads_iff_walk ha hc).symm
  refine ⟨set, hset, fun h => (hmem.1 h).2 rfl, fun t hne => ⟨hopen hne, ?_, fun htell ht => ?_⟩⟩
  · rintro ⟨form, hform, hv⟩
    exact (hopen hne).2 ⟨form, hform, hv.open⟩
  · obtain ⟨form, hform, ho⟩ := (hopen hne).1 ht
    exact ⟨form, hform, (ho.valid (within_of_augmented ha).le_lhs hend htell).1 t rfl⟩

/-- In the grammar of one number, the end of the input comes next behind the number. -/
theorem lookaheads_exact_num : ∃ (grammar : Grammar) (rules : Array Rule) (symbols : Registry)
    (c : Collection) (g : LabelledGrammar) (lookaheads : Lookaheads) (set : SymbolSet)
    (form : List SymbolId), Registry.standard.Made ∧
    (readRules {} "s = NUM;").runOn .standard = (.ok (grammar, rules), symbols) ∧
    Collection.canonical rules (analyze symbols rules) {} = .ok c ∧
    LabelledGrammar.build rules c (analyze symbols rules) symbols {} = .ok g ∧
    Lookaheads.lalrOf rules c g = .ok lookaheads ∧
    lookaheads 2 1 = some set ∧ SymbolId.endOfInput ∈ set ∧
    (c.table (analyze symbols rules)).leads StateId.initial form = some 2 ∧
    Item.Open rules symbols.terminalCount form ⟨1, 1⟩ (some SymbolId.endOfInput) := by
  have hok : (generate {} .standard "s = NUM;").toOption.any (fun a =>
      (a.states[2]?.any fun s => (s.completed a.rules).contains ⟨1, 1⟩) &&
        (a.lookaheads 2 1).any (·.contains SymbolId.endOfInput)) = true := by decide +kernel
  obtain ⟨a, ha, hok⟩ := Except.exists_of_any_toOption hok
  obtain ⟨hs, hset⟩ := Bool.and_eq_true_iff.1 hok
  obtain ⟨c, lookaheads, result, hp⟩ := parts_of_generate ha
  obtain ⟨g, hg, hl⟩ := Except.bind_eq_ok hp.found
  rw [hp.states] at hs
  rw [hp.lookaheads_eq] at hset
  obtain ⟨s, hs, hi⟩ := (Option.any_eq_true _ _).1 hs
  obtain ⟨set, hset, ht⟩ := (Option.any_eq_true _ _).1 hset
  have hi : (⟨1, 1⟩ : Item) ∈ s.completed a.rules := by simpa using hi
  obtain ⟨lookaheads', hl', h⟩ := lookaheads_exact .standard hp.read hp.canonical hg
  obtain rfl := Except.ok.inj (hl.symm.trans hl')
  obtain ⟨set', hset', -, h⟩ := h 2 s hs ⟨1, 1⟩ hi
  obtain rfl := Option.some.inj (hset.symm.trans hset')
  obtain ⟨form, hform, ho⟩ := (h SymbolId.endOfInput (by decide)).1.1 ht
  exact ⟨_, _, _, c, g, lookaheads, set, form, .standard, hp.read, hp.canonical, hg, hl, hset, ht,
    hform, ho⟩

/-! ## A lookahead that is not valid -/

/-- The rules of a grammar in which nothing tells what comes next behind `c`. -/
def untellingRules : Array Rule :=
  #[⟨⟨44, [40]⟩, .forward⟩, ⟨⟨40, [41, 43]⟩, .forward⟩, ⟨⟨41, [42, 19]⟩, .forward⟩,
    ⟨⟨42, [3]⟩, .forward⟩, ⟨⟨43, [43]⟩, .forward⟩]

/-- In that grammar neither `c` nor `a` has a valid item. -/
theorem rule_of_valid_untelling {form : List SymbolId} {i : Item} {u : SymbolId}
    (h : i.Valid untellingRules 40 form u) : i.rule = 0 ∨ i.rule = 1 ∨ i.rule = 4 := by
  induction h with
  | start => exact .inl rfl
  | advance _ _ ih => exact ih
  | @predict form i u t r rule rule' behind ys _ hi hr hdot ht hd ih =>
    obtain ⟨r', dot⟩ := i
    have hlt : r < 5 := (Array.getElem?_eq_some_iff.1 hr).1
    have hmem : rule'.lhs ∈ rule.rhs := List.mem_of_mem_drop (hdot ▸ List.mem_cons_self)
    -- only `c` stands behind a dot that matters, with `x` behind it
    have hc : r ≠ 2 := by
      rintro rfl
      obtain rfl := Option.some.inj hr
      rcases ih with rfl | rfl | rfl <;> obtain rfl := Option.some.inj hi
      · simp [untellingRules] at hmem
      · have hbehind : behind = [43] := by
          rcases dot with _ | _ | dot
          · exact (List.cons.inj hdot).2.symm
          · exact absurd (List.cons.inj hdot).1 (by decide)
          · simp [untellingRules] at hdot
        have hb := (begins_iff_derives ht).2 ⟨ys, hd⟩
        refine not_begins_of_head (x := 43) (by decide) ?_ (by rw [hbehind]; rfl) hb
        decide
      · simp [untellingRules] at hmem
    have ha : r ≠ 3 := by
      rintro rfl
      obtain rfl := Option.some.inj hr
      rcases ih with rfl | rfl | rfl <;> obtain rfl := Option.some.inj hi <;>
        simp [untellingRules] at hmem
    change r = 0 ∨ r = 1 ∨ r = 4
    have hlt : r < 5 := hlt
    clear hdot hd hr hi ih hmem ht
    revert r
    decide

/-- **A lookahead need not be that of a valid item.**  The rule of `a` is reduced on `+`, which
follows `a` in `c`; but nothing comes next behind `c`. -/
theorem exists_invalid_lookahead : ∃ (grammar : Grammar) (rules : Array Rule) (symbols : Registry)
    (c : Collection) (g : LabelledGrammar) (lookaheads : Lookaheads) (q : StateId) (s : State)
    (i : Item) (set : SymbolSet) (t : SymbolId),
    (readRules {} "s = c x; c = a '+'; a = NUM; x = x;").runOn .standard
      = (.ok (grammar, rules), symbols) ∧
    Collection.canonical rules (analyze symbols rules) {} = .ok c ∧
    LabelledGrammar.build rules c (analyze symbols rules) symbols {} = .ok g ∧
    Lookaheads.lalrOf rules c g = .ok lookaheads ∧ c.states[q]? = some s ∧
    i ∈ s.completed rules ∧ lookaheads q i.rule = some set ∧ t < symbols.terminalCount ∧
    t ≠ SymbolId.epsilon ∧
    ¬ (t ∈ set ↔ ∃ form, (c.table (analyze symbols rules)).leads StateId.initial form = some q ∧
      i.Valid rules symbols.terminalCount form t) := by
  have hok : (generate {} .standard "s = c x; c = a '+'; a = NUM; x = x;").toOption.any (fun a =>
      (a.states[4]?.any fun s => (s.completed a.rules).contains ⟨3, 1⟩) &&
        ((a.lookaheads 4 3).any (·.contains 19) &&
          decide (a.rules = untellingRules ∧ a.symbols.terminalCount = 40))) = true := by
    decide +kernel
  obtain ⟨a, ha, hok⟩ := Except.exists_of_any_toOption hok
  obtain ⟨hs, hok⟩ := Bool.and_eq_true_iff.1 hok
  obtain ⟨hset, hok⟩ := Bool.and_eq_true_iff.1 hok
  obtain ⟨hrules, hcount⟩ := of_decide_eq_true hok
  obtain ⟨c, lookaheads, result, hp⟩ := parts_of_generate ha
  obtain ⟨g, hg, hl⟩ := Except.bind_eq_ok hp.found
  rw [hp.states] at hs
  rw [hp.lookaheads_eq] at hset
  obtain ⟨s, hs, hi⟩ := (Option.any_eq_true _ _).1 hs
  obtain ⟨set, hset, ht⟩ := (Option.any_eq_true _ _).1 hset
  refine ⟨_, _, _, c, g, lookaheads, 4, s, ⟨3, 1⟩, set, 19, hp.read, hp.canonical, hg, hl, hs,
    by simpa using hi, hset, by rw [hcount]; decide, by decide, fun h => ?_⟩
  obtain ⟨form, -, hv⟩ := h.1 ht
  rw [hrules, hcount] at hv
  have hrule := rule_of_valid_untelling hv
  exact absurd hrule (by decide)

end Automaton
end ShiftReduce
