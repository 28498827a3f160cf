import ShiftReduce.Proofs.Defect
import ShiftReduce.Proofs.Sufficiency

/-!
# Proofs/Words — every number that the construction writes down fits its word

Numbers of symbols, rules, states and labels, and the places of dots, are kept in words of 16 bits.
Limits are no reason for them to fit: they may be as large as one likes, and nothing bounds the
length of a right-hand side by itself.  Symbols, rules, states and labels are counted before they
are given numbers.  A dot fits because an item is advanced only into a state that is found later:
no dot stands behind the number of its state (`Collection.Sized`), so a walk over a long right-hand
side needs more states than there can be.

Labelled rules alone are not counted for their numbers: where limits allow it there are more of them
than words (`exists_number_not_kept`).  They are put into lists by their numbers, and what a word
would cut off is left out of these lists (`LabelledGrammar.mem_rulesFor_iff`).

`generate_contained` says so of every stage of a generation, of those before a failure too, and that
whatever is looked up on the way by its number is there.
-/

namespace ShiftReduce

open ShiftReduce.Derivation Collection Grammar

/-! ## Words -/

/-- A word of 16 bits keeps the number. -/
def Kept (n : Nat) : Prop := (UInt16.ofNat n).toNat = n

/-- The numbers that are kept are those up to the greatest one. -/
theorem kept_iff {n : Nat} : Kept n ↔ n ≤ indexSpace := by
  rw [Kept, UInt16.toNat_ofNat', Nat.mod_eq_iff_lt (by decide)]
  exact Nat.lt_succ_iff

theorem Kept.of_le {m n : Nat} (h : Kept n) (hle : m ≤ n) : Kept m :=
  kept_iff.2 (Nat.le_trans hle (kept_iff.1 h))

/-! ## Symbols and rules -/

/-- **A registry has no more symbols than there are words for.** -/
theorem Registry.Made.kept_size {r : Registry} (h : r.Made) : Kept r.size :=
  kept_iff.2 h.size_le

/-- Rules that are read are counted. -/
theorem Augmented.kept_size {rules : Array Rule} {accept start symbolCount terminalCount : Nat}
    (h : Augmented rules accept start symbolCount terminalCount) : Kept rules.size :=
  kept_iff.2 h.size_le

/-! ## States and items -/

namespace Collection

variable {rules : Array Rule} {limits : Limits} {symbolCount terminalCount : Nat}

/-- The item is within its rule, and its dot not behind the number `q`. -/
def Shallow (rules : Array Rule) (q : StateId) (i : Item) : Prop :=
  i.dot ≤ q ∧ ∃ rule, rules[i.rule]? = some rule ∧ i.dot ≤ rule.rhs.length

/-- States whose numbers are words, with items within their rules and dots not behind the number of
the state. -/
structure Sized (rules : Array Rule) (states : Array State) : Prop where
  kept : Kept states.size
  shallow {q : StateId} {s : State} {i : Item} (hs : states[q]? = some s) (hi : i ∈ s.items) :
    Shallow rules q i

theorem Shallow.mono {p q : StateId} {i : Item} (h : Shallow rules p i) (hle : p ≤ q) :
    Shallow rules q i := ⟨h.1.trans hle, h.2⟩

/-- A kernel calls for no deep items. -/
theorem Shallow.of_called {kernel : Item → Prop} {q : StateId}
    (h : ∀ i, kernel i → Shallow rules q i) {i : Item} (hi : Item.Called rules kernel i) :
    Shallow rules q i := by
  cases hi with
  | kernel hi => exact h i hi
  | predicted _ hr _ => exact ⟨Nat.zero_le q, _, hr, Nat.zero_le _⟩

/-- **An advanced item may be in the next state.** -/
theorem Shallow.advance {q : StateId} {i : Item} (h : Shallow rules q i) {x : SymbolId}
    (hx : i.next? rules = some x) : Shallow rules (q + 1) i.advance := by
  obtain ⟨rule, hr, hx⟩ := Item.next?_eq_some_iff.1 hx
  exact ⟨Nat.succ_le_succ h.1, rule, hr, (List.getElem?_eq_some_iff.1 hx).1⟩

/-- An advanced item may be built before its state is found, and its dot is kept still. -/
theorem Sized.kept_advance {states : Array State} (h : Sized rules states) {q : StateId}
    {s : State} {i : Item} (hs : states[q]? = some s) (hi : i ∈ s.items) : Kept i.advance.dot :=
  h.kept.of_le ((Nat.succ_le_succ (h.shallow hs hi).1).trans (Array.getElem?_eq_some_iff.1 hs).1)

section Analysis

variable (hP : State.Numbered rules symbolCount terminalCount)

include hP

/-- A new state is closed over a kernel that is not too deep for its number. -/
theorem Sized.of_stateOf {states states' : Array State} (h : Sized rules states)
    {kernel : List Item} (hkernel : ∀ i ∈ kernel, Shallow rules states.size i) {q : StateId}
    (hq : stateOf rules (.compute (productions rules) symbolCount terminalCount) limits states
      kernel = .ok (q, states')) :
    Sized rules states' ∧ states.size ≤ states'.size := by
  rcases stateOf_cases hq with ⟨rfl, -⟩ | ⟨hlt, -, rfl⟩
  · exact ⟨h, Nat.le_refl _⟩
  have hspace : states.size < indexSpace := Nat.lt_of_lt_of_le hlt (Nat.min_le_right ..)
  refine ⟨⟨?_, fun {p s i} hs hi => ?_⟩, by simp⟩
  · rw [Array.size_push]
    exact kept_iff.2 hspace
  · rw [Array.getElem?_push] at hs
    split at hs
    · next hp =>
      obtain rfl := Option.some.inj hs
      exact hp ▸ Shallow.of_called hkernel ((State.mem_items_closure hP).1 hi)
    · exact h.shallow hs hi

/-- Finding the transitions of a state, as far as it goes. -/
theorem Sized.of_follow {states states' : Array State} (h : Sized rules states) {p : StateId}
    (hp : p < states.size) {state : State} (hstate : ∀ i ∈ state.items, Shallow rules p i)
    {xs : List SymbolId} {ts : Transitions}
    (hf : follow rules (.compute (productions rules) symbolCount terminalCount) limits state xs
      states = .ok (ts, states')) : Sized rules states' := by
  induction xs generalizing states ts with
  | nil =>
    obtain ⟨-, rfl⟩ := Prod.mk.inj (Except.ok.inj hf)
    exact h
  | cons x xs ih =>
    obtain ⟨⟨q, states₁⟩, h₁, hf⟩ := Except.bind_eq_ok hf
    obtain ⟨⟨rest, states₂⟩, h₂, hf⟩ := Except.bind_eq_ok hf
    obtain ⟨-, rfl⟩ := Prod.mk.inj (Except.ok.inj hf)
    have hkernel : ∀ i ∈ state.advanceOver rules x, Shallow rules states.size i := by
      intro i hi
      obtain ⟨j, hj, hx, rfl⟩ := State.mem_advanceOver.1 hi
      exact ((hstate j hj).advance hx).mono hp
    obtain ⟨hs, hle⟩ := h.of_stateOf hP hkernel h₁
    exact ih hs (Nat.lt_of_lt_of_le hp hle) h₂

theorem Sized.of_complete {n : Nat} {c c' : Collection} (h : Sized rules c.states)
    (hc : complete rules (.compute (productions rules) symbolCount terminalCount) limits n c =
      .ok c') : Sized rules c'.states :=
  complete_induction (p := fun c => Sized rules c.states)
    (fun _ _ _ _ h hs hf => h.of_follow hP (Array.getElem?_eq_some_iff.1 hs).1
      (fun _ hi => h.shallow hs hi) hf) h hc

end Analysis

/-! ## Stages of the construction -/

/-- **What the construction of a collection writes down and looks up**, when the transitions of some
states are found, and when those of the next state are found as far as they can be. -/
structure Contained (rules : Array Rule) (a : Analysis) (limits : Limits) (c : Collection) :
    Prop where
  sized : Sized rules c.states
  /-- Advanced items, also those whose state is not found yet. -/
  advance {q : StateId} {s : State} {i : Item} (hs : c.states[q]? = some s) (hi : i ∈ s.items) :
    Kept i.advance.dot
  edge {q q' : StateId} {x : SymbolId} (h : c.Edge q x q') :
    q < c.states.size ∧ x < a.symbolCount ∧ q' < c.states.size
  /-- The next state, with the transitions over its first symbols. -/
  next {state : State} (hs : c.states[c.transitions.size]? = some state)
    {before behind : List SymbolId} (hb : state.nextSymbols rules = before ++ behind)
    {ts : Transitions} {states : Array State}
    (h : follow rules a limits state before c.states = .ok (ts, states)) :
    Sized rules states ∧ ∀ x q, (x, q) ∈ ts → x < a.symbolCount ∧ q < states.size

section Stages

variable {accept start : SymbolId} {symbols : Registry} {q : StateId} {states : Array State}
  {n : Nat} {c : Collection}

theorem sized_of_complete (ha : Augmented rules accept start symbols.size symbols.terminalCount)
    (h₀ : stateOf rules (Automaton.analyze symbols rules) limits #[] [⟨RuleId.start, 0⟩] =
      .ok (q, states))
    (h : complete rules (Automaton.analyze symbols rules) limits n ⟨states, #[]⟩ = .ok c) :
    Sized rules c.states := by
  have hP := numbered_of_augmented ha
  have hempty : Sized rules #[] := ⟨kept_iff.2 (Nat.zero_le _), fun hs => by simp at hs⟩
  have hstart : ∀ i ∈ [(⟨RuleId.start, 0⟩ : Item)], Shallow rules 0 i := by
    intro i hi
    obtain rfl := List.mem_singleton.1 hi
    exact ⟨Nat.le_refl _, _, ha.start_rule, Nat.zero_le _⟩
  exact (hempty.of_stateOf hP hstart h₀).1.of_complete hP h

/-- **The collection is contained at every stage of its construction.** -/
theorem contained_of_complete
    (ha : Augmented rules accept start symbols.size symbols.terminalCount)
    (h₀ : stateOf rules (Automaton.analyze symbols rules) limits #[] [⟨RuleId.start, 0⟩] =
      .ok (q, states))
    (h : complete rules (Automaton.analyze symbols rules) limits n ⟨states, #[]⟩ = .ok c) :
    c.Contained rules (Automaton.analyze symbols rules) limits := by
  have hgrowing := (growing_of_stateOf h₀).of_complete h
  have hsized := sized_of_complete ha h₀ h
  have hsymbols {s : State} {x : SymbolId} (hx : x ∈ s.nextSymbols rules) :
      x < (Automaton.analyze symbols rules).symbolCount := by
    obtain ⟨i, -, hi⟩ := State.mem_nextSymbols.1 hx
    exact Automaton.symbolCount_analyze ▸ State.lt_of_next? (within_of_augmented ha).rhs_lt hi
  refine ⟨hsized, fun hs hi => hsized.kept_advance hs hi, fun {q q' x} he => ?_,
    fun {state} hs {before behind} hb {ts states'} hf => ⟨?_, fun x q hx => ?_⟩⟩
  · obtain ⟨s, s', hs, hx, hs', -⟩ := hgrowing.exists_of_edge he
    exact ⟨(Array.getElem?_eq_some_iff.1 hs).1, hsymbols hx, (Array.getElem?_eq_some_iff.1 hs').1⟩
  · exact hsized.of_follow (numbered_of_augmented ha) (Array.getElem?_eq_some_iff.1 hs).1
      (fun i hi => hsized.shallow hs hi) hf
  · obtain ⟨-, -, hleads, hmap, -⟩ := of_follow hgrowing.toClosed hf
    obtain ⟨s', hs', -⟩ := hleads.kernel hx
    have hbefore : x ∈ before := hmap ▸ List.mem_map_of_mem hx
    exact ⟨hsymbols (hb ▸ List.mem_append_left behind hbefore),
      (Array.getElem?_eq_some_iff.1 hs').1⟩

theorem contained_of_canonical
    (ha : Augmented rules accept start symbols.size symbols.terminalCount)
    (h : canonical rules (Automaton.analyze symbols rules) limits = .ok c) :
    c.Contained rules (Automaton.analyze symbols rules) limits := by
  obtain ⟨⟨q, states⟩, h₀, h⟩ := Except.bind_eq_ok h
  exact contained_of_complete ha h₀ h

end Stages

end Collection

/-! ## Labels -/

namespace LabelledGrammar

variable {rules : Array Rule} {c : Collection} {accept start base terminalCount : Nat}
  {limits : Limits} {a : Analysis}

/-- The rules `behind` are still to be labelled, and these are the labels of the ones before. -/
def Pending (rules : Array Rule) (c : Collection) (a : Analysis) (terminalCount base : Nat)
    (limits : Limits) (behind : List (StateId × RuleId × Rule)) (labels : Numbering Label) : Prop :=
  ∃ before done count, begun rules c = before ++ behind ∧
    labelAll (c.table a) terminalCount base limits before = .ok (done, count, labels)

/-- **What labelling writes down and looks up**, when some of the rules that begin in the states are
labelled, and when the next one is labelled as far as it can be. -/
structure Contained (rules : Array Rule) (c : Collection) (a : Analysis)
    (terminalCount base : Nat) (limits : Limits) : Prop where
  begun {q : StateId} {r : RuleId} {rule : Rule} (h : (q, r, rule) ∈ begun rules c) :
    q < c.states.size ∧ rules[r]? = some rule
  labels {behind : List (StateId × RuleId × Rule)} {labels : Numbering Label}
    (h : Pending rules c a terminalCount base limits behind labels) :
    ∀ y < base + labels.size, Kept y
  /-- The next rule, walked from its state over any of its symbols. -/
  walked {q : StateId} {r : RuleId} {rule : Rule} {behind : List (StateId × RuleId × Rule)}
    {labels labels' : Numbering Label}
    (h : Pending rules c a terminalCount base limits ((q, r, rule) :: behind) labels)
    {xs ys : List SymbolId} {p : StateId}
    (hw : walk (c.table a) terminalCount base limits q xs labels = .ok (ys, p, labels')) :
    p < c.states.size ∧ (∀ y < base + labels'.size, Kept y) ∧ ∀ y ∈ ys, y < base + labels'.size
  /-- The next rule with its left-hand side. -/
  labelled {q : StateId} {r : RuleId} {rule : Rule} {behind : List (StateId × RuleId × Rule)}
    {labels labels' : Numbering Label}
    (h : Pending rules c a terminalCount base limits ((q, r, rule) :: behind) labels)
    {l : LabelledRule}
    (hl : labelRule (c.table a) terminalCount base limits q r rule labels = .ok (l, labels')) :
    (∀ y < base + labels'.size, Kept y) ∧ l.lhs < base + labels'.size

/-- Labels are numbered behind the symbols, as far as there are words. -/
theorem kept_of_adds {labels : Numbering Label} (hbase : Kept base)
    (h : Adds base Numbering.empty labels) : ∀ y < base + labels.size, Kept y := by
  have hfits := h.fits (Nat.le_succ_of_le (kept_iff.1 hbase))
  exact fun y hy => kept_iff.2 (Nat.le_of_lt_succ (Nat.lt_of_lt_of_le hy hfits))

theorem Pending.adds (hc : Canonical rules c)
    (ha : Augmented rules accept start base terminalCount)
    (hcount : ∀ {q x q'}, c.Edge q x q' → x < a.symbolCount)
    {behind : List (StateId × RuleId × Rule)} {labels : Numbering Label}
    (h : Pending rules c a terminalCount base limits behind labels) :
    Adds base Numbering.empty labels := by
  obtain ⟨before, done, count, hb, h⟩ := h
  exact (of_labelAll hc ha hcount
    (fun q r rule hr => mem_begun.1 (hb ▸ List.mem_append_left behind hr)) h).1

/-- The next rule begins in its state. -/
theorem Pending.holds {q : StateId} {r : RuleId} {rule : Rule}
    {behind : List (StateId × RuleId × Rule)} {labels : Numbering Label}
    (h : Pending rules c a terminalCount base limits ((q, r, rule) :: behind) labels) :
    c.Holds q ⟨r, 0⟩ ∧ rules[r]? = some rule := by
  obtain ⟨before, -, -, hb, -⟩ := h
  exact mem_begun.1 (hb ▸ List.mem_append_right before List.mem_cons_self)

/-- **Labelling is contained at every stage.** -/
theorem contained_of_canonical (hc : Canonical rules c)
    (ha : Augmented rules accept start base terminalCount)
    (hcount : ∀ {q x q'}, c.Edge q x q' → x < a.symbolCount) (hbase : Kept base) :
    Contained rules c a terminalCount base limits where
  begun h := ⟨Canonical.lt_of_holds (mem_begun.1 h).1, (mem_begun.1 h).2⟩
  labels h := kept_of_adds hbase (h.adds hc ha hcount)
  walked h _ _ _ hw := by
    obtain ⟨hwalk, hspells⟩ := of_walk hc hcount hw
    exact ⟨hc.lt_of_walk hspells.walk (Canonical.lt_of_holds h.holds.1),
      kept_of_adds hbase ((h.adds hc ha hcount).trans hwalk), hspells.lt ha.le_symbolCount⟩
  labelled h _ hl := by
    obtain ⟨hq, hr⟩ := h.holds
    obtain ⟨hrule, -, -, hspells⟩ := of_labelRule hc ha hcount hr hq hl
    exact ⟨kept_of_adds hbase ((h.adds hc ha hcount).trans hrule),
      hspells.lhs.lt ha.le_symbolCount ha.accept_lt⟩

/-- A labelled rule ends where it is completed, and there are as many states as symbols are behind
its beginning. -/
theorem Labels.exists_completed {labels : Numbering Label} {labelled : List LabelledRule}
    (hc : Canonical rules c) (hlabels : Labels rules c accept terminalCount base labels labelled)
    (hsized : Sized rules c.states) {l : LabelledRule} (hl : l ∈ labelled) :
    ∃ rule, rules[l.origin]? = some rule ∧ Kept rule.rhs.length ∧
      c.Holds l.target ⟨l.origin, rule.rhs.length⟩ := by
  obtain ⟨rule, hrule⟩ := hlabels.sound hl
  have hholds := hc.holds_completed hrule.origin hrule.holds hrule.rhs.walk
  obtain ⟨s, hs, hi⟩ := hholds
  have hdot : rule.rhs.length ≤ c.states.size :=
    (hsized.shallow hs hi).1.trans (Array.getElem?_eq_some_iff.1 hs).1.le
  exact ⟨rule, hrule.origin, hsized.kept.of_le hdot, s, hs, hi⟩

/-- The labelled rules that an analysis lists are those whose numbers are kept. -/
theorem mem_rulesFor_iff {labelled : List LabelledRule} {symbolCount : Nat}
    (hP : Analysis.Within (labelled.map LabelledRule.toProduction) symbolCount terminalCount)
    {r : RuleId} {x : SymbolId} :
    r ∈ (Analysis.compute (labelled.map LabelledRule.toProduction) symbolCount
        terminalCount).rulesFor x ↔ Kept r ∧ ∃ l, labelled[r]? = some l ∧ l.lhs = x := by
  rw [Analysis.mem_rulesFor_iff, kept_iff]
  simp only [List.getElem?_map, Option.map_eq_some_iff]
  constructor
  · rintro ⟨-, hn, -, ⟨l, hl, rfl⟩, hx⟩
    exact ⟨hn, l, hl, hx⟩
  · rintro ⟨hn, l, hl, rfl⟩
    have hmem := List.mem_map_of_mem (f := LabelledRule.toProduction) (List.mem_of_getElem? hl)
    exact ⟨hP.lhs_lt _ hmem, hn, _, ⟨l, hl, rfl⟩, rfl⟩

end LabelledGrammar

/-! ## Automata -/

namespace Automaton

variable {registry symbols : Registry} {config : Config} {rules : Array Rule} {c : Collection}
  {accept start : SymbolId}

/-- **What the construction of an automaton writes down and looks up**, stage by stage. -/
structure Contained (config : Config) (symbols : Registry) (rules : Array Rule) : Prop where
  kept_size : Kept rules.size
  /-- The rules of each symbol are listed, all of them. -/
  listed {r : RuleId} {x : SymbolId} :
    r ∈ (analyze symbols rules).rulesFor x ↔ ∃ rule, rules[r]? = some rule ∧ rule.lhs = x
  /-- The start rule is there, and its completed item is the accepted one. -/
  start : ∃ rule, rules[RuleId.start]? = some rule ∧ rule.rhs.length = Item.accepted.dot
  within : Analysis.Within (productions rules) symbols.size symbols.terminalCount
  /-- The collection, after any number of rounds. -/
  collection {q : StateId} {states : Array State}
    (h₀ : stateOf rules (analyze symbols rules) config.limits #[] [⟨RuleId.start, 0⟩] =
      .ok (q, states)) {n : Nat} {c : Collection}
    (h : Collection.complete rules (analyze symbols rules) config.limits n ⟨states, #[]⟩ = .ok c) :
    c.Contained rules (analyze symbols rules) config.limits
  labelling {c : Collection}
    (h : canonical rules (analyze symbols rules) config.limits = .ok c) :
    LabelledGrammar.Contained rules c (analyze symbols rules) symbols.terminalCount symbols.size
      config.limits
  /-- Every labelled rule ends where it is completed.  There may be more labelled rules than words:
  those are listed whose numbers are kept. -/
  labelled {c : Collection} (h : canonical rules (analyze symbols rules) config.limits = .ok c)
    {g : LabelledGrammar}
    (hg : LabelledGrammar.build rules c (analyze symbols rules) symbols config.limits = .ok g) :
    Analysis.Within (g.rules.map LabelledRule.toProduction) (symbols.size + g.labels.size)
        symbols.terminalCount ∧
      (∀ l ∈ g.rules, ∃ rule, rules[l.origin]? = some rule ∧ Kept rule.rhs.length ∧
        c.Holds l.target ⟨l.origin, rule.rhs.length⟩) ∧
      ∀ {r x}, r ∈ g.analysis.rulesFor x ↔ Kept r ∧ ∃ l, g.rules[r]? = some l ∧ l.lhs = x
  /-- Every reduction is one of a rule, on a symbol of the row. -/
  completed {c : Collection} (h : canonical rules (analyze symbols rules) config.limits = .ok c)
    {lookaheads : Lookaheads}
    (hl : lookaheadsOf config.mode symbols rules (analyze symbols rules) c config.limits =
      .ok lookaheads) :
    (∀ q state, c.states[q]? = some state → ∃ row,
      (c.table (analyze symbols rules)).rows[q]? = some row ∧
        ∀ t cell, (t, cell) ∈ Completion.candidates rules lookaheads q state →
          t < row.size ∧ ∀ r, cell = .reduce r → r < rules.size) ∧
    ∃ result, Completion.complete rules c.states lookaheads (c.table (analyze symbols rules)) =
      .ok result ∧ result.finalState < c.states.size

/-- The candidates of a state are within its row. -/
theorem exists_row (hend : SymbolId.endOfInput < symbols.terminalCount) (hc : Canonical rules c)
    {lookaheads : Lookaheads} (hl : lookaheads.Terminal symbols.terminalCount) {q : StateId}
    {state : State} (hs : c.states[q]? = some state) :
    ∃ row, (c.table (analyze symbols rules)).rows[q]? = some row ∧
      ∀ t cell, (t, cell) ∈ Completion.candidates rules lookaheads q state →
        t < row.size ∧ ∀ r, cell = .reduce r → r < rules.size := by
  obtain ⟨row, hrow, hsize⟩ := exists_row_table (a := analyze symbols rules) hc hs
  refine ⟨row, hrow, fun t cell h => ⟨?_, ?_⟩⟩
  · rw [hsize, symbolCount_analyze]
    exact Nat.lt_of_lt_of_le (Completion.of_mem_candidates hend hl h).1 symbols.terminalCount_le
  · rintro r rfl
    rcases Completion.mem_candidates.1 h with ⟨-, h, -⟩ | ⟨i, hi, -, hr, -⟩
    · exact nomatch h
    · obtain rfl := Cell.reduce.inj hr
      obtain ⟨-, rule, hrule, -⟩ := State.mem_completed.1 hi
      exact (Array.getElem?_eq_some_iff.1 hrule).1

/-- **The construction is contained over augmented rules.** -/
theorem contained_of_augmented (hsymbols : Kept symbols.size)
    (hend : SymbolId.endOfInput < symbols.terminalCount)
    (ha : Augmented rules accept start symbols.size symbols.terminalCount) :
    Contained config symbols rules := by
  have hcount {c : Collection} (hc : Canonical rules c) {q q' : StateId} {x : SymbolId}
      (he : c.Edge q x q') : x < (analyze symbols rules).symbolCount :=
    symbolCount_analyze ▸ hc.lt_symbolCount_of_edge ha he
  refine ⟨ha.kept_size, State.mem_rulesFor (numbered_of_augmented ha), ⟨_, ha.start_rule, rfl⟩,
    within_of_augmented ha,
    fun {q states} h₀ {n c} h => contained_of_complete ha h₀ h,
    fun {c} h => ?_, fun {c} h {g} hg => ?_, fun {c} h {lookaheads} hl => ?_⟩
  · have hc := canonical_of_augmented ha h
    exact LabelledGrammar.contained_of_canonical hc ha (hcount hc) hsymbols
  · have hc := canonical_of_augmented ha h
    obtain ⟨hlabels, hanalysis⟩ := LabelledGrammar.labels_of_build hc ha (hcount hc) rfl hg
    have hwithin := hlabels.within ha
    have hsized := (Collection.contained_of_canonical ha h).sized
    exact ⟨hwithin, fun l hl => hlabels.exists_completed hc hsized hl,
      hanalysis ▸ LabelledGrammar.mem_rulesFor_iff hwithin⟩
  · have hc := canonical_of_augmented ha h
    have hterminal := terminal_of_lookaheadsOf hend ha hc hl
    exact ⟨fun q state hs => exists_row hend hc hterminal hs,
      exists_complete hend ha hc hterminal⟩

end Automaton
end ShiftReduce
