import ShiftReduce.Proofs.Completion
import ShiftReduce.Automaton

/-!
# Proofs/Automaton — what a generated automaton is made of

A generated automaton consists of augmented rules, their canonical collection and its completed
table (`parts_of_generate`).  What a parser needs to know of all that are the lookups: `Follows`
says that every lookup has its ground in the collection, which holds of any automaton, and `Decides`
that the lookups are all that the collection asks for, which holds of LALR automata without
conflicts.
-/

namespace ShiftReduce

open ShiftReduce.Derivation Collection

namespace Automaton

variable {registry symbols : Registry} {limits : Limits} {source : String} {grammar : Grammar}
  {rules : Array Rule} {c : Collection}

/-! ## Parts -/

/-- What is known of the rules of a text. -/
theorem reserves_of_readRules (hmade : registry.Made)
    (h : (readRules limits source).runOn registry = (.ok (grammar, rules), symbols)) :
    symbols.Reserves ∧
      ∃ accept, Augmented rules accept grammar.start symbols.size symbols.terminalCount := by
  obtain ⟨he, ha⟩ := augmented_of_readRules h
  exact ⟨hmade.reserves.of_extends he, ha⟩

theorem symbolCount_analyze : (analyze symbols rules).symbolCount = symbols.size :=
  (Analysis.confined_first (P := productions rules)).1

theorem terminalCount_analyze : (analyze symbols rules).terminalCount = symbols.terminalCount :=
  (Analysis.bounded_compute (P := productions rules)).terminalCount_eq

theorem canonical_of_augmented {accept start : SymbolId}
    (ha : Augmented rules accept start symbols.size symbols.terminalCount)
    (h : Collection.canonical rules (analyze symbols rules) limits = .ok c) : Canonical rules c :=
  canonical_of_eq_ok (numbered_of_augmented ha) h

/-- The cells of the table before it is completed. -/
theorem cell_table_iff {accept start : SymbolId}
    (ha : Augmented rules accept start symbols.size symbols.terminalCount) (hc : Canonical rules c)
    {q : StateId} {x : SymbolId} {cell : Cell} (hne : cell ≠ .error) :
    (c.table (analyze symbols rules)).cell q x = cell ↔ ∃ q', c.Edge q x q' ∧
      cell = if x < symbols.terminalCount then .shift q' else .goto q' := by
  by_cases he : ∃ q', c.Edge q x q'
  · obtain ⟨q', he⟩ := he
    have hx : x < (analyze symbols rules).symbolCount :=
      symbolCount_analyze ▸ hc.lt_symbolCount_of_edge ha he
    rw [cell_of_edge hc he hx, terminalCount_analyze]
    constructor
    · rintro rfl
      exact ⟨q', he, rfl⟩
    · rintro ⟨q'', he', rfl⟩
      rw [hc.edge_unique he he']
  · rw [cell_of_not_edge (not_exists.1 he)]
    exact iff_of_false (Ne.symm hne) fun ⟨q', h, _⟩ => he ⟨q', h⟩

/-- The parts of an automaton. -/
structure Parts (config : Config) (registry : Registry) (source : String) (a : Automaton)
    (c : Collection) (lookaheads : Lookaheads) (result : Completion.Result) : Prop where
  read : (readRules config.limits source).runOn registry = (.ok (a.grammar, a.rules), a.symbols)
  canonical : Collection.canonical a.rules (analyze a.symbols a.rules) config.limits = .ok c
  found : lookaheadsOf config.mode a.symbols a.rules (analyze a.symbols a.rules) c
    config.limits = .ok lookaheads
  complete : Completion.complete a.rules c.states lookaheads
    (c.table (analyze a.symbols a.rules)) = .ok result
  states : a.states = c.states
  lookaheads_eq : a.lookaheads = lookaheads
  cells : a.cells = result.table
  conflicts : a.conflicts = result.conflicts

/-- **An automaton is generated if and only if its parts can be made**, and it consists of them. -/
theorem generate_eq_ok_iff {config : Config} {a : Automaton} :
    generate config registry source = .ok a ↔
      a.symbols.size ≤ config.limits.symbols ∧ a.mode = config.mode ∧ ∃ c lookaheads result,
        Parts config registry source a c lookaheads result ∧
          a.finalState = result.finalState := by
  constructor
  · intro h
    unfold generate at h
    split at h
    · exact nomatch h
    next grammar rules symbols hread =>
    unfold ofRules at h
    dsimp only at h
    split at h
    · exact nomatch h
    next hsize =>
    obtain ⟨c, hc, h⟩ := Except.bind_eq_ok h
    obtain ⟨lookaheads, hl, h⟩ := Except.bind_eq_ok h
    obtain ⟨result, hr, h⟩ := Except.bind_eq_ok h
    obtain rfl := Except.ok.inj h
    exact ⟨Nat.le_of_not_lt hsize, rfl, c, lookaheads, result,
      ⟨hread, hc, hl, hr, rfl, rfl, rfl, rfl⟩, rfl⟩
  · rintro ⟨hsize, hmode, c, lookaheads, result,
      ⟨hread, hc, hl, hr, hstates, hlookaheads, hcells, hconflicts⟩, hfinal⟩
    obtain ⟨symbols, grammar, rules, states, _, cells, final, conflicts, mode⟩ := a
    dsimp only at *
    subst hstates hlookaheads hcells hconflicts hfinal hmode
    simp only [generate, hread, ofRules, if_neg (Nat.not_lt_of_le hsize), hc, hl, hr, bind,
      Except.bind, pure, Except.pure]

/-- **What a generated automaton is made of.** -/
theorem parts_of_generate {config : Config} {a : Automaton}
    (h : generate config registry source = .ok a) :
    ∃ c lookaheads result, Parts config registry source a c lookaheads result := by
  obtain ⟨-, -, c, lookaheads, result, hp, -⟩ := generate_eq_ok_iff.1 h
  exact ⟨c, lookaheads, result, hp⟩

end Automaton

/-! ## Lookups -/

/-- Every lookup of a table has its ground in a collection. -/
structure Table.Follows (t : Table) (rules : Array Rule) (terminalCount : Nat) (c : Collection) :
    Prop where
  shift {q q' : StateId} {x : SymbolId} (h : t.cell q x = .shift q') :
    x < terminalCount ∧ c.Edge q x q'
  goto {q q' : StateId} {x : SymbolId} (h : t.cell q x = .goto q') :
    terminalCount ≤ x ∧ c.Edge q x q'
  reduce {q : StateId} {x : SymbolId} {r : RuleId} (h : t.cell q x = .reduce r) :
    r ≠ RuleId.start ∧ ∃ rule, rules[r]? = some rule ∧ c.Holds q ⟨r, rule.rhs.length⟩
  accept {q : StateId} {x : SymbolId} (h : t.cell q x = .accept) :
    x = SymbolId.endOfInput ∧ c.Holds q Item.accepted
  rule? (r : RuleId) : t.rule? r = (rules[r]?).map Automaton.reduction
  terminal? {name : String} {x : SymbolId} (h : t.terminal? name = some x) : x < terminalCount
  endOfInput : t.terminal? Terminal.endOfInput = some SymbolId.endOfInput

/-- The lookups of a table are all that a collection and its LALR(1) lookaheads ask for. -/
structure Table.Decides (t : Table) (rules : Array Rule) (terminalCount : Nat) (c : Collection) :
    Prop extends t.Follows rules terminalCount c where
  shift_of_edge {q q' : StateId} {x : SymbolId} (hx : x < terminalCount) (he : c.Edge q x q') :
    t.cell q x = .shift q'
  goto_of_edge {q q' : StateId} {x : SymbolId} (hx : terminalCount ≤ x) (he : c.Edge q x q') :
    t.cell q x = .goto q'
  accept_of_holds {q : StateId} (h : c.Holds q Item.accepted) :
    t.cell q SymbolId.endOfInput = .accept
  reduce_iff {q : StateId} {x : SymbolId} {r : RuleId} :
    t.cell q x = .reduce r ↔
      EndsBefore rules terminalCount c q r x ∧ r ≠ RuleId.start ∧ x ≠ SymbolId.epsilon

namespace Automaton

variable {registry : Registry} {config : Config} {source : String} {a : Automaton} {c : Collection}
  {lookaheads : Lookaheads} {result : Completion.Result} {accept : SymbolId}

/-- A completed item is the accepted one if it is of the start rule. -/
theorem eq_accepted_iff {rules : Array Rule} {start symbolCount terminalCount : Nat}
    (ha : Augmented rules accept start symbolCount terminalCount) {i : Item} {rule : Rule}
    (hr : rules[i.rule]? = some rule) (hdot : i.dot = rule.rhs.length) :
    i = Item.accepted ↔ i.rule = RuleId.start := by
  obtain ⟨r, dot⟩ := i
  constructor
  · rintro ⟨⟩
    rfl
  · rintro rfl
    obtain rfl := Option.some.inj (ha.start_rule.symm.trans hr)
    exact congrArg (Item.mk RuleId.start) hdot

/-- **The lookups of an automaton have their ground in its collection.** -/
theorem Parts.follows (hp : Parts config registry source a c lookaheads result)
    (hreserves : a.symbols.Reserves)
    (ha : Augmented a.rules accept a.grammar.start a.symbols.size a.symbols.terminalCount) :
    a.table.Follows a.rules a.symbols.terminalCount c := by
  have hc := canonical_of_augmented ha hp.canonical
  have hcompleted := Completion.completed_of_complete hc hp.complete
  -- a cell is that of an edge, or a candidate
  have origin {q : StateId} {x : SymbolId} {cell : Cell} (hcell : a.table.cell q x = cell)
      (hne : cell ≠ .error) :
      (∃ q', c.Edge q x q' ∧ cell = if x < a.symbols.terminalCount then .shift q' else .goto q') ∨
        ∃ state, c.states[q]? = some state ∧
          (x, cell) ∈ Completion.candidates a.rules lookaheads q state := by
    have hcell' : result.table.cell q x = cell := by rw [← hp.cells]; exact hcell
    have h := hcompleted.origin (hcell'.symm ▸ hne)
    rw [hcell', cell_table_iff ha hc hne] at h
    exact h
  refine ⟨fun {q q' x} h => ?_, fun {q q' x} h => ?_, fun {q x r} h => ?_, fun {q x} h => ?_,
    fun r => rfl, fun h => Registry.lt_of_terminal? h, hreserves.terminal?_endOfInput⟩
  · rcases origin h Cell.noConfusion with ⟨q'', he, hcell⟩ | ⟨state, -, hm⟩
    · split at hcell
      · next hx => exact ⟨hx, Cell.shift.inj hcell ▸ he⟩
      · exact nomatch hcell
    · rcases Completion.mem_candidates.1 hm with ⟨-, h, -⟩ | ⟨i, -, -, h, -⟩ <;> exact nomatch h
  · rcases origin h Cell.noConfusion with ⟨q'', he, hcell⟩ | ⟨state, -, hm⟩
    · split at hcell
      · exact nomatch hcell
      · next hx => exact ⟨Nat.le_of_not_lt hx, Cell.goto.inj hcell ▸ he⟩
    · rcases Completion.mem_candidates.1 hm with ⟨-, h, -⟩ | ⟨i, -, -, h, -⟩ <;> exact nomatch h
  · rcases origin h Cell.noConfusion with ⟨q'', he, hcell⟩ | ⟨state, hs, hm⟩
    · split at hcell <;> exact nomatch hcell
    · rcases Completion.mem_candidates.1 hm with ⟨-, h, -⟩ | ⟨i, hi, hne, hcell, -⟩
      · exact nomatch h
      · obtain rfl := Cell.reduce.inj hcell
        obtain ⟨hi, rule, hr, hdot⟩ := State.mem_completed.1 hi
        refine ⟨fun h₀ => hne ((eq_accepted_iff ha hr hdot).2 h₀), rule, hr, state, hs, ?_⟩
        rwa [← hdot]
  · rcases origin h Cell.noConfusion with ⟨q'', he, hcell⟩ | ⟨state, hs, hm⟩
    · split at hcell <;> exact nomatch hcell
    · rcases Completion.mem_candidates.1 hm with ⟨hx, -, hi⟩ | ⟨i, -, -, h, -⟩
      · exact ⟨hx, state, hs, (State.mem_completed.1 hi).1⟩
      · exact nomatch h

/-- Conflicts are about terminals alone: no goto is lost to one. -/
theorem Parts.goto_of_edge (hp : Parts config registry source a c lookaheads result)
    (ha : Augmented a.rules accept a.grammar.start a.symbols.size a.symbols.terminalCount)
    {q q' : StateId} {x : SymbolId} (hx : a.symbols.terminalCount ≤ x) (he : c.Edge q x q') :
    a.table.cell q x = .goto q' := by
  have hc := canonical_of_augmented ha hp.canonical
  have hcompleted := Completion.completed_of_complete hc hp.complete
  have hcell : a.table.cell q x = result.table.cell q x := by
    rw [← hp.cells]
    rfl
  refine hcell.trans (hcompleted.goto ((cell_table_iff ha hc Cell.noConfusion).2 ⟨q', he, ?_⟩))
  rw [if_neg (Nat.not_lt_of_le hx)]

/-- **The lookups of an LALR automaton without conflicts are all that its collection asks for.** -/
theorem Parts.decides (hp : Parts config registry source a c lookaheads result)
    (hreserves : a.symbols.Reserves)
    (ha : Augmented a.rules accept a.grammar.start a.symbols.size a.symbols.terminalCount)
    (hmode : config.mode = .lalr) (hconflicts : a.conflicts = []) :
    a.table.Decides a.rules a.symbols.terminalCount c := by
  have hc := canonical_of_augmented ha hp.canonical
  have hcompleted := Completion.completed_of_complete hc hp.complete
  have hcell {q : StateId} {x : SymbolId} : a.table.cell q x = result.table.cell q x := by
    rw [← hp.cells]
    rfl
  have hcount : (analyze a.symbols a.rules).symbolCount = a.symbols.size := symbolCount_analyze
  have hend := hreserves.endOfInput_lt
  have hle : a.symbols.terminalCount ≤ a.symbols.size := a.symbols.terminalCount_le
  -- the lookaheads are those of the labelled grammar
  obtain ⟨g, hg, hl⟩ : ∃ g, LabelledGrammar.build a.rules c (analyze a.symbols a.rules) a.symbols
      config.limits = .ok g ∧ Lookaheads.lalrOf a.rules c g = .ok lookaheads := by
    have h := hp.found
    rw [hmode] at h
    exact Except.bind_eq_ok h
  obtain ⟨hlabels, hanalysis⟩ := LabelledGrammar.labels_of_build hc ha
    (fun he => hcount ▸ hc.lt_symbolCount_of_edge ha he) rfl hg
  rw [Lookaheads.lalrOf_eq_ok hc hlabels] at hl
  obtain rfl := Except.ok.inj hl
  have hmem {q : StateId} {r : RuleId} {t : SymbolId} :=
    Lookaheads.mem_lalr_iff (q := q) (r := r) (t := t) hc ha hlabels hanalysis
  have hfollows := hp.follows hreserves ha
  refine ⟨hfollows, fun {q q' x} hx he => ?_, fun {q q' x} hx he => ?_, fun {q} h => ?_,
    fun {q x r} => ⟨fun h => ?_, fun ⟨hends, h₀, hx⟩ => ?_⟩⟩
  · refine hcell.trans (hcompleted.shift ((cell_table_iff ha hc Cell.noConfusion).2 ⟨q', he, ?_⟩))
    rw [if_pos hx]
  · exact hp.goto_of_edge ha hx he
  · obtain ⟨state, hs, hi⟩ := h
    refine hcell.trans (hcompleted.gets (hp.conflicts ▸ hconflicts) hs
      (hcount ▸ Nat.lt_of_lt_of_le hend hle) (Completion.mem_candidates.2 (.inl ⟨rfl, rfl, ?_⟩)))
    exact State.mem_completed.2 ⟨hi, _, ha.start_rule, rfl⟩
  · rw [hcell] at h
    have hne : result.table.cell q x ≠ .error := h ▸ Cell.noConfusion
    obtain ⟨h₀, -⟩ := hfollows.reduce (hcell.trans h)
    have ho := hcompleted.origin hne
    rw [h, cell_table_iff ha hc Cell.noConfusion] at ho
    rcases ho with ⟨q', -, hq'⟩ | ⟨state, hs, hm⟩
    · split at hq' <;> exact nomatch hq'
    · rcases Completion.mem_candidates.1 hm with ⟨-, h, -⟩ | ⟨i, -, -, hr, hset⟩
      · exact nomatch h
      · obtain rfl := Cell.reduce.inj hr
        obtain ⟨hends, hx⟩ := hmem.1 hset
        exact ⟨hends, h₀, hx⟩
  · obtain ⟨set, hset, hx⟩ := hmem.2 ⟨hends, hx⟩
    obtain ⟨p, rule, hr, hp', hw, hf⟩ := hends
    obtain ⟨state, hs, hi⟩ := hc.holds_completed hr hp' hw
    refine hcell.trans (hcompleted.gets (hp.conflicts ▸ hconflicts) hs
      (hcount ▸ Nat.lt_of_lt_of_le (hf.lt hend) hle) (Completion.mem_candidates.2 (.inr ?_)))
    refine ⟨⟨r, rule.rhs.length⟩, State.mem_completed.2 ⟨hi, rule, hr, rfl⟩, fun h => ?_, rfl, set,
      hset, hx⟩
    exact h₀ ((eq_accepted_iff ha hr rfl).1 h)

end Automaton
end ShiftReduce
