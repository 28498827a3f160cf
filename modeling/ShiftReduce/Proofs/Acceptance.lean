import ShiftReduce.Proofs.Defect

/-!
# Proofs/Acceptance — where an automaton accepts

The completed start rule is in one state only, which the initial state enters with the start symbol.
Its acceptance competes for the column of the end of the input.  It wins over every reduction, being
the reduction of the first rule, but not over a shift: if the end of the input is a symbol of some
rule, it may be shifted there, and then no cell of the table accepts
(`accepts_only_in_finalState`).
-/

namespace ShiftReduce

open ShiftReduce.Derivation Collection

/-! ## Competition for a cell -/

namespace Completion

variable {q : StateId} {t : SymbolId}

/-- What is in a cell after one more action asked for it. -/
def prevail (current candidate : Cell) : Cell :=
  match current with
  | .error => candidate
  | .shift _ | .goto _ => current
  | .reduce _ | .accept => if rank candidate < rank current then candidate else current

theorem eq_prevail_of_compete {current candidate cell : Cell} {conflict : Option Conflict}
    (h : compete q t current candidate = .ok (cell, conflict)) :
    cell = prevail current candidate := by
  unfold compete at h
  unfold prevail
  cases current with
  | error | shift => exact (Prod.mk.inj (Except.ok.inj h)).1.symm
  | goto => exact nomatch h
  | reduce | accept =>
    dsimp only at h ⊢
    split at h
    · rw [if_pos ‹_›]
      exact (Prod.mk.inj (Except.ok.inj h)).1.symm
    · rw [if_neg ‹_›]
      exact (Prod.mk.inj (Except.ok.inj h)).1.symm

/-- The actions that ask for a cell, in order. -/
def rivals (candidates : List Candidate) (t : SymbolId) : List Cell :=
  (candidates.filter (·.1 == t)).map Prod.snd

theorem mem_rivals {candidates : List Candidate} {cell : Cell} :
    cell ∈ rivals candidates t ↔ (t, cell) ∈ candidates := by
  simp [rivals]

theorem rivals_cons {candidates : List Candidate} {x : SymbolId} {cell : Cell} :
    rivals ((x, cell) :: candidates) t =
      if x = t then cell :: rivals candidates t else rivals candidates t := by
  unfold rivals
  by_cases hx : x = t <;> simp [hx]

/-- **The actions that ask for a cell compete for it in turn**, whatever asks for other cells in
between. -/
theorem getElem?_of_installAll {candidates : List Candidate} {row row' : Array Cell}
    {conflicts : List Conflict} (h : installAll q candidates row = .ok (row', conflicts))
    {cell : Cell} (hcell : row[t]? = some cell) :
    row'[t]? = some ((rivals candidates t).foldl prevail cell) := by
  induction candidates generalizing row cell conflicts with
  | nil =>
    obtain ⟨rfl, -⟩ := Prod.mk.inj (Except.ok.inj h)
    exact hcell
  | cons head rest ih =>
    obtain ⟨x, candidate⟩ := head
    obtain ⟨next, conflict, found, hnext, hrest, -⟩ := exists_of_installAll_cons h
    rw [rivals_cons]
    split
    · next hx =>
      subst hx
      rw [hcell, Option.getD_some] at hnext
      rw [List.foldl_cons, ← eq_prevail_of_compete hnext]
      have hlt := (Array.getElem?_eq_some_iff.1 hcell).1
      exact ih hrest (Array.getElem?_setIfInBounds_self_of_lt hlt)
    · next hx => exact ih hrest (by rwa [Array.getElem?_setIfInBounds_ne hx])

/-- The cell is a reduction of a later rule than the winner is, acceptance being that of the first
rule. -/
def Beats (winner cell : Cell) : Prop := ∃ r, cell = .reduce r ∧ rank winner < r

theorem prevail_of_beats {winner current : Cell} (h : current = .error ∨ Beats winner current) :
    prevail current winner = winner := by
  rcases h with rfl | ⟨r, rfl, hr⟩
  · rfl
  · exact if_pos hr

theorem beats_prevail {winner current cell : Cell} (h : current = .error ∨ Beats winner current)
    (hcell : Beats winner cell) : Beats winner (prevail current cell) := by
  rcases h with rfl | ⟨r, rfl, hr⟩
  · exact hcell
  · unfold prevail
    dsimp only
    split
    · exact hcell
    · exact ⟨r, rfl, hr⟩

/-- The winner keeps its cell. -/
theorem foldl_prevail_self {winner : Cell} (hne : winner ≠ .error) {cells : List Cell}
    (h : ∀ cell ∈ cells, cell = winner ∨ Beats winner cell) :
    cells.foldl prevail winner = winner := by
  induction cells with
  | nil => rfl
  | cons cell cells ih =>
    have hprevail : prevail winner cell = winner := by
      rcases h cell List.mem_cons_self with rfl | ⟨r, rfl, hr⟩
      · unfold prevail
        split <;> simp
      · unfold prevail
        split
        · exact absurd rfl hne
        · rfl
        · rfl
        · exact if_neg (Nat.lt_asymm hr)
        · exact if_neg (Nat.lt_asymm hr)
    rw [List.foldl_cons, hprevail]
    exact ih fun cell hcell => h cell (List.mem_cons_of_mem _ hcell)

/-- **Of several reductions that of the first rule wins**, whatever order they come in. -/
theorem foldl_prevail_of_mem {winner : Cell} (hne : winner ≠ .error) {cells : List Cell}
    (hmem : winner ∈ cells) (h : ∀ cell ∈ cells, cell = winner ∨ Beats winner cell)
    {current : Cell} (hcurrent : current = .error ∨ Beats winner current) :
    cells.foldl prevail current = winner := by
  induction cells generalizing current with
  | nil => exact nomatch hmem
  | cons cell cells ih =>
    have hrest : ∀ cell ∈ cells, cell = winner ∨ Beats winner cell := fun cell hcell =>
      h cell (List.mem_cons_of_mem _ hcell)
    rw [List.foldl_cons]
    rcases h cell List.mem_cons_self with rfl | hbeats
    · rw [prevail_of_beats hcurrent]
      exact foldl_prevail_self hne hrest
    · have hne' : winner ≠ cell := by
        rintro rfl
        obtain ⟨r, rfl, hr⟩ := hbeats
        exact Nat.lt_irrefl r hr
      exact ih (List.mem_of_ne_of_mem hne' hmem) hrest (.inr (beats_prevail hcurrent hbeats))

/-! ## Reports -/

section Reports

variable {current candidate cell : Cell} {conflict : Option Conflict}
  {candidates : List Candidate} {row row' : Array Cell} {conflicts : List Conflict}

/-- The conflicts about a cell. -/
def reports (conflicts : List Conflict) (q : StateId) (t : SymbolId) : List Conflict :=
  conflicts.filter fun c => c.state == q && c.terminal == t

theorem mem_reports {c : Conflict} :
    c ∈ reports conflicts q t ↔ c ∈ conflicts ∧ c.state = q ∧ c.terminal = t := by
  simp [reports]

theorem reports_append (conflicts conflicts' : List Conflict) :
    reports (conflicts ++ conflicts') q t = reports conflicts q t ++ reports conflicts' q t :=
  List.filter_append ..

theorem reports_of_compete (h : compete q t current candidate = .ok (cell, conflict)) :
    reports conflict.toList q t = conflict.toList := by
  refine List.filter_eq_self.2 fun c hc => ?_
  obtain ⟨rfl, rfl⟩ := at_of_compete h c (Option.mem_toList.1 hc)
  simp

theorem reports_of_compete_ne {x : SymbolId} (hx : x ≠ t)
    (h : compete q x current candidate = .ok (cell, conflict)) :
    reports conflict.toList q t = [] := by
  refine List.filter_eq_nil_iff.2 fun c hc => ?_
  obtain ⟨rfl, rfl⟩ := at_of_compete h c (Option.mem_toList.1 hc)
  simp [hx]

/-- **All that ask for the cell of a shift are reported**, in the order in which they ask. -/
theorem reports_of_installAll_of_shift (h : installAll q candidates row = .ok (row', conflicts))
    {p : StateId} (hrow : row[t]? = some (.shift p)) :
    reports conflicts q t =
      (rivals candidates t).map fun cell => ⟨q, t, .shiftReduce, .shift p, cell⟩ := by
  induction candidates generalizing row conflicts with
  | nil =>
    obtain ⟨rfl, rfl⟩ := Prod.mk.inj (Except.ok.inj h)
    rfl
  | cons head rest ih =>
    obtain ⟨x, candidate⟩ := head
    obtain ⟨next, conflict, found, hnext, hrest, rfl⟩ := exists_of_installAll_cons h
    have hshift := (installed_of_compete hnext).shift hrow
    dsimp only at hnext hrest
    rw [rivals_cons, reports_append, ih hrest hshift]
    by_cases hx : x = t
    · subst hx
      rw [hrow, Option.getD_some] at hnext
      rw [reports_of_compete hnext, if_pos rfl]
      obtain ⟨-, rfl⟩ := Prod.mk.inj (Except.ok.inj hnext)
      rfl
    · rw [reports_of_compete_ne hx hnext, if_neg hx, List.nil_append]

/-- **Nothing wins over a shift**, and whatever asks for its cell is reported. -/
theorem mem_of_installAll_of_shift (h : installAll q candidates row = .ok (row', conflicts))
    {p : StateId} (hrow : row[t]? = some (.shift p)) (hmem : (t, cell) ∈ candidates) :
    ⟨q, t, .shiftReduce, .shift p, cell⟩ ∈ conflicts := by
  have hreported : ⟨q, t, .shiftReduce, .shift p, cell⟩ ∈ reports conflicts q t := by
    rw [reports_of_installAll_of_shift h hrow]
    exact List.mem_map_of_mem (mem_rivals.2 hmem)
  exact (mem_reports.1 hreported).1

end Reports

variable {rules : Array Rule} {lookaheads : Lookaheads} {c : Collection} {a : Analysis}
  {result : Result}

/-- The row of a state in a completed table. -/
theorem exists_installAll_of_complete (hc : Canonical rules c)
    (h : complete rules c.states lookaheads (c.table a) = .ok result) {state : State}
    (hs : c.states[q]? = some state) :
    ∃ row row' found, (c.table a).rows[q]? = some row ∧ result.table.rows[q]? = some row' ∧
      row.size = a.symbolCount ∧ found ⊆ result.conflicts ∧
      installAll q (candidates rules lookaheads q state) row = .ok (row', found) := by
  obtain ⟨⟨rows, hrows, htable⟩, -⟩ := exists_of_complete h
  obtain ⟨row, hrow, hsize⟩ := exists_row_table (a := a) hc hs
  obtain ⟨row', hrow', hi⟩ := exists_installAll_of_completeRows hrows
    (by rwa [Array.getElem?_toList]) (by rwa [Array.getElem?_toList])
  rw [Nat.zero_add] at hi
  exact ⟨row, row', _, hrow, by rwa [htable, List.getElem?_toArray], hsize,
    List.filter_subset_self _, hi⟩

end Completion

/-! ## The state that accepts -/

namespace Collection.Canonical

variable {rules : Array Rule} {c : Collection} {accept start symbolCount terminalCount : Nat}

/-- The state behind the start symbol is the one that holds the completed start rule. -/
theorem holds_accepted_iff (hc : Canonical rules c)
    (ha : Augmented rules accept start symbolCount terminalCount) {q : StateId} :
    c.Holds q Item.accepted ↔ c.Edge StateId.initial start q := by
  constructor
  · intro h
    obtain ⟨p, rule, hr, hp, hw⟩ := hc.exists_begin ha h
    obtain rfl := Option.some.inj (ha.start_rule.symm.trans hr)
    obtain rfl := hc.eq_initial_of_holds_start ha hp
    obtain ⟨q', he, hw⟩ := walk_cons_iff.1 hw
    exact walk_nil_iff.1 hw ▸ he
  · intro he
    exact hc.holds_completed ha.start_rule hc.holds_initial (.single he)

/-- The edges of a state, by its items. -/
theorem exists_edge_iff_of_getElem? (hc : Canonical rules c) {q : StateId} {state : State}
    (hs : c.states[q]? = some state) {x : SymbolId} :
    (∃ q', c.Edge q x q') ↔ ∃ i ∈ state.items, i.next? rules = some x := by
  rw [hc.exists_edge_iff]
  constructor
  · rintro ⟨i, ⟨state', hs', hi⟩, hnext⟩
    obtain rfl := Option.some.inj (hs.symm.trans hs')
    exact ⟨i, hi, hnext⟩
  · rintro ⟨i, hi, hnext⟩
    exact ⟨i, ⟨state, hs, hi⟩, hnext⟩

end Collection.Canonical

namespace Automaton

variable {registry : Registry} {config : Config} {source : String} {a : Automaton} {c : Collection}
  {lookaheads : Lookaheads} {result : Completion.Result} {accept : SymbolId}

/-- The final state is the one behind the start symbol. -/
theorem Parts.edge_finalState (hp : Parts config registry source a c lookaheads result)
    (ha : Augmented a.rules accept a.grammar.start a.symbols.size a.symbols.terminalCount) :
    c.Edge StateId.initial a.grammar.start result.finalState := by
  obtain ⟨-, hfirst⟩ := Completion.exists_of_complete hp.complete
  obtain ⟨hlt, hcontains, -⟩ := Array.findIdx?_eq_some_iff_getElem.1 hfirst
  have hi := List.mem_of_elem_eq_true hcontains
  exact ((canonical_of_augmented ha hp.canonical).holds_accepted_iff ha).1
    ⟨_, Array.getElem?_eq_getElem hlt, (State.mem_completed.1 hi).1⟩

/-- What a terminal's cell in a state has become: the candidates for it competed in turn. -/
theorem Parts.exists_row (hp : Parts config registry source a c lookaheads result)
    (ha : Augmented a.rules accept a.grammar.start a.symbols.size a.symbols.terminalCount)
    {q : StateId} {state : State} (hs : c.states[q]? = some state) {t : SymbolId}
    (ht : t < a.symbols.terminalCount) :
    ∃ row row' found, row[t]? = some ((c.table (analyze a.symbols a.rules)).cell q t) ∧
      row'[t]? = some (a.table.cell q t) ∧ found ⊆ a.conflicts ∧ Completion.installAll q
        (Completion.candidates a.rules lookaheads q state) row = .ok (row', found) := by
  obtain ⟨row, row', found, hrow, hrow', hsize, hfound, hi⟩ :=
    Completion.exists_installAll_of_complete (canonical_of_augmented ha hp.canonical) hp.complete hs
  have hlt : t < row.size := by
    rw [hsize, symbolCount_analyze]
    exact Nat.lt_of_lt_of_le ht a.symbols.terminalCount_le
  have hlt' : t < row'.size := by
    rwa [(Completion.installed_of_installAll hi Completion.error_not_mem_candidates).size]
  have hcell : a.table.cell q t = result.table.cell q t := by rw [← hp.cells]; rfl
  refine ⟨row, row', found, ?_, ?_, hp.conflicts ▸ hfound, hi⟩
  · simp [CellTable.cell, hrow, hlt]
  · simp [hcell, CellTable.cell, hrow', hlt']

/-- Acceptance is asked for where the start rule is completed. -/
theorem accept_mem_candidates {rules : Array Rule} {start symbolCount terminalCount : Nat}
    (ha : Augmented rules accept start symbolCount terminalCount) {q : StateId} {state : State}
    (hi : Item.accepted ∈ state.items) :
    (SymbolId.endOfInput, .accept) ∈ Completion.candidates rules lookaheads q state :=
  Completion.mem_candidates.2
    (.inl ⟨rfl, rfl, State.mem_completed.2 ⟨hi, _, ha.start_rule, rfl⟩⟩)

/-- Acceptance loses to a shift over the end of the input. -/
theorem Parts.shift_of_edge_endOfInput (hp : Parts config registry source a c lookaheads result)
    (hreserves : a.symbols.Reserves)
    (ha : Augmented a.rules accept a.grammar.start a.symbols.size a.symbols.terminalCount)
    {q q' : StateId} (hq : c.Holds q Item.accepted) (he : c.Edge q SymbolId.endOfInput q') :
    a.table.cell q SymbolId.endOfInput = .shift q' ∧
      ⟨q, SymbolId.endOfInput, .shiftReduce, .shift q', .accept⟩ ∈ a.conflicts := by
  have hc := canonical_of_augmented ha hp.canonical
  have hend := hreserves.endOfInput_lt
  obtain ⟨state, hs, hi⟩ := hq
  obtain ⟨row, row', found, hrow, hrow', hfound, hinstall⟩ := hp.exists_row ha hs hend
  rw [(cell_table_iff ha hc Cell.noConfusion).2 ⟨q', he, (if_pos hend).symm⟩] at hrow
  have hshift := (Completion.installed_of_installAll hinstall
    Completion.error_not_mem_candidates).shift hrow
  refine ⟨Option.some.inj (hrow'.symm.trans hshift), hfound ?_⟩
  exact Completion.mem_of_installAll_of_shift hinstall hrow (accept_mem_candidates ha hi)

/-- Acceptance wins where the end of the input is not shifted. -/
theorem Parts.accept_of_not_edge_endOfInput
    (hp : Parts config registry source a c lookaheads result) (hreserves : a.symbols.Reserves)
    (ha : Augmented a.rules accept a.grammar.start a.symbols.size a.symbols.terminalCount)
    {q : StateId} (hq : c.Holds q Item.accepted)
    (he : ∀ q', ¬ c.Edge q SymbolId.endOfInput q') :
    a.table.cell q SymbolId.endOfInput = .accept := by
  have hend := hreserves.endOfInput_lt
  obtain ⟨state, hs, hi⟩ := hq
  obtain ⟨row, row', found, hrow, hrow', -, hinstall⟩ := hp.exists_row ha hs hend
  rw [cell_of_not_edge he] at hrow
  have hwins := Completion.getElem?_of_installAll hinstall hrow
  rw [hrow'] at hwins
  refine (Option.some.inj hwins).trans (Completion.foldl_prevail_of_mem Cell.noConfusion ?_ ?_
    (.inl rfl))
  · exact Completion.mem_rivals.2 (accept_mem_candidates ha hi)
  · intro cell hcell
    rcases Completion.mem_candidates.1 (Completion.mem_rivals.1 hcell) with
      ⟨-, hcell, -⟩ | ⟨i, hi, hne, hcell, -⟩
    · exact .inl hcell
    · obtain ⟨-, rule, hr, hdot⟩ := State.mem_completed.1 hi
      have hrule : i.rule ≠ RuleId.start := fun h => hne ((eq_accepted_iff ha hr hdot).2 h)
      exact .inr ⟨i.rule, hcell, Nat.pos_of_ne_zero hrule⟩

/-- **An automaton accepts in its final state at the end of the input**, and nowhere else.  The
final state is the one behind the start symbol.  It does not accept if one of its items has the end
of the input behind the dot: the input is shifted then, and the conflict is reported. -/
theorem accepts_only_in_finalState (hmade : registry.Made)
    (h : generate config registry source = .ok a) :
    a.table.cell StateId.initial a.grammar.start = .goto a.finalState ∧
    (∀ q x, a.table.cell q x = .accept → q = a.finalState ∧ x = SymbolId.endOfInput) ∧
    ∃ state, a.states[a.finalState]? = some state ∧
      ((∀ i ∈ state.items, i.next? a.rules ≠ some SymbolId.endOfInput) ∧
          a.table.cell a.finalState SymbolId.endOfInput = .accept ∨
        (∃ i ∈ state.items, i.next? a.rules = some SymbolId.endOfInput) ∧
          ∃ q, a.table.cell a.finalState SymbolId.endOfInput = .shift q ∧
            ⟨a.finalState, SymbolId.endOfInput, .shiftReduce, .shift q, .accept⟩ ∈
              a.conflicts) := by
  obtain ⟨-, -, c, lookaheads, result, hp, hfinal⟩ := generate_eq_ok_iff.1 h
  obtain ⟨hreserves, accept, ha⟩ := reserves_of_readRules hmade hp.read
  have hc := canonical_of_augmented ha hp.canonical
  have hedge : c.Edge StateId.initial a.grammar.start a.finalState :=
    hfinal ▸ hp.edge_finalState ha
  have hholds : c.Holds a.finalState Item.accepted := (hc.holds_accepted_iff ha).2 hedge
  refine ⟨hp.goto_of_edge ha ha.le_start hedge, fun q x hcell => ?_, ?_⟩
  · obtain ⟨hx, hq⟩ := (hp.follows hreserves ha).accept hcell
    exact ⟨hc.edge_unique ((hc.holds_accepted_iff ha).1 hq) hedge, hx⟩
  obtain ⟨state, hs, -⟩ := id hholds
  refine ⟨state, hp.states ▸ hs, ?_⟩
  have hnext := hc.exists_edge_iff_of_getElem? (x := SymbolId.endOfInput) hs
  by_cases he : ∃ q', c.Edge a.finalState SymbolId.endOfInput q'
  · obtain ⟨q', he'⟩ := id he
    exact .inr ⟨hnext.1 he, q', hp.shift_of_edge_endOfInput hreserves ha hholds he'⟩
  · refine .inl ⟨fun i hi hi' => he (hnext.2 ⟨i, hi, hi'⟩), ?_⟩
    exact hp.accept_of_not_edge_endOfInput hreserves ha hholds (not_exists.1 he)

/-- A number is accepted in the state behind the start symbol. -/
theorem accepts_only_in_finalState_num : ∃ a, Registry.standard.Made ∧
    generate {} .standard "s = NUM;" = .ok a ∧ a.finalState = 1 ∧
    a.table.cell StateId.initial a.grammar.start = .goto 1 ∧
    (∀ q x, a.table.cell q x = .accept → q = 1 ∧ x = SymbolId.endOfInput) ∧
    a.table.cell 1 SymbolId.endOfInput = .accept := by
  have hok : (generate {} .standard "s = NUM;").toOption.any (fun a =>
      a.finalState = 1 ∧ a.table.cell 1 SymbolId.endOfInput = .accept) = true := by
    decide +kernel
  obtain ⟨a, ha, hok⟩ := Except.exists_of_any_toOption hok
  obtain ⟨hfinal, hcell⟩ := of_decide_eq_true hok
  obtain ⟨hgoto, honly, -⟩ := accepts_only_in_finalState .standard ha
  rw [hfinal] at hgoto honly
  exact ⟨a, .standard, ha, hfinal, hgoto, honly, hcell⟩

/-- **No cell accepts where sentences may go on with the end of the input**: it is shifted in the
final state. -/
theorem exists_never_accepts : ∃ a, Registry.standard.Made ∧
    generate {} .standard "s = s EOF | NUM;" = .ok a ∧
    a.table.cell StateId.initial a.grammar.start = .goto a.finalState ∧
    a.table.cell a.finalState SymbolId.endOfInput = .shift 3 ∧
    ∀ q x, a.table.cell q x ≠ .accept := by
  have hok : (generate {} .standard "s = s EOF | NUM;").toOption.any (fun a =>
      a.table.cell StateId.initial a.grammar.start = .goto a.finalState ∧
      a.table.cell a.finalState SymbolId.endOfInput = .shift 3 ∧
      ∀ row ∈ a.cells.rows, ∀ cell ∈ row, cell ≠ .accept) = true := by
    decide +kernel
  obtain ⟨a, ha, hok⟩ := Except.exists_of_any_toOption hok
  obtain ⟨hgoto, hshift, hrows⟩ := of_decide_eq_true hok
  refine ⟨a, .standard, ha, hgoto, hshift, fun q x hcell => ?_⟩
  have hcell : a.cells.cell q x = .accept := hcell
  have hne : a.cells.cell q x ≠ .error := by
    rw [hcell]
    exact Cell.noConfusion
  obtain ⟨row, hrow, hx⟩ := exists_row_of_cell hne
  exact hrows row (Array.mem_of_getElem? hrow) _ (Array.mem_of_getElem? hx) hcell

end Automaton
end ShiftReduce
