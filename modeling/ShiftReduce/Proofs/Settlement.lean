import ShiftReduce.Proofs.Acceptance
import ShiftReduce.Proofs.Kernels

/-!
# Proofs/Settlement — who wins a cell, and what is reported

Whoever asks for a cell of a terminal either holds it in the end or is reported once as dropped: a
round of the competition moves one action from the askers to the holder or to the report
(`perm_of_installAll`).  As no action asks twice, this settles every cell (`Settles`), whatever
order the items of a state come in and whatever the lookaheads are.
-/

namespace ShiftReduce

open ShiftReduce.Derivation Collection
open scoped List

namespace Completion

/-! ## One cell -/

variable {q : StateId} {t : SymbolId} {current candidate cell : Cell} {conflict : Option Conflict}

/-- Whether a cell reduces, acceptance being the reduction of the first rule. -/
def reduces : Cell → Bool
  | .reduce _ | .accept => true
  | _ => false

/-- The action in a cell, if there is one. -/
def held : Cell → List Cell
  | .error => []
  | cell => [cell]

@[simp] theorem held_error : held .error = [] := rfl

theorem held_of_reduces (h : reduces cell = true) : held cell = [cell] := by
  cases cell <;> first | rfl | cases h

theorem eq_of_mem_held {cell' : Cell} (h : cell' ∈ held cell) : cell' = cell := by
  cases cell with
  | error => cases h
  | _ => exact List.mem_singleton.1 h

/-- Of two reductions one is held, and the other is reported. -/
theorem perm_of_compete (hcurrent : current = .error ∨ reduces current = true)
    (hcandidate : reduces candidate = true)
    (h : compete q t current candidate = .ok (cell, conflict)) :
    reduces cell = true ∧ (∀ c ∈ conflict, c.kind = .reduceReduce) ∧
      (held cell ++ conflict.toList.map Conflict.dropped).Perm (held current ++ [candidate]) := by
  unfold compete at h
  split at h
  · obtain ⟨rfl, rfl⟩ := Prod.mk.inj (Except.ok.inj h)
    exact ⟨hcandidate, nofun, by simp [held_of_reduces hcandidate]⟩
  · simp [reduces] at hcurrent
  · cases h
  all_goals
    have hcurrent := hcurrent.resolve_left Cell.noConfusion
    rw [held_of_reduces hcurrent]
    split at h <;> obtain ⟨rfl, rfl⟩ := Prod.mk.inj (Except.ok.inj h)
    · rw [held_of_reduces hcandidate]
      exact ⟨hcandidate, by rintro c ⟨⟩; rfl, .swap ..⟩
    · rw [held_of_reduces hcurrent]
      exact ⟨hcurrent, by rintro c ⟨⟩; rfl, .refl _⟩

/-! ## A row -/

variable {candidates : List Candidate} {row row' : Array Cell} {conflicts : List Conflict}

/-- What a round drops stands in front of what is dropped later. -/
theorem perm_of_round {α : Type} {current next last dropped later rest : List α} {a : α}
    (hround : next ++ dropped ~ current ++ [a]) (hrest : last ++ later ~ next ++ rest) :
    last ++ (dropped ++ later) ~ current ++ a :: rest :=
  calc last ++ (dropped ++ later)
    _ ~ dropped ++ (last ++ later) := by
      simp only [← List.append_assoc]
      exact List.perm_append_comm.append_right _
    _ ~ dropped ++ (next ++ rest) := hrest.append_left _
    _ ~ next ++ dropped ++ rest := by
      simp only [← List.append_assoc]
      exact List.perm_append_comm.append_right _
    _ ~ current ++ [a] ++ rest := hround.append_right _
    _ = current ++ a :: rest := List.append_assoc ..

/-- **Nothing is lost in the competition of reductions**: who asked for the cell holds it in the end
or is reported as dropped. -/
theorem perm_of_installAll (h : installAll q candidates row = .ok (row', conflicts))
    (hrow : row[t]? = some current) (hcurrent : current = .error ∨ reduces current = true)
    (hrivals : ∀ cell ∈ rivals candidates t, reduces cell = true) :
    ∃ cell, row'[t]? = some cell ∧ (∀ c ∈ reports conflicts q t, c.kind = .reduceReduce) ∧
      (held cell ++ (reports conflicts q t).map Conflict.dropped).Perm
        (held current ++ rivals candidates t) := by
  induction candidates generalizing row current conflicts with
  | nil =>
    obtain ⟨rfl, rfl⟩ := Prod.mk.inj (Except.ok.inj h)
    exact ⟨current, hrow, nofun, .refl _⟩
  | cons head rest ih =>
    obtain ⟨x, candidate⟩ := head
    obtain ⟨next, conflict, found, hnext, hrest, rfl⟩ := exists_of_installAll_cons h
    dsimp only at hnext hrest
    rw [rivals_cons] at hrivals ⊢
    rw [reports_append]
    by_cases hx : x = t
    · subst hx
      rw [if_pos rfl] at hrivals ⊢
      rw [hrow, Option.getD_some] at hnext
      obtain ⟨hreduces, hkind, hperm⟩ :=
        perm_of_compete hcurrent (hrivals candidate List.mem_cons_self) hnext
      have hset : (row.setIfInBounds x next)[x]? = some next :=
        Array.getElem?_setIfInBounds_self_of_lt (Array.getElem?_eq_some_iff.1 hrow).1
      obtain ⟨cell, hcell, hkinds, hperms⟩ := ih hrest hset (.inr hreduces)
        fun cell hcell => hrivals cell (List.mem_cons_of_mem _ hcell)
      rw [reports_of_compete hnext]
      refine ⟨cell, hcell, fun c hc => ?_, ?_⟩
      · rcases List.mem_append.1 hc with hc | hc
        · exact hkind c (Option.mem_toList.1 hc)
        · exact hkinds c hc
      · rw [List.map_append]
        exact perm_of_round hperm hperms
    · rw [if_neg hx] at hrivals ⊢
      rw [reports_of_compete_ne hx hnext, List.nil_append]
      exact ih hrest (by rwa [Array.getElem?_setIfInBounds_ne hx]) hcurrent hrivals

/-! ## What a state asks for -/

variable {rules : Array Rule} {lookaheads : Lookaheads} {state : State}

theorem nodup_rivals (h : candidates.Nodup) : (rivals candidates t).Nodup := by
  refine List.Nodup.map_on ?_ (h.filter _)
  rintro ⟨x, cell⟩ hx ⟨x', cell'⟩ hx' rfl
  obtain rfl : x = t := by simpa using (List.mem_filter.1 hx).2
  obtain rfl : x' = x := by simpa using (List.mem_filter.1 hx').2
  rfl

/-- A rule is completed in one way only. -/
theorem eq_of_mem_completed {i j : Item} (hi : i ∈ state.completed rules)
    (hj : j ∈ state.completed rules) (h : i.rule = j.rule) : i = j := by
  obtain ⟨-, rule, hr, hdot⟩ := State.mem_completed.1 hi
  obtain ⟨-, rule', hr', hdot'⟩ := State.mem_completed.1 hj
  obtain rfl := Option.some.inj (hr.symm.trans (h ▸ hr'))
  obtain ⟨r, dot⟩ := i
  obtain ⟨r', dot'⟩ := j
  obtain rfl : r = r' := h
  exact congrArg (Item.mk r) (hdot.trans hdot'.symm)

/-- **No state asks for an action twice.** -/
theorem nodup_candidates (h : state.items.Nodup) :
    (Completion.candidates rules lookaheads q state).Nodup := by
  refine List.nodup_flatMap.2 ⟨fun i _ => ?_, ?_⟩
  · unfold candidatesOf
    split
    · exact List.nodup_singleton _
    · split
      · exact .nil
      · exact (SymbolSet.nodup_toList _).map fun x x' hx => (Prod.mk.inj hx).1
  · refine (h.filter _).pairwise_of_forall_ne fun i hi j hj hne => ?_
    rintro ⟨x, cell⟩ hx hx'
    rcases mem_candidatesOf.1 hx with ⟨-, rfl, rfl⟩ | ⟨-, rfl, -⟩
    · rcases mem_candidatesOf.1 hx' with ⟨-, -, rfl⟩ | ⟨-, hcell, -⟩
      · exact hne rfl
      · cases hcell
    · rcases mem_candidatesOf.1 hx' with ⟨-, hcell, -⟩ | ⟨-, hcell, -⟩
      · cases hcell
      · exact hne (eq_of_mem_completed hi hj (Cell.reduce.inj hcell))

/-! ## A settled table -/

/-- What a state asks for at a terminal: acceptance behind the completed start rule at the end of
the input, and the reduction of another completed rule on its lookaheads. -/
inductive Asks (rules : Array Rule) (lookaheads : Lookaheads) (states : Array State) (q : StateId)
    (t : SymbolId) : Cell → Prop
  | accept {state : State} (hs : states[q]? = some state)
    (hi : Item.accepted ∈ state.completed rules) (ht : t = SymbolId.endOfInput) :
    Asks rules lookaheads states q t .accept
  | reduce {state : State} {i : Item} {set : SymbolSet} (hs : states[q]? = some state)
    (hi : i ∈ state.completed rules) (hne : i.rule ≠ RuleId.start)
    (hset : lookaheads q i.rule = some set) (ht : t ∈ set) :
    Asks rules lookaheads states q t (.reduce i.rule)

/-- How a cell is settled that holds a shift or nothing, and for which some actions compete. -/
structure Settled (q : StateId) (t : SymbolId) (asks : Cell → Prop) (before after : Cell)
    (reported : List Conflict) : Prop where
  /-- A shift stays. -/
  shift {p : StateId} (h : before = .shift p) : after = .shift p
  /-- Acceptance wins over every reduction. -/
  accept (h : before = .error) (ha : asks .accept) : after = .accept
  /-- Of several reductions that of the lowest rule wins. -/
  reduce {r : RuleId} (h : before = .error) (hr : asks (.reduce r)) (ha : ¬ asks .accept)
    (hmin : ∀ r', asks (.reduce r') → r ≤ r') : after = .reduce r
  /-- A cell for which nothing asks stays empty. -/
  error (h : before = .error) (hnone : ∀ cell, ¬ asks cell) : after = .error
  /-- Whatever asks for a shift's cell is reported once, as dropped for the shift. -/
  shiftReduce {p : StateId} (h : before = .shift p) : reported.Nodup ∧
    ∀ c, c ∈ reported ↔ ∃ cell, asks cell ∧ c = ⟨q, t, .shiftReduce, .shift p, cell⟩
  /-- Every other action but the winner is dropped once, and the winner never. -/
  reduceReduce (h : before = .error) : (∀ c ∈ reported, c.kind = .reduceReduce) ∧
    (reported.map Conflict.dropped).Nodup ∧
    ∀ cell, cell ∈ reported.map Conflict.dropped ↔ asks cell ∧ cell ≠ after

/-- Two actions compete for a cell. -/
def Contested (asks : Cell → Prop) (before : Cell) : Prop :=
  ∃ cell, asks cell ∧ (before ≠ .error ∨ ∃ cell', asks cell' ∧ cell' ≠ cell)

/-- **A settled table**: in the columns of the terminals every cell is settled, the others are as
before, and nothing is reported but what has lost a cell. -/
structure Settles (rules : Array Rule) (lookaheads : Lookaheads) (terminalCount : Nat)
    (states : Array State) (table : CellTable) (result : Result) : Prop where
  other {q : StateId} {x : SymbolId} (hx : terminalCount ≤ x) :
    result.table.cell q x = table.cell q x
  settled {q : StateId} {t : SymbolId} (ht : t < terminalCount) :
    Settled q t (Asks rules lookaheads states q t) (table.cell q t) (result.table.cell q t)
      (reports result.conflicts q t)
  conflicts_eq_nil_iff : result.conflicts = [] ↔
    ∀ q t, ¬ Contested (Asks rules lookaheads states q t) (table.cell q t)

/-- What can be completed: sets of items, with a table of the shifts and gotos between them. -/
structure Ready (rules : Array Rule) (terminalCount : Nat) (states : Array State)
    (table : CellTable) : Prop where
  /-- The start rule has one symbol on its right-hand side. -/
  start_rule : ∃ rule, rules[RuleId.start]? = some rule ∧ rule.rhs.length = 1
  endOfInput_lt : SymbolId.endOfInput < terminalCount
  distinct : ∀ state ∈ states, state.items.Nodup
  accepted : ∃ state ∈ states, Item.accepted ∈ state.items
  size_rows : table.rows.size = states.size
  wide : ∀ row ∈ table.rows, terminalCount ≤ row.size
  /-- Terminals are shifted if anything. -/
  shifts {q : StateId} {t : SymbolId} (ht : t < terminalCount) :
    table.cell q t = .error ∨ ∃ p, table.cell q t = .shift p

/-! ## Settling -/

variable {asks : Cell → Prop} {before : Cell}

/-- What asks for a cell is a reduction. -/
theorem reduces_of_asks (hasks : ∀ cell, asks cell →
      cell = .accept ∨ ∃ r, r ≠ RuleId.start ∧ cell = .reduce r) (h : asks cell) :
    reduces cell = true := by
  rcases hasks cell h with rfl | ⟨r, -, rfl⟩ <;> rfl

/-- An empty cell is settled by a competition of reductions. -/
theorem settled_of_installAll_of_error (h : installAll q candidates row = .ok (row', conflicts))
    (hnodup : candidates.Nodup) (hmem : ∀ cell, (t, cell) ∈ candidates ↔ asks cell)
    (hasks : ∀ cell, asks cell → cell = .accept ∨ ∃ r, r ≠ RuleId.start ∧ cell = .reduce r)
    (hrow : row[t]? = some .error) :
    ∃ after, row'[t]? = some after ∧ Settled q t asks .error after (reports conflicts q t) := by
  have hrivals : ∀ cell, cell ∈ rivals candidates t ↔ asks cell := fun cell =>
    mem_rivals.trans (hmem cell)
  have hafter := getElem?_of_installAll h hrow
  obtain ⟨after, heq, hkinds, hperm⟩ := perm_of_installAll h hrow (.inl rfl) fun cell hcell =>
    reduces_of_asks hasks ((hrivals cell).1 hcell)
  rw [held_error, List.nil_append] at hperm
  obtain ⟨-, hdropped, hdisjoint⟩ := List.nodup_append.1 (hperm.nodup_iff.2 (nodup_rivals hnodup))
  have hfold : (rivals candidates t).foldl prevail .error = after :=
    Option.some.inj (hafter.symm.trans heq)
  refine ⟨after, heq, nofun, fun _ ha => ?_, fun {r} _ hr ha hmin => ?_, fun _ hnone => ?_, nofun,
    fun _ => ⟨hkinds, hdropped, fun cell => ⟨fun hcell => ?_, fun ⟨hcell, hne⟩ => ?_⟩⟩⟩
  · refine hfold.symm.trans (foldl_prevail_of_mem Cell.noConfusion ((hrivals _).2 ha)
      (fun cell hcell => ?_) (.inl rfl))
    rcases hasks cell ((hrivals cell).1 hcell) with rfl | ⟨r, hr, rfl⟩
    · exact .inl rfl
    · exact .inr ⟨r, rfl, Nat.pos_of_ne_zero hr⟩
  · refine hfold.symm.trans (foldl_prevail_of_mem Cell.noConfusion ((hrivals _).2 hr)
      (fun cell hcell => ?_) (.inl rfl))
    have hcell := (hrivals cell).1 hcell
    rcases hasks cell hcell with rfl | ⟨r', -, rfl⟩
    · exact absurd hcell ha
    · rcases Nat.eq_or_lt_of_le (hmin r' hcell) with rfl | hlt
      · exact .inl rfl
      · exact .inr ⟨r', rfl, hlt⟩
  · have hnil : rivals candidates t = [] :=
      List.eq_nil_iff_forall_not_mem.2 fun cell hcell => hnone cell ((hrivals cell).1 hcell)
    rw [← hfold, hnil]
    rfl
  · have hcell' := (hrivals cell).1 (hperm.subset (List.mem_append_right _ hcell))
    refine ⟨hcell', fun hafter => hdisjoint cell ?_ cell hcell rfl⟩
    rw [← hafter, held_of_reduces (reduces_of_asks hasks hcell')]
    exact List.mem_singleton_self cell
  · rcases List.mem_append.1 (hperm.symm.subset ((hrivals cell).2 hcell)) with hheld | hcell
    · exact absurd (eq_of_mem_held hheld) hne
    · exact hcell

/-- The cell of a shift is settled by reporting whatever asks for it. -/
theorem settled_of_installAll_of_shift (h : installAll q candidates row = .ok (row', conflicts))
    (hnodup : candidates.Nodup) (hmem : ∀ cell, (t, cell) ∈ candidates ↔ asks cell)
    (hne : ∀ x, (x, Cell.error) ∉ candidates) {p : StateId} (hrow : row[t]? = some (.shift p)) :
    ∃ after, row'[t]? = some after ∧
      Settled q t asks (.shift p) after (reports conflicts q t) := by
  refine ⟨_, (installed_of_installAll h hne).shift hrow, fun h => h, nofun, nofun, nofun,
    fun {p'} hp => ?_, nofun⟩
  obtain rfl := Cell.shift.inj hp
  rw [reports_of_installAll_of_shift h hrow]
  refine ⟨(nodup_rivals hnodup).map fun cell cell' hcell => congrArg Conflict.dropped hcell,
    fun c => ?_⟩
  simp only [List.mem_map, mem_rivals, hmem, eq_comm]

/-- Nothing happens to a cell for which nothing asks. -/
theorem settled_of_not_asks (h : ∀ cell, ¬ asks cell) : Settled q t asks .error .error [] :=
  ⟨nofun, fun _ ha => absurd ha (h _), fun _ hr _ _ => absurd hr (h _), fun _ _ => rfl, nofun,
    fun _ => ⟨nofun, .nil, fun cell => ⟨nofun, fun ⟨ha, _⟩ => absurd ha (h cell)⟩⟩⟩

/-- The winner has asked for its cell. -/
theorem Settled.asks_after {after : Cell} {reported : List Conflict}
    (hs : Settled q t asks .error after reported)
    (hasks : ∀ cell, asks cell → cell = .accept ∨ ∃ r, r ≠ RuleId.start ∧ cell = .reduce r)
    (h : asks cell) : asks after := by
  classical
  by_cases ha : asks .accept
  · exact hs.accept rfl ha ▸ ha
  · have hsome : ∃ r, asks (.reduce r) := by
      rcases hasks cell h with rfl | ⟨r, -, rfl⟩
      · exact absurd h ha
      · exact ⟨r, h⟩
    rw [hs.reduce rfl (Nat.find_spec hsome) ha fun r' hr' => Nat.find_min' hsome hr']
    exact Nat.find_spec hsome

variable {terminalCount : Nat} {states : Array State} {table : CellTable} {result : Result}

theorem eq_of_asks (h : Asks rules lookaheads states q t cell) :
    cell = .accept ∨ ∃ r, r ≠ RuleId.start ∧ cell = .reduce r := by
  cases h with
  | accept => exact .inl rfl
  | reduce _ _ hne => exact .inr ⟨_, hne, rfl⟩

namespace Ready

theorem lt_of_asks (hready : Ready rules terminalCount states table)
    (hl : lookaheads.Terminal terminalCount) (h : Asks rules lookaheads states q t cell) :
    t < terminalCount := by
  cases h with
  | accept _ _ ht => exact ht ▸ hready.endOfInput_lt
  | reduce _ _ _ hset ht => exact hl q _ _ hset t ht

/-- The completed start rule is the item that accepts. -/
theorem eq_accepted_iff (hready : Ready rules terminalCount states table) {i : Item}
    (hi : i ∈ state.completed rules) : i = Item.accepted ↔ i.rule = RuleId.start := by
  obtain ⟨start, hstart, hlength⟩ := hready.start_rule
  obtain ⟨-, rule, hr, hdot⟩ := State.mem_completed.1 hi
  obtain ⟨r, dot⟩ := i
  constructor
  · rintro ⟨⟩
    rfl
  · rintro rfl
    obtain rfl := Option.some.inj (hstart.symm.trans hr)
    exact congrArg (Item.mk RuleId.start) (hdot.trans hlength)

/-- The candidates of a state are what it asks for. -/
theorem mem_candidates_iff (hready : Ready rules terminalCount states table)
    (hs : states[q]? = some state) :
    (t, cell) ∈ Completion.candidates rules lookaheads q state ↔
      Asks rules lookaheads states q t cell := by
  rw [mem_candidates]
  constructor
  · rintro (⟨ht, rfl, hi⟩ | ⟨i, hi, hne, rfl, set, hset, ht⟩)
    · exact .accept hs hi ht
    · exact .reduce hs hi (fun h => hne ((hready.eq_accepted_iff hi).2 h)) hset ht
  · rintro (⟨hs', hi, ht⟩ | ⟨hs', hi, hne, hset, ht⟩)
    · obtain rfl := Option.some.inj (hs.symm.trans hs')
      exact .inl ⟨ht, rfl, hi⟩
    · obtain rfl := Option.some.inj (hs.symm.trans hs')
      exact .inr ⟨_, hi, fun h => hne ((hready.eq_accepted_iff hi).1 h), rfl, _, hset, ht⟩

/-- The row of a state, before and behind its completion. -/
theorem exists_row (hready : Ready rules terminalCount states table)
    (h : complete rules states lookaheads table = .ok result) (hs : states[q]? = some state) :
    ∃ row row', table.rows[q]? = some row ∧ result.table.rows[q]? = some row' ∧
      terminalCount ≤ row.size ∧
      installAll q (Completion.candidates rules lookaheads q state) row =
        .ok (row', result.conflicts.filter (·.state == q)) := by
  obtain ⟨⟨rows, hrows, htable⟩, -⟩ := exists_of_complete h
  have hlt : q < table.rows.size := hready.size_rows ▸ (Array.getElem?_eq_some_iff.1 hs).1
  have hrow := Array.getElem?_eq_getElem hlt
  obtain ⟨row', hrow', hi⟩ := exists_installAll_of_completeRows hrows
    (by rwa [Array.getElem?_toList]) (by rwa [Array.getElem?_toList])
  rw [Nat.zero_add] at hi
  exact ⟨_, row', hrow, by rwa [htable, List.getElem?_toArray],
    hready.wide _ (Array.mem_of_getElem? hrow), hi⟩

/-- There are no cells behind the last state. -/
theorem cell_of_le (hready : Ready rules terminalCount states table)
    (h : complete rules states lookaheads table = .ok result) (hq : states.size ≤ q)
    (x : SymbolId) : table.cell q x = .error ∧ result.table.cell q x = .error := by
  obtain ⟨⟨rows, hrows, htable⟩, -⟩ := exists_of_complete h
  have hlength : rows.length = states.size :=
    (length_of_completeRows hrows).trans hready.size_rows
  constructor
  · simp [CellTable.cell, Array.getElem?_eq_none (hready.size_rows ▸ hq)]
  · simp [CellTable.cell, htable, List.getElem?_eq_none (hlength ▸ hq)]

/-- What is reported is about a cell that was asked for. -/
theorem exists_asks_of_mem (hready : Ready rules terminalCount states table)
    (h : complete rules states lookaheads table = .ok result) {c : Conflict}
    (hc : c ∈ result.conflicts) :
    ∃ cell, Asks rules lookaheads states c.state c.terminal cell := by
  obtain ⟨⟨rows, hrows, -⟩, -⟩ := exists_of_complete h
  obtain ⟨n, state, cell, hs, hstate, hcell⟩ := exists_candidate_of_completeRows hrows hc
  rw [Nat.zero_add] at hstate
  rw [← hstate, Array.getElem?_toList] at hs
  exact ⟨cell, (hready.mem_candidates_iff hs).1 hcell⟩

/-- The cells of the terminals are settled. -/
theorem settled (hready : Ready rules terminalCount states table)
    (h : complete rules states lookaheads table = .ok result) (ht : t < terminalCount) :
    Settled q t (Asks rules lookaheads states q t) (table.cell q t) (result.table.cell q t)
      (reports result.conflicts q t) := by
  by_cases hq : q < states.size
  · have hs := Array.getElem?_eq_getElem hq
    obtain ⟨row, row', hrow, hrow', hwide, hi⟩ := hready.exists_row h hs
    have hlt : t < row.size := Nat.lt_of_lt_of_le ht hwide
    have hx := Array.getElem?_eq_getElem hlt
    have hcell : table.cell q t = row[t] := by simp [CellTable.cell, hrow, hx]
    have hreports : reports (result.conflicts.filter (·.state == q)) q t =
        reports result.conflicts q t := by
      simp [reports, List.filter_filter, Bool.and_comm]
    have hnodup : (candidates rules lookaheads q states[q]).Nodup :=
      nodup_candidates (hready.distinct _ (Array.mem_of_getElem? hs))
    obtain ⟨after, hafter, hsettled⟩ : ∃ after, row'[t]? = some after ∧
        Settled q t (Asks rules lookaheads states q t) row[t] after
          (reports (result.conflicts.filter (·.state == q)) q t) := by
      rcases hready.shifts (q := q) ht with herror | ⟨p, hshift⟩
      · rw [hcell.symm.trans herror] at hx ⊢
        exact settled_of_installAll_of_error hi hnodup
          (fun cell => hready.mem_candidates_iff hs) (fun cell => eq_of_asks) hx
      · rw [hcell.symm.trans hshift] at hx ⊢
        exact settled_of_installAll_of_shift hi hnodup
          (fun cell => hready.mem_candidates_iff hs) error_not_mem_candidates hx
    have hcell' : result.table.cell q t = after := by simp [CellTable.cell, hrow', hafter]
    rwa [hcell, hcell', ← hreports]
  · have hnone : ∀ cell, ¬ Asks rules lookaheads states q t cell := by
      rintro cell (⟨hs, -, -⟩ | ⟨hs, -, -, -, -⟩) <;>
        exact hq (Array.getElem?_eq_some_iff.1 hs).1
    obtain ⟨hcell, hcell'⟩ := hready.cell_of_le h (Nat.le_of_not_lt hq) t
    have hreports : reports result.conflicts q t = [] := by
      refine List.eq_nil_iff_forall_not_mem.2 fun c hc => ?_
      obtain ⟨hmem, rfl, rfl⟩ := mem_reports.1 hc
      obtain ⟨cell, hcell⟩ := hready.exists_asks_of_mem h hmem
      exact hnone cell hcell
    rw [hcell, hcell', hreports]
    exact settled_of_not_asks hnone

/-- The columns of the nonterminals are left alone. -/
theorem cell_of_nonterminal (hready : Ready rules terminalCount states table)
    (hl : lookaheads.Terminal terminalCount)
    (h : complete rules states lookaheads table = .ok result) {x : SymbolId}
    (hx : terminalCount ≤ x) : result.table.cell q x = table.cell q x := by
  by_cases hq : q < states.size
  · have hs := Array.getElem?_eq_getElem hq
    obtain ⟨row, row', hrow, hrow', -, hi⟩ := hready.exists_row h hs
    have hnone : rivals (Completion.candidates rules lookaheads q states[q]) x = [] := by
      refine List.eq_nil_iff_forall_not_mem.2 fun cell hcell => ?_
      have hasks := (hready.mem_candidates_iff hs).1 (mem_rivals.1 hcell)
      exact Nat.not_lt.2 hx (hready.lt_of_asks hl hasks)
    have hsame : row'[x]? = row[x]? := by
      by_cases hlt : x < row.size
      · rw [getElem?_of_installAll hi (Array.getElem?_eq_getElem hlt), hnone,
          Array.getElem?_eq_getElem hlt]
        rfl
      · have hsize := (installed_of_installAll hi error_not_mem_candidates).size
        rw [Array.getElem?_eq_none (Nat.le_of_not_lt hlt),
          Array.getElem?_eq_none (hsize ▸ Nat.le_of_not_lt hlt)]
    simp only [CellTable.cell, hrow, hrow', Option.bind_some, hsame]
  · obtain ⟨hcell, hcell'⟩ := hready.cell_of_le h (Nat.le_of_not_lt hq) x
    rw [hcell, hcell']

/-- Nothing is reported just if no two actions compete for a cell. -/
theorem conflicts_eq_nil_iff (hready : Ready rules terminalCount states table)
    (hl : lookaheads.Terminal terminalCount)
    (h : complete rules states lookaheads table = .ok result) :
    result.conflicts = [] ↔
      ∀ q t, ¬ Contested (Asks rules lookaheads states q t) (table.cell q t) := by
  constructor
  · rintro hnil q t ⟨cell, hcell, hcontested⟩
    have ht := hready.lt_of_asks hl hcell
    have hsettled := hready.settled h (q := q) ht
    rw [hnil] at hsettled
    rcases hready.shifts (q := q) ht with herror | ⟨p, hshift⟩
    · obtain ⟨-, -, hdropped⟩ := hsettled.reduceReduce herror
      have hwins : ∀ cell, Asks rules lookaheads states q t cell → cell = result.table.cell q t :=
        fun cell hcell => by_contra fun hne => absurd ((hdropped cell).2 ⟨hcell, hne⟩) nofun
      obtain hne | ⟨cell', hcell', hne⟩ := hcontested
      · exact hne herror
      · exact hne ((hwins cell' hcell').trans (hwins cell hcell).symm)
    · exact absurd (((hsettled.shiftReduce hshift).2 _).2 ⟨cell, hcell, rfl⟩) nofun
  · intro hnone
    refine List.eq_nil_iff_forall_not_mem.2 fun c hc => hnone c.state c.terminal ?_
    obtain ⟨cell, hcell⟩ := hready.exists_asks_of_mem h hc
    have ht := hready.lt_of_asks hl hcell
    have hsettled := hready.settled h (q := c.state) ht
    rcases hready.shifts (q := c.state) ht with herror | ⟨p, hshift⟩
    · obtain ⟨-, -, hdropped⟩ := hsettled.reduceReduce herror
      obtain ⟨hasks, hne⟩ := (hdropped c.dropped).1
        (List.mem_map_of_mem (mem_reports.2 ⟨hc, rfl, rfl⟩))
      rw [herror] at hsettled
      exact ⟨c.dropped, hasks, .inr ⟨_, hsettled.asks_after (fun _ => eq_of_asks) hcell, hne.symm⟩⟩
    · exact ⟨cell, hcell, .inl (by rw [hshift]; exact Cell.noConfusion)⟩

/-- **Every cell goes to the documented winner, and every loser is reported once.** -/
theorem exists_settles (hready : Ready rules terminalCount states table)
    (hl : lookaheads.Terminal terminalCount) :
    ∃ result, complete rules states lookaheads table = .ok result ∧
      Settles rules lookaheads terminalCount states table result := by
  have hrows : ∀ row ∈ table.rows, ∀ t < terminalCount, ∀ p, row[t]? ≠ some (.goto p) := by
    intro row hrow t ht p hgoto
    obtain ⟨q, hq⟩ := Array.getElem?_of_mem hrow
    have hcell : table.cell q t = .goto p := by simp [CellTable.cell, hq, hgoto]
    rcases hready.shifts (q := q) ht with h | ⟨p', h⟩ <;> cases hcell.symm.trans h
  have haccepted : ∃ state ∈ states, Item.accepted ∈ state.completed rules := by
    obtain ⟨state, hs, hi⟩ := hready.accepted
    obtain ⟨rule, hr, hlength⟩ := hready.start_rule
    exact ⟨state, hs, State.mem_completed.2 ⟨hi, rule, hr, hlength.symm⟩⟩
  obtain ⟨result, h, -⟩ := exists_complete hready.endOfInput_lt hl hrows haccepted
  exact ⟨result, h, hready.cell_of_nonterminal hl h, hready.settled h,
    hready.conflicts_eq_nil_iff hl h⟩

variable {symbols : Registry} {limits : Limits} {c : Collection} {accept start : SymbolId}

/-- **The canonical collection can be completed.** -/
theorem of_canonical (hend : SymbolId.endOfInput < symbols.terminalCount)
    (ha : Augmented rules accept start symbols.size symbols.terminalCount)
    (h : canonical rules (Automaton.analyze symbols rules) limits = .ok c) :
    Ready rules symbols.terminalCount c.states (c.table (Automaton.analyze symbols rules)) := by
  have hc := Automaton.canonical_of_augmented ha h
  refine ⟨⟨_, ha.start_rule, rfl⟩, hend, fun state hs => ?_, ?_, size_rows_table hc,
    fun row hrow => ?_, fun {q t} ht => ?_⟩
  · obtain ⟨q, hq⟩ := Array.getElem?_of_mem hs
    exact nodup_items_of_canonical h hq
  · obtain ⟨q, state, hs, hi⟩ := Automaton.exists_holds_accepted ha hc
    exact ⟨state, Array.mem_of_getElem? hs, hi⟩
  · obtain ⟨q, hq⟩ := Array.getElem?_of_mem hrow
    have hlt : q < c.states.size := size_rows_table (a := Automaton.analyze symbols rules) hc ▸
      (Array.getElem?_eq_some_iff.1 hq).1
    obtain ⟨row', hrow', hsize⟩ := exists_row_table (a := Automaton.analyze symbols rules) hc
      (Array.getElem?_eq_getElem hlt)
    obtain rfl := Option.some.inj (hq.symm.trans hrow')
    rw [hsize, Automaton.symbolCount_analyze]
    exact symbols.terminalCount_le
  · by_cases he : ∃ p, c.Edge q t p
    · obtain ⟨p, he⟩ := he
      exact .inr ⟨p, (Automaton.cell_table_iff ha hc Cell.noConfusion).2
        ⟨p, he, (if_pos ht).symm⟩⟩
    · exact .inl (cell_of_not_edge fun p hp => he ⟨p, hp⟩)

/-- On `NUM` a shift competes with two reductions, and at the end of the input two reductions
compete, as do a reduction and acceptance: all of that takes five reports. -/
theorem exists_settles_contested : ∃ (grammar : Grammar) (rules : Array Rule) (symbols : Registry)
    (c : Collection) (result : Result),
    (Automaton.readRules {} "s = s | a | b | s NUM; a = NUM; b = NUM | NUM NUM;").runOn .standard =
      (.ok (grammar, rules), symbols) ∧
    canonical rules (Automaton.analyze symbols rules) {} = .ok c ∧
    Ready rules symbols.terminalCount c.states (c.table (Automaton.analyze symbols rules)) ∧
    (Lookaheads.slr rules (Automaton.analyze symbols rules)).Terminal symbols.terminalCount ∧
    result.conflicts.length = 5 ∧
    Settles rules (.slr rules (Automaton.analyze symbols rules)) symbols.terminalCount c.states
      (c.table (Automaton.analyze symbols rules)) result := by
  have hok : (match (Automaton.readRules {}
        "s = s | a | b | s NUM; a = NUM; b = NUM | NUM NUM;").runOn .standard with
      | (.ok (_, rules), symbols) => (do
          let c ← canonical rules (Automaton.analyze symbols rules) {}
          complete rules c.states (.slr rules (Automaton.analyze symbols rules))
            (c.table (Automaton.analyze symbols rules))).toOption.any
            fun result : Result => result.conflicts.length = 5
      | _ => false) = true := by
    decide +kernel
  split at hok
  · next grammar rules symbols hread =>
    obtain ⟨result, hresult, hlength⟩ := Except.exists_of_any_toOption hok
    obtain ⟨c, hc, hresult⟩ := Except.bind_eq_ok hresult
    obtain ⟨hreserves, accept, ha⟩ := Automaton.reserves_of_readRules .standard hread
    have hend := hreserves.endOfInput_lt
    have hready := of_canonical hend ha hc
    have hfound : Automaton.lookaheadsOf .slr symbols rules (Automaton.analyze symbols rules) c {} =
        .ok (.slr rules (Automaton.analyze symbols rules)) := rfl
    have hl := Automaton.terminal_of_lookaheadsOf hend ha (Automaton.canonical_of_augmented ha hc)
      hfound
    obtain ⟨result', hresult', hsettles⟩ := hready.exists_settles hl
    obtain rfl := Except.ok.inj (hresult.symm.trans hresult')
    exact ⟨grammar, rules, symbols, c, result, hread, hc, hready, hl, of_decide_eq_true hlength,
      hsettles⟩
  · exact nomatch hok

end Ready

end Completion
end ShiftReduce
