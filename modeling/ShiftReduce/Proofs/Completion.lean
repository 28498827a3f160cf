import ShiftReduce.Proofs.Lookahead
import ShiftReduce.Completion

/-!
# Proofs/Completion — what the cells of a completed table hold

Installing the candidates of a state leaves its shifts and gotos alone, and puts nothing into a cell
but candidates for it (`Installed`).  If no conflict is reported, every candidate is in its cell:
none has lost it to another.
-/

namespace ShiftReduce.Completion

variable {q : StateId}

/-- What a row holds after candidates have been installed in it. -/
structure Installed (candidates : List Candidate) (conflicts : List Conflict)
    (row row' : Array Cell) : Prop where
  size : row'.size = row.size
  /-- Shifts stay. -/
  shift {t : SymbolId} {p : StateId} (h : row[t]? = some (.shift p)) : row'[t]? = some (.shift p)
  /-- Gotos stay. -/
  goto {t : SymbolId} {p : StateId} (h : row[t]? = some (.goto p)) : row'[t]? = some (.goto p)
  /-- What is in a cell has been there, or is a candidate for it. -/
  origin {t : SymbolId} {cell : Cell} (h : row'[t]? = some cell) :
    row[t]? = some cell ∨ (t, cell) ∈ candidates
  /-- Without conflicts nothing loses its cell. -/
  keeps (hc : conflicts = []) {t : SymbolId} {cell : Cell} (h : row[t]? = some cell)
    (hne : cell ≠ .error) : row'[t]? = some cell
  /-- Without conflicts every candidate gets its cell. -/
  gets (hc : conflicts = []) {t : SymbolId} {cell : Cell} (h : (t, cell) ∈ candidates)
    (ht : t < row.size) : row'[t]? = some cell

/-- The cell that a candidate is put into: a candidate, or what has been there. -/
theorem of_compete {t : SymbolId} {current candidate cell : Cell} {conflict : Option Conflict}
    (h : compete q t current candidate = .ok (cell, conflict)) :
    (cell = candidate ∧ (current = .error ∨ conflict.isSome) ∨ cell = current ∧ conflict.isSome) ∧
      (∀ p, current = .shift p → cell = current) ∧ ∀ p, current ≠ .goto p := by
  unfold compete at h
  split at h
  · simp only [Except.ok.injEq, Prod.mk.injEq] at h
    obtain ⟨rfl, rfl⟩ := h
    simp
  · simp only [Except.ok.injEq, Prod.mk.injEq] at h
    obtain ⟨rfl, rfl⟩ := h
    simp
  · exact nomatch h
  · split at h <;>
      (simp only [Except.ok.injEq, Prod.mk.injEq] at h; obtain ⟨rfl, rfl⟩ := h; simp)
  · split at h <;>
      (simp only [Except.ok.injEq, Prod.mk.injEq] at h; obtain ⟨rfl, rfl⟩ := h; simp)

/-- A conflict is about the cell that is asked for. -/
theorem at_of_compete {t : SymbolId} {current candidate cell : Cell} {conflict : Option Conflict}
    (h : compete q t current candidate = .ok (cell, conflict)) :
    ∀ c ∈ conflict, c.state = q ∧ c.terminal = t := by
  unfold compete at h
  split at h
  · obtain ⟨-, rfl⟩ := Prod.mk.inj (Except.ok.inj h)
    exact nofun
  · obtain ⟨-, rfl⟩ := Prod.mk.inj (Except.ok.inj h)
    rintro c ⟨⟩
    exact ⟨rfl, rfl⟩
  · cases h
  all_goals
    split at h
    all_goals
      obtain ⟨-, rfl⟩ := Prod.mk.inj (Except.ok.inj h)
      rintro c ⟨⟩
      exact ⟨rfl, rfl⟩

theorem Installed.refl (row : Array Cell) : Installed [] [] row row :=
  ⟨rfl, id, id, .inl, fun _ _ _ h _ => h, nofun⟩

/-- Installing further candidates. -/
theorem Installed.trans {candidates candidates' : List Candidate}
    {conflicts conflicts' : List Conflict} {row row' row'' : Array Cell}
    (h : Installed candidates conflicts row row')
    (h' : Installed candidates' conflicts' row' row'')
    (hne : ∀ t, (t, Cell.error) ∉ candidates) :
    Installed (candidates ++ candidates') (conflicts ++ conflicts') row row'' where
  size := h'.size.trans h.size
  shift hx := h'.shift (h.shift hx)
  goto hx := h'.goto (h.goto hx)
  origin hx := by
    rcases h'.origin hx with hx | hx
    · exact (h.origin hx).imp_right (List.mem_append_left candidates')
    · exact .inr (List.mem_append_right candidates hx)
  keeps hc _ _ hx hx₀ := by
    obtain ⟨hnil, hnil'⟩ := List.append_eq_nil_iff.1 hc
    exact h'.keeps hnil' (h.keeps hnil hx hx₀) hx₀
  gets hc t cell hx ht := by
    obtain ⟨hnil, hnil'⟩ := List.append_eq_nil_iff.1 hc
    rcases List.mem_append.1 hx with hx | hx
    · exact h'.keeps hnil' (h.gets hnil hx ht) fun h₀ => hne t (h₀ ▸ hx)
    · exact h'.gets hnil' hx (h.size.symm ▸ ht)

/-- Installing one candidate. -/
theorem installed_of_compete {t : SymbolId} {candidate cell : Cell} {conflict : Option Conflict}
    {row : Array Cell} (h : compete q t (row[t]?.getD .error) candidate = .ok (cell, conflict)) :
    Installed [(t, candidate)] conflict.toList row (row.setIfInBounds t cell) := by
  obtain ⟨hcell, hshift, hgoto⟩ := of_compete h
  have hself {c : Cell} (hx : row[t]? = some c) :
      (row.setIfInBounds t cell)[t]? = some cell ∧ row[t]?.getD .error = c := by
    have hlt := (Array.getElem?_eq_some_iff.1 hx).1
    exact ⟨Array.getElem?_setIfInBounds_self_of_lt hlt, by rw [hx]; rfl⟩
  have hother {x : SymbolId} (hx : x ≠ t) : (row.setIfInBounds t cell)[x]? = row[x]? :=
    Array.getElem?_setIfInBounds_ne (Ne.symm hx)
  refine ⟨Array.size_setIfInBounds, fun {x p} hx => ?_, fun {x p} hx => ?_, fun {x c} hx => ?_,
    fun hc {x c} hx hx₀ => ?_, fun hc {x c} hx hlt => ?_⟩
  · by_cases hxt : x = t
    · subst hxt
      obtain ⟨hset, hcurrent⟩ := hself hx
      rw [hset, hshift p hcurrent, hcurrent]
    · rwa [hother hxt]
  · by_cases hxt : x = t
    · subst hxt
      exact absurd (hself hx).2 (hgoto p)
    · rwa [hother hxt]
  · by_cases hxt : x = t
    · subst hxt
      have hsize : (row.setIfInBounds x cell).size = row.size := Array.size_setIfInBounds
      have hlt : x < row.size := hsize ▸ (Array.getElem?_eq_some_iff.1 hx).1
      obtain ⟨hset, hcurrent⟩ := hself (Array.getElem?_eq_getElem hlt)
      obtain rfl := Option.some.inj (hset.symm.trans hx)
      rcases hcell with ⟨rfl, -⟩ | ⟨rfl, -⟩
      · exact .inr List.mem_cons_self
      · exact .inl ((Array.getElem?_eq_getElem hlt).trans (congrArg some hcurrent.symm))
    · exact .inl (hother hxt ▸ hx)
  · have hnone : conflict = none := by simpa using hc
    by_cases hxt : x = t
    · subst hxt
      rcases hcell with ⟨-, hcurrent | hsome⟩ | ⟨-, hsome⟩
      · exact absurd ((hself hx).2.symm.trans hcurrent) hx₀
      · simp [hnone] at hsome
      · simp [hnone] at hsome
    · rwa [hother hxt]
  · have hnone : conflict = none := by simpa using hc
    obtain ⟨rfl, rfl⟩ := Prod.mk.inj (List.mem_singleton.1 hx)
    rcases hcell with ⟨rfl, -⟩ | ⟨-, hsome⟩
    · exact (hself (Array.getElem?_eq_getElem hlt)).1
    · simp [hnone] at hsome

/-- The first candidate competes for its cell, and the others for theirs behind it. -/
theorem exists_of_installAll_cons {candidate : Candidate} {rest : List Candidate}
    {row row' : Array Cell} {conflicts : List Conflict}
    (h : installAll q (candidate :: rest) row = .ok (row', conflicts)) :
    ∃ cell conflict found,
      compete q candidate.1 (row[candidate.1]?.getD .error) candidate.2 = .ok (cell, conflict) ∧
      installAll q rest (row.setIfInBounds candidate.1 cell) = .ok (row', found) ∧
      conflicts = conflict.toList ++ found := by
  obtain ⟨⟨cell, conflict⟩, hcell, h⟩ := Except.bind_eq_ok h
  obtain ⟨⟨row₁, found⟩, hrest, h⟩ := Except.bind_eq_ok h
  obtain ⟨rfl, rfl⟩ := Prod.mk.inj (Except.ok.inj h)
  exact ⟨cell, conflict, found, hcell, hrest, rfl⟩

/-- Installing candidates one by one. -/
theorem installed_of_installAll {candidates : List Candidate} {row row' : Array Cell}
    {conflicts : List Conflict} (h : installAll q candidates row = .ok (row', conflicts))
    (hne : ∀ t, (t, Cell.error) ∉ candidates) : Installed candidates conflicts row row' := by
  induction candidates generalizing row conflicts with
  | nil =>
    simp only [installAll, Except.ok.injEq, Prod.mk.injEq] at h
    obtain ⟨rfl, rfl⟩ := h
    exact .refl row
  | cons head rest ih =>
    obtain ⟨cell, conflict, found, hcell, hrest, rfl⟩ := exists_of_installAll_cons h
    refine (installed_of_compete hcell).trans
      (ih hrest fun t ht => hne t (List.mem_cons_of_mem _ ht)) fun x hx => hne x ?_
    exact List.mem_singleton.1 hx ▸ List.mem_cons_self

/-- What is reported is about a cell of the state that a candidate asked for. -/
theorem exists_candidate_of_installAll {candidates : List Candidate} {row row' : Array Cell}
    {conflicts : List Conflict} (h : installAll q candidates row = .ok (row', conflicts))
    {conflict : Conflict} (hc : conflict ∈ conflicts) :
    conflict.state = q ∧ ∃ cell, (conflict.terminal, cell) ∈ candidates := by
  induction candidates generalizing row conflicts with
  | nil =>
    obtain ⟨-, rfl⟩ := Prod.mk.inj (Except.ok.inj h)
    exact nomatch hc
  | cons head rest ih =>
    obtain ⟨next, displaced, found, hnext, hrest, rfl⟩ := exists_of_installAll_cons h
    rcases List.mem_append.1 hc with hc | hc
    · obtain ⟨hstate, hterminal⟩ := at_of_compete hnext conflict (Option.mem_toList.1 hc)
      exact ⟨hstate, head.2, hterminal ▸ List.mem_cons_self⟩
    · obtain ⟨hstate, cell, hcell⟩ := ih hrest hc
      exact ⟨hstate, cell, List.mem_cons_of_mem _ hcell⟩

/-! ## Candidates -/

open Collection

variable {rules : Array Rule} {c : Collection} {lookaheads : Lookaheads}

/-- What an item asks for: acceptance, or its reduction on its lookaheads. -/
theorem mem_candidatesOf {i : Item} {t : SymbolId} {cell : Cell} :
    (t, cell) ∈ candidatesOf lookaheads q i ↔
      (t = SymbolId.endOfInput ∧ cell = .accept ∧ i = Item.accepted) ∨
      i ≠ Item.accepted ∧ cell = .reduce i.rule ∧
        ∃ set, lookaheads q i.rule = some set ∧ t ∈ set := by
  unfold candidatesOf
  by_cases hi : i = Item.accepted
  · simp [hi]
  · cases hl : lookaheads q i.rule with
    | none => simp [hi]
    | some set =>
      simp [hi]
      tauto

/-- What a state asks for: acceptance behind the completed start rule, and the reductions of its
other completed items on their lookaheads. -/
theorem mem_candidates {state : State} {t : SymbolId} {cell : Cell} :
    (t, cell) ∈ candidates rules lookaheads q state ↔
      (t = SymbolId.endOfInput ∧ cell = .accept ∧ Item.accepted ∈ state.completed rules) ∨
      ∃ i ∈ state.completed rules, i ≠ Item.accepted ∧ cell = .reduce i.rule ∧
        ∃ set, lookaheads q i.rule = some set ∧ t ∈ set := by
  simp only [candidates, List.mem_flatMap, mem_candidatesOf]
  constructor
  · rintro ⟨i, hi, ⟨ht, hcell, rfl⟩ | h⟩
    · exact .inl ⟨ht, hcell, hi⟩
    · exact .inr ⟨i, hi, h⟩
  · rintro (⟨ht, hcell, hi⟩ | ⟨i, hi, h⟩)
    · exact ⟨_, hi, .inl ⟨ht, hcell, rfl⟩⟩
    · exact ⟨i, hi, .inr h⟩

theorem error_not_mem_candidates {state : State} (t : SymbolId) :
    (t, Cell.error) ∉ candidates rules lookaheads q state := by
  rw [mem_candidates]
  rintro (⟨-, h, -⟩ | ⟨i, -, -, h, -⟩) <;> exact nomatch h

/-- The first row is completed by the candidates of the first state. -/
theorem exists_of_completeRows_cons {state : State} {states : List State} {row : Array Cell}
    {rows rows' : List (Array Cell)} {conflicts : List Conflict}
    (h : completeRows rules lookaheads q (state :: states) (row :: rows) = .ok (rows', conflicts)) :
    ∃ row₁ found rows₁ rest,
      installAll q (candidates rules lookaheads q state) row = .ok (row₁, found) ∧
      completeRows rules lookaheads (q + 1) states rows = .ok (rows₁, rest) ∧
      rows' = row₁ :: rows₁ ∧ conflicts = found ++ rest := by
  obtain ⟨⟨row₁, found⟩, hrow, h⟩ := Except.bind_eq_ok h
  obtain ⟨⟨rows₁, rest⟩, hrows, h⟩ := Except.bind_eq_ok h
  obtain ⟨rfl, rfl⟩ := Prod.mk.inj (Except.ok.inj h)
  exact ⟨row₁, found, rows₁, rest, hrow, hrows, rfl, rfl⟩

/-- What is reported is about a cell that a candidate of its state asked for. -/
theorem exists_candidate_of_completeRows {states : List State} {rows rows' : List (Array Cell)}
    {conflicts : List Conflict}
    (h : completeRows rules lookaheads q states rows = .ok (rows', conflicts))
    {conflict : Conflict} (hc : conflict ∈ conflicts) :
    ∃ n state cell, states[n]? = some state ∧ conflict.state = q + n ∧
      (conflict.terminal, cell) ∈ candidates rules lookaheads conflict.state state := by
  induction states generalizing q rows rows' conflicts with
  | nil =>
    obtain ⟨-, rfl⟩ := Prod.mk.inj (Except.ok.inj h)
    exact nomatch hc
  | cons state₀ states ih =>
    cases rows with
    | nil =>
      obtain ⟨-, rfl⟩ := Prod.mk.inj (Except.ok.inj h)
      exact nomatch hc
    | cons row₀ rows =>
      obtain ⟨row₁, found, rows₁, rest, h₁, h₂, rfl, rfl⟩ := exists_of_completeRows_cons h
      rcases List.mem_append.1 hc with hc | hc
      · obtain ⟨rfl, cell, hcell⟩ := exists_candidate_of_installAll h₁ hc
        exact ⟨0, state₀, cell, rfl, rfl, hcell⟩
      · obtain ⟨n, state, cell, hs, hstate, hcell⟩ := ih h₂ hc
        exact ⟨n + 1, state, cell, hs, hstate.trans (Nat.succ_add q n), hcell⟩

/-- The candidates of a state are installed in its row, and their conflicts are those of the table
that are about the state. -/
theorem exists_installAll_of_completeRows {states : List State} {rows rows' : List (Array Cell)}
    {conflicts : List Conflict}
    (h : completeRows rules lookaheads q states rows = .ok (rows', conflicts))
    {n : Nat} {state : State} (hs : states[n]? = some state) {row : Array Cell}
    (hr : rows[n]? = some row) :
    ∃ row', rows'[n]? = some row' ∧
      installAll (q + n) (candidates rules lookaheads (q + n) state) row =
        .ok (row', conflicts.filter (·.state == q + n)) := by
  induction states generalizing q rows rows' conflicts n with
  | nil => exact nomatch hs
  | cons state₀ states ih =>
    cases rows with
    | nil => exact nomatch hr
    | cons row₀ rows =>
      obtain ⟨row₁, found, rows₁, rest, h₁, h₂, rfl, rfl⟩ := exists_of_completeRows_cons h
      have hfound : ∀ c ∈ found, c.state = q := fun c hc => (exists_candidate_of_installAll h₁ hc).1
      rw [List.filter_append]
      cases n with
      | zero =>
        obtain rfl := Option.some.inj hs
        obtain rfl := Option.some.inj hr
        have hrest : rest.filter (·.state == q) = [] := by
          refine List.filter_eq_nil_iff.2 fun c hc => ?_
          obtain ⟨m, -, -, -, hstate, -⟩ := exists_candidate_of_completeRows h₂ hc
          rw [beq_iff_eq, hstate]
          exact Nat.ne_of_gt (Nat.lt_add_right m (Nat.lt_succ_self q))
        have hall : found.filter (·.state == q) = found :=
          List.filter_eq_self.2 fun c hc => beq_iff_eq.2 (hfound c hc)
        refine ⟨row₁, rfl, ?_⟩
        rw [Nat.add_zero, hall, hrest, List.append_nil]
        exact h₁
      | succ n =>
        obtain ⟨row', hrow, hi⟩ := ih h₂ hs hr
        have hnone : found.filter (·.state == q + (n + 1)) = [] := by
          refine List.filter_eq_nil_iff.2 fun c hc => ?_
          rw [beq_iff_eq, hfound c hc]
          exact Nat.ne_of_lt (Nat.lt_add_of_pos_right n.succ_pos)
        refine ⟨row', hrow, ?_⟩
        rw [hnone, List.nil_append]
        rwa [Nat.add_assoc, Nat.add_comm 1] at hi

/-- Every row is completed by the candidates of its state. -/
theorem installed_of_completeRows {states : List State} {rows rows' : List (Array Cell)}
    {conflicts : List Conflict}
    (h : completeRows rules lookaheads q states rows = .ok (rows', conflicts)) {n : Nat}
    {state : State} (hs : states[n]? = some state) {row : Array Cell}
    (hr : rows[n]? = some row) :
    ∃ row' found, rows'[n]? = some row' ∧ (conflicts = [] → found = []) ∧
      Installed (candidates rules lookaheads (q + n) state) found row row' := by
  obtain ⟨row', hrow, hi⟩ := exists_installAll_of_completeRows h hs hr
  exact ⟨row', _, hrow, fun hc => by rw [hc, List.filter_nil],
    installed_of_installAll hi error_not_mem_candidates⟩

theorem length_of_completeRows {states : List State} {rows rows' : List (Array Cell)}
    {conflicts : List Conflict}
    (h : completeRows rules lookaheads q states rows = .ok (rows', conflicts)) :
    rows'.length = rows.length := by
  induction states generalizing q rows rows' conflicts with
  | nil =>
    simp only [completeRows, Except.ok.injEq, Prod.mk.injEq] at h
    rw [h.1]
  | cons state states ih =>
    cases rows with
    | nil =>
      simp only [completeRows, Except.ok.injEq, Prod.mk.injEq] at h
      rw [h.1]
    | cons row rows =>
      obtain ⟨row₁, found, rows₁, rest, -, h₂, rfl, -⟩ := exists_of_completeRows_cons h
      rw [List.length_cons, ih h₂, List.length_cons]

/-! ## Completed tables -/

variable {a : Analysis} {result : Result}

/-- The parts of a completed table: its conflicts, and its final state, which lookaheads have
nothing to do with. -/
theorem exists_of_complete {states : Array State} {table : CellTable} {result : Result}
    (h : complete rules states lookaheads table = .ok result) :
    (∃ rows, completeRows rules lookaheads 0 states.toList table.rows.toList =
        .ok (rows, result.conflicts) ∧ result.table = ⟨table.width, rows.toArray⟩) ∧
      states.findIdx? (fun s => (s.completed rules).contains Item.accepted) =
        some result.finalState := by
  unfold complete at h
  split at h
  · exact nomatch h
  next rows conflicts hrows =>
  split at h
  · exact nomatch h
  next final hfinal =>
  obtain rfl := Except.ok.inj h
  exact ⟨⟨rows, hrows, rfl⟩, hfinal⟩

/-- **The cells of a completed table**: those of the edges, and the candidates. -/
structure Completed (rules : Array Rule) (a : Analysis) (c : Collection) (lookaheads : Lookaheads)
    (result : Result) : Prop where
  shift {q p : StateId} {t : SymbolId} (h : (c.table a).cell q t = .shift p) :
    result.table.cell q t = .shift p
  goto {q p : StateId} {t : SymbolId} (h : (c.table a).cell q t = .goto p) :
    result.table.cell q t = .goto p
  origin {q : StateId} {t : SymbolId} (hne : result.table.cell q t ≠ .error) :
    (c.table a).cell q t = result.table.cell q t ∨
      ∃ state, c.states[q]? = some state ∧
        (t, result.table.cell q t) ∈ candidates rules lookaheads q state
  gets (hc : result.conflicts = []) {q : StateId} {state : State} (hs : c.states[q]? = some state)
    {t : SymbolId} (ht : t < a.symbolCount) {cell : Cell}
    (h : (t, cell) ∈ candidates rules lookaheads q state) : result.table.cell q t = cell

/-- The row of a state, before and behind its completion. -/
theorem exists_installed (hc : Canonical rules c) {rows : List (Array Cell)}
    {conflicts : List Conflict}
    (h : completeRows rules lookaheads 0 c.states.toList (c.table a).rows.toList =
      .ok (rows, conflicts)) {q : StateId} {state : State} (hs : c.states[q]? = some state) :
    ∃ row row' found, (c.table a).rows[q]? = some row ∧ rows[q]? = some row' ∧
      row.size = a.symbolCount ∧ (conflicts = [] → found = []) ∧
      Installed (candidates rules lookaheads q state) found row row' := by
  obtain ⟨row, hrow, hsize⟩ := exists_row_table (a := a) hc hs
  obtain ⟨row', found, hrow', hfound, hi⟩ := installed_of_completeRows h
    (by rwa [Array.getElem?_toList]) (by rwa [Array.getElem?_toList])
  rw [Nat.zero_add] at hi
  exact ⟨row, row', found, hrow, hrow', hsize, hfound, hi⟩

theorem completed_of_complete (hc : Canonical rules c)
    (h : complete rules c.states lookaheads (c.table a) = .ok result) :
    Completed rules a c lookaheads result := by
  unfold complete at h
  split at h
  · exact nomatch h
  next rows conflicts hrows =>
  split at h
  · exact nomatch h
  next finalState hfinal =>
  obtain rfl := Except.ok.inj h
  -- the rows of a cell that says something
  have hcell {q : StateId} {x : SymbolId} {cell : Cell} (h : (c.table a).cell q x = cell)
      (hne : cell ≠ .error) : ∃ state row row' found, rows[q]? = some row' ∧
        row[x]? = some cell ∧ Installed (candidates rules lookaheads q state) found row row' := by
    subst h
    obtain ⟨row, hr, hx⟩ := exists_row_of_cell hne
    have hlt : q < c.states.size := size_rows_table hc ▸ (Array.getElem?_eq_some_iff.1 hr).1
    obtain ⟨row₁, row', found, hr₁, hr', -, -, hi⟩ :=
      exists_installed hc hrows (Array.getElem?_eq_getElem hlt)
    obtain rfl := Option.some.inj (hr.symm.trans hr₁)
    exact ⟨_, row, row', found, hr', hx, hi⟩
  refine ⟨fun {q p t} h => ?_, fun {q p t} h => ?_, fun {q t} hne => ?_,
    fun hconflicts {q state} hs {t} ht {cell} h => ?_⟩
  · obtain ⟨state, row, row', found, hr', hx, hi⟩ := hcell h Cell.noConfusion
    simp [CellTable.cell, hr', hi.shift hx]
  · obtain ⟨state, row, row', found, hr', hx, hi⟩ := hcell h Cell.noConfusion
    simp [CellTable.cell, hr', hi.goto hx]
  · obtain ⟨row', hr', hx'⟩ := exists_row_of_cell hne
    have hr' : rows[q]? = some row' := by rwa [← List.getElem?_toArray]
    have hlt : q < c.states.size := by
      rw [← size_rows_table (a := a) hc, ← Array.length_toList, ← length_of_completeRows hrows]
      exact (List.getElem?_eq_some_iff.1 hr').1
    obtain ⟨row, row₁, found, hr, hr₁, -, -, hi⟩ :=
      exists_installed hc hrows (Array.getElem?_eq_getElem hlt)
    obtain rfl := Option.some.inj (hr'.symm.trans hr₁)
    rcases hi.origin hx' with h | h
    · refine .inl ?_
      rw [CellTable.cell, hr, Option.bind_some, h, Option.getD_some]
    · exact .inr ⟨_, Array.getElem?_eq_getElem hlt, h⟩
  · obtain ⟨row, row', found, hr, hr', hrsize, hfound, hi⟩ := exists_installed hc hrows hs
    simp [CellTable.cell, hr', hi.gets (hfound hconflicts) h (hrsize ▸ ht)]

end ShiftReduce.Completion
